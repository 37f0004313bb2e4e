/-
Loading a text whose tokens stand elsewhere.

What is left of loading once a text is read depends on the tree of the chosen module alone
(`Module.outcomeOf`). If the trees of one text are those of another one elsewhere, then so is
everything that follows from them: the module that is chosen, what is wrong with it, the module that
it stands for, and the order of its wires (`mirrors_outcomeOf`). To a user who does not look at
places, both texts are alike (`Module.Alike`).
-/
import Netlist.Proofs.Loading
import Netlist.Proofs.RelocatedModules
import Netlist.Proofs.RelocatedReaders

set_option autoImplicit false

namespace Netlist

variable {g : Relocation} {exact : Prop}

/-! ## Errors elsewhere -/

/-- The error in the place where it has gone. -/
def ModuleError.relocate (g : Relocation) : ModuleError → ModuleError
  | brokenModule location => brokenModule (location.map g.location)
  | e => e

/-- The error in the place where it has gone. -/
def LoadError.relocate (g : Relocation) : LoadError → LoadError
  | parse e => parse (e.relocate g)
  | assemble e => assemble (e.relocate g)
  | schedule e => schedule e

/-- The error without the place where it was met. -/
def LoadError.withoutLocation : LoadError → LoadError
  | parse e => parse ⟨.unknown, e.fault⟩
  | assemble (.brokenModule _) => assemble (.brokenModule none)
  | e => e

@[simp] theorem LoadError.withoutLocation_relocate (e : LoadError) :
    (e.relocate g).withoutLocation = e.withoutLocation := by
  cases e with
  | assemble e => cases e <;> rfl
  | _ => rfl

namespace Module

/-! ## The order of evaluation -/

section Schedule

variable (m : Module) (w : Wire)

@[simp] theorem wireNames_relocate : (m.relocate g).wireNames = m.wireNames := by
  rw [wireNames, relocate, List.map_map]
  rfl

theorem needs_relocate : (m.relocate g).needs (w.relocate g) = m.needs w := rfl

theorem sources_relocate : (m.relocate g).sources (w.relocate g) = m.sources w := by
  rw [sources, sources, needs_relocate]
  refine congrArg (List.filterMap · _) (funext fun name => ?_)
  rw [relocate, List.findIdx?_map]
  rfl

theorem firstMissing_relocate : (m.relocate g).firstMissing = m.firstMissing := by
  have hany : ∀ name : String, ((m.relocate g).wires.any fun v => v.name == name) =
      m.wires.any fun v => v.name == name := by
    intro name
    rw [relocate, List.any_map]
    rfl
  rw [firstMissing, firstMissing]
  simp only [hany]
  rw [relocate, List.findSome?_map]
  rfl

theorem finalQueue_relocate : (m.relocate g).finalQueue = m.finalQueue := by
  have hsources : (m.relocate g).wires.map (m.relocate g).sources = m.wires.map m.sources := by
    rw [relocate, List.map_map]
    exact List.map_congr_left fun w _ => m.sources_relocate w
  have hlength : (m.relocate g).wires.length = m.wires.length := List.length_map _
  rw [finalQueue, finalQueue, hsources, hlength]

/-- Wires are brought into the same order elsewhere. -/
theorem schedule_relocate : (m.relocate g).schedule = m.schedule.map (Module.relocate g) := by
  have hlength : (m.relocate g).wires.length = m.wires.length := List.length_map _
  rw [schedule, schedule, wireNames_relocate, firstMissing_relocate, finalQueue_relocate, hlength]
  cases firstRepeated [] m.wireNames with
  | some name => rfl
  | none =>
    cases m.firstMissing with
    | some pair => rfl
    | none =>
      dsimp only
      split
      · have hzip : (m.relocate g).wires.zip m.finalQueue.waiting =
            (m.wires.zip m.finalQueue.waiting).map fun x => (x.1.relocate g, x.2) := by
          rw [relocate, List.zip_map_left]
          rfl
        rw [hzip, List.filter_map, List.map_map]
        rfl
      · simp [relocate, Except.map, List.map_filterMap]

end Schedule

/-! ## The wanted module -/

theorem choose_map {ms : List Tree} {f : Tree → Tree}
    (hf : ∀ t ∈ ms, (f t).moduleName = t.moduleName) (top : Option String) :
    choose (ms.map f) top = (choose ms top).map f := by
  cases top with
  | none => cases ms <;> rfl
  | some name =>
    have hfind : (ms.map f).find? (fun t => t.moduleName == name) =
        (ms.find? fun t => t.moduleName == name).map f := by
      induction ms with
      | nil => rfl
      | cons t ms ih =>
        rw [List.map_cons, List.find?_cons, List.find?_cons, hf t List.mem_cons_self]
        split
        · rfl
        · exact ih fun t ht => hf t (List.mem_cons_of_mem _ ht)
    simp only [choose, hfind]
    cases ms.find? fun t => t.moduleName == name <;> rfl

/-- The module, if nothing in it is broken. -/
def whole (t : Tree) : Except ModuleError Tree :=
  match t.descendants .error with
  | [] => .ok t
  | e :: _ => .error (.brokenModule e.location?)

theorem eq_of_whole_eq_ok {t t' : Tree} (h : whole t = .ok t') : t = t' := by
  unfold whole at h
  split at h
  · exact Except.ok.inj h
  · cases h

theorem select_eq {root : Tree} (h : root.IsFile) (top : Option String) :
    select root top = choose root.children top >>= whole := by
  have hkind : root.kind = .sourceFile := by
    obtain ⟨_⟩ := h
    rfl
  rw [select, h.descendants_eq_children, hkind]
  rfl

theorem whole_relocate (t : Tree) :
    whole (t.relocate g) =
      ((whole t).map (Tree.relocate g)).mapError (ModuleError.relocate g) := by
  rw [whole, whole, Tree.descendants_relocate]
  cases t.descendants .error with
  | nil => rfl
  | cons e es =>
    refine congrArg Except.error (congrArg ModuleError.brokenModule ?_)
    exact Tree.location?_relocate g e

/-! ## What follows from the chosen tree -/

/-- What is left to do once a tree was chosen, or none could be. -/
def outcomeOf : Except ModuleError Tree → Logged (Except LoadError Module)
  | .ok t => do return (← Draft.assemble t).schedule.mapError .schedule
  | .error e => return .error (.assemble e)

theorem run_load_eq {source : Source} {top : Option String} {root : Tree}
    (h : Grammar.parseFile (codeOf source) = .ok root) :
    (load source top).run = outcomeOf (select root top) := by
  cases hselect : select root top with
  | ok t =>
    rw [run_load h hselect]
    exact Logged.ext rfl (List.append_nil _).symm
  | error e => exact run_load_of_select_error h hselect

/-- The result of loading in the places where it has gone. -/
def relocateResult (g : Relocation) (r : Except LoadError Module) : Except LoadError Module :=
  (r.map (relocate g)).mapError (LoadError.relocate g)

/-- Whatever follows from a tree follows from the same tree elsewhere, elsewhere. -/
theorem mirrors_outcomeOf {x : Except ModuleError Tree}
    (h : ∀ t, x = .ok t → t.IsModule ∧ g.Keeps exact t) :
    Logged.Mirrors g exact (relocateResult g) (outcomeOf x)
      (outcomeOf ((x.map (Tree.relocate g)).mapError (ModuleError.relocate g))) := by
  cases x with
  | error e => exact .pure rfl
  | ok t =>
    obtain ⟨hmodule, hg⟩ := h t rfl
    refine (Draft.mirrors_assemble hmodule hg).bind (.pure ?_)
    rw [schedule_relocate]
    cases (Draft.assemble t).value.schedule <;> rfl

/-- That there is no such module has nothing to do with places. -/
theorem relocate_of_choose_eq_error {ms : List Tree} {top : Option String} {e : ModuleError}
    (h : choose ms top = .error e) : e.relocate g = e := by
  unfold choose at h
  split at h <;> split at h <;> cases h <;> rfl

/-- The same module of a file is wanted elsewhere. -/
theorem select_relocate {root : Tree} (h : root.IsFile) (h' : (root.relocate g).IsFile)
    (hg : ∀ t ∈ root.children, g.Keeps exact t) (top : Option String) :
    select (root.relocate g) top =
      ((select root top).map (Tree.relocate g)).mapError (ModuleError.relocate g) := by
  have hname : ∀ t ∈ root.children, (t.relocate g).moduleName = t.moduleName := fun t ht =>
    (h.isModule t ht).moduleName_relocate (hg t ht)
  rw [select_eq h', select_eq h, Tree.children_relocate, choose_map hname]
  cases hchosen : choose root.children top with
  | error e => exact congrArg Except.error (relocate_of_choose_eq_error hchosen).symm
  | ok t => exact whole_relocate t

/-- A text that is read as the same file elsewhere is loaded alike. -/
theorem mirrors_load {source source' : Source}
    (hparse : Grammar.parseFile (codeOf source') =
      ((Grammar.parseFile (codeOf source)).map (Tree.relocate g)).mapError
        (Grammar.ParseError.relocate g))
    (hg : ∀ root, Grammar.parseFile (codeOf source) = .ok root →
      ∀ t ∈ root.children, g.Keeps exact t) (top : Option String) :
    Logged.Mirrors g exact (relocateResult g) (load source top).run (load source' top).run := by
  cases hroot : Grammar.parseFile (codeOf source) with
  | error e =>
    rw [hroot] at hparse
    rw [run_load_of_parse_error hroot, run_load_of_parse_error hparse]
    exact .pure rfl
  | ok root =>
    rw [hroot] at hparse
    have hfile : root.IsFile := Grammar.isFile_of_parseFile hroot
    have hfile' : (root.relocate g).IsFile := Grammar.isFile_of_parseFile hparse
    rw [run_load_eq hroot, run_load_eq hparse, select_relocate hfile hfile' (hg root hroot)]
    refine mirrors_outcomeOf fun t ht => ?_
    have hmem := mem_of_select_eq_ok ht
    rw [hfile.descendants_eq_children] at hmem
    exact ⟨hfile.isModule t hmem, hg root hroot t hmem⟩

/-! ## Results that are alike -/

/-- The result says the same to a user who does not look at places: the module is the same but for
the places of its wires, or the error is the same but for its place, and as many diagnostics are
recorded, each as serious. -/
structure Alike (x y : Logged (Except LoadError Module)) : Prop where
  value : (x.value.map withoutLocations).mapError LoadError.withoutLocation =
    (y.value.map withoutLocations).mapError LoadError.withoutLocation
  severities : x.log.map Diagnostic.severity = y.log.map Diagnostic.severity

/-- The results are alike, and one by one their diagnostics are about the same matters. -/
structure AlikeInFull (x y : Logged (Except LoadError Module)) : Prop extends Alike x y where
  findings : x.log.map Diagnostic.finding = y.log.map Diagnostic.finding

theorem withoutLocations_relocate (m : Module) :
    (m.relocate g).withoutLocations = m.withoutLocations := by
  simp [withoutLocations, relocate, Wire.relocate]

theorem withoutLocations_relocateResult (r : Except LoadError Module) :
    ((relocateResult g r).map withoutLocations).mapError LoadError.withoutLocation =
      (r.map withoutLocations).mapError LoadError.withoutLocation := by
  cases r with
  | ok m => exact congrArg Except.ok (withoutLocations_relocate m)
  | error e => exact congrArg Except.error (LoadError.withoutLocation_relocate e)

variable {x y : Logged (Except LoadError Module)}

theorem alike_of_mirrors (h : Logged.Mirrors g exact (relocateResult g) x y) : Alike x y where
  value := by rw [h.value, withoutLocations_relocateResult]
  severities := by
    rw [← List.forall₂_eq_eq_eq, List.forall₂_map_left_iff, List.forall₂_map_right_iff]
    exact h.log.imp fun _ _ hd => hd.severity.symm

theorem alikeInFull_of_mirrors (h : Logged.Mirrors g True (relocateResult g) x y) :
    AlikeInFull x y where
  toAlike := alike_of_mirrors h
  findings := by
    rw [← List.forall₂_eq_eq_eq, List.forall₂_map_left_iff, List.forall₂_map_right_iff]
    exact h.log.imp fun _ _ hd => (hd.finding trivial).symm

end Module

end Netlist
