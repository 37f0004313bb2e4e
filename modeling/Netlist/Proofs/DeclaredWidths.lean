/-
The widths that a signal is declared with.

A signal may be declared more than once, as a port and as a net, and the declarations may ask for
different widths. A draft gives each name one width (`Draft.width?`). As long as no warning is
recorded, no name ever loses the width that it has, and every port and every net gets the width
that its declaration asks for (`Draft.GivesWidths`); so all declarations of a signal agree, if none of
the passes has anything to say (`widths_agree_of_ofTree`). There is one exception. A net declaration
of an input is passed over before its width is looked at, so nothing is recorded if it asks for
another width (`not_widths_agree_redeclared`).
-/
import Netlist.Proofs.MovedDefinitions

set_option autoImplicit false

namespace Netlist

namespace Draft

variable {d d' base : Draft} {r : Logged Draft} {name : String} {width : Nat}

/-! ## The width of a name -/

/-- The width that the name has been declared with: that of the input, or that of the net. -/
def width? (d : Draft) (name : String) : Option Nat :=
  ((d.inputs.find? fun i => i.name == name).map Input.width).or ((d.nets.get? name).map Net.width)

theorem find?_inputs_eq_none (h : d.isInput name = false) :
    (d.inputs.find? fun i => i.name == name) = none := by
  rw [isInput, List.any_eq_false] at h
  exact List.find?_eq_none.2 h

theorem width?_of_not_isInput (h : d.isInput name = false) :
    d.width? name = (d.nets.get? name).map Net.width := by
  rw [width?, find?_inputs_eq_none h]
  rfl

/-- A name that has no width yet is neither an input nor a net. -/
theorem width?_eq_none (hinput : d.isInput name = false) (hnet : name ∉ d.nets.keys) :
    d.width? name = none := by
  rw [width?_of_not_isInput hinput, NameMap.get?_eq_none_iff.2 hnet]
  rfl

/-- The first draft and the second one may differ, but no name of the first one has another width
in the second one. -/
def KeepsWidths (d d' : Draft) : Prop :=
  ∀ name width, d.width? name = some width → d'.width? name = some width

theorem keepsWidths_of_sameSignals (h : d'.SameSignals d) : d.KeepsWidths d' := by
  intro name width hwidth
  rwa [width?, h.1, h.2]

/-- A new input has its width, and no other name has another one. -/
theorem width?_addInput (hinput : d.isInput name = false) (hnet : name ∉ d.nets.keys)
    (width : Nat) : d.KeepsWidths { d with inputs := d.inputs ++ [⟨name, width⟩] } ∧
      width? { d with inputs := d.inputs ++ [⟨name, width⟩] } name = some width := by
  refine ⟨fun other w hw => ?_, ?_⟩
  · have hne : name ≠ other := by
      rintro rfl
      rw [width?_eq_none hinput hnet] at hw
      cases hw
    rw [width?] at hw ⊢
    simpa [List.find?_append, hne] using hw
  · simp [width?, List.find?_append, find?_inputs_eq_none hinput]

/-- A net that is declared has its width. No other name has another one, nor has this one if it had
no width or the same. -/
theorem width?_insertNet (hinput : d.isInput name = false) (isPort : Bool)
    (location : Option Location) (hsame : ∀ w, d.width? name = some w → w = width) :
    d.KeepsWidths { d with nets := d.nets.insert name ⟨width, isPort, location⟩ } ∧
      width? { d with nets := d.nets.insert name ⟨width, isPort, location⟩ } name = some width := by
  have hself : width? { d with nets := d.nets.insert name ⟨width, isPort, location⟩ } name =
      some width := by
    have hinput' : isInput { d with nets := d.nets.insert name ⟨width, isPort, location⟩ } name =
        false := hinput
    rw [width?_of_not_isInput hinput', NameMap.get?_insert_self]
    rfl
  refine ⟨fun other w hw => ?_, hself⟩
  by_cases hother : other = name
  · subst hother
    rw [hself, hsame w hw]
  · rw [width?] at hw ⊢
    rwa [NameMap.get?_insert, if_neg hother]

/-! ## What silent work declares -/

/-- If the work on a draft records no warning, no name has another width than before, and the names
have the widths that they are listed with. -/
def GivesWidths (declared : List (String × Nat)) (d : Draft) (r : Logged Draft) : Prop :=
  r.log.warnings = [] →
    d.KeepsWidths r.value ∧ ∀ p ∈ declared, r.value.width? p.1 = some p.2

theorem givesWidths_nil (h : d.KeepsWidths r.value) : GivesWidths [] d r :=
  fun _ => ⟨h, nofun⟩

/-- Work that records a warning need not declare anything. -/
theorem givesWidths_of_warns {declared : List (String × Nat)} (h : r.log.warnings ≠ []) :
    GivesWidths declared d r :=
  fun hsilent => absurd hsilent h

theorem GivesWidths.append {declared more : List (String × Nat)} {f : Draft → Logged Draft}
    (hr : GivesWidths declared d r) (hf : GivesWidths more r.value (f r.value)) :
    GivesWidths (declared ++ more) d (r >>= f) := by
  intro hsilent
  rw [Logged.log_bind, Log.warnings_append, List.append_eq_nil_iff] at hsilent
  obtain ⟨hkeeps, hdeclared⟩ := hr hsilent.1
  obtain ⟨hkeeps', hmore⟩ := hf hsilent.2
  refine ⟨fun name width h => hkeeps' name width (hkeeps name width h),
    List.forall_mem_append.2 ⟨fun p hp => hkeeps' _ _ (hdeclared p hp), hmore⟩⟩

/-- What was recorded before can only be one more reason not to declare anything. -/
theorem GivesWidths.after {α : Type} {x : Logged α} {declared : List (String × Nat)}
    {f : α → Logged Draft} (h : GivesWidths declared d (f x.value)) :
    GivesWidths declared d (x >>= f) := by
  intro hsilent
  rw [Logged.log_bind, Log.warnings_append, List.append_eq_nil_iff] at hsilent
  exact h hsilent.2

/-- A row of work declares what its members declare. What the members rely on has to hold before and
to stay. -/
theorem givesWidths_foldlM {α : Type} {I : Draft → Prop} {step : Draft → α → Logged Draft}
    {declared : α → List (String × Nat)} {xs : List α}
    (hkeep : ∀ d x, I d → I (step d x).value)
    (hstep : ∀ d, ∀ x ∈ xs, I d → GivesWidths (declared x) d (step d x)) (h : I d) :
    GivesWidths (xs.flatMap declared) d (xs.foldlM step d) := by
  induction xs generalizing d with
  | nil => exact givesWidths_nil fun _ _ hw => hw
  | cons x xs ih =>
    rw [List.foldlM_cons, List.flatMap_cons]
    have hrest := ih (fun d y hy => hstep d y (List.mem_cons_of_mem _ hy)) (hkeep d x h)
    exact (hstep d x List.mem_cons_self h).append hrest

/-! ## Ports -/

theorem givesWidths_addPort (isInput : Bool) (width : Nat) (d : Draft) (nameNode : Tree) :
    GivesWidths [(nameNode.word, width)] d (addPort isInput width d nameNode) := by
  unfold addPort
  dsimp only
  split
  · exact givesWidths_of_warns (List.cons_ne_nil _ _)
  · next hnew =>
    rw [Bool.or_eq_true, not_or, Bool.not_eq_true, contains_iff] at hnew
    obtain ⟨hinput, hnet⟩ := hnew
    split
    · obtain ⟨hkeeps, hself⟩ := width?_addInput hinput hnet width
      exact fun _ => ⟨hkeeps, List.forall_mem_singleton.2 hself⟩
    · have hnone : ∀ w, d.width? nameNode.word = some w → w = width := by
        rw [width?_eq_none hinput hnet]
        exact nofun
      obtain ⟨hkeeps, hself⟩ := width?_insertNet hinput true nameNode.location? hnone
      exact fun _ => ⟨hkeeps, List.forall_mem_singleton.2 hself⟩

end Draft

/-- The names in a declaration of ports, with the width that it asks for. -/
def Tree.portWidths (declaration : Tree) : List (String × Nat) :=
  (declaration.childrenOf .simpleIdentifier).flatMap fun c =>
    [(c.word, declaration.declaredWidth.value)]

namespace Draft

variable {d base : Draft}

theorem givesWidths_readPorts (d : Draft) (module : Tree) :
    GivesWidths ((module.descendants .portDeclaration).flatMap Tree.portWidths) d
      (d.readPorts module) := by
  have hports : GivesWidths ((module.descendants .portDeclaration).flatMap Tree.portWidths) d
      ((module.descendants .portDeclaration).foldlM addPorts d) :=
    givesWidths_foldlM (I := fun _ => True) (fun _ _ _ => trivial) (fun d declaration _ _ =>
      .after (givesWidths_foldlM (I := fun _ => True) (fun _ _ _ => trivial)
        (fun d nameNode _ _ => givesWidths_addPort _ _ d nameNode) trivial)) trivial
  have hlisted := hports.append (f := fun d' => do
    (module.childrenOf .listOfPorts).forM fun list =>
      (list.childrenOf .simpleIdentifier).forM (checkListed d')
    return d') (.after (givesWidths_nil fun _ _ hw => hw))
  rwa [List.append_nil] at hlisted

/-! ## Nets -/

theorem givesWidths_define (d : Draft) (name : String) (e : Tree) (location : Option Location) :
    GivesWidths [] d (d.define name e location) :=
  givesWidths_nil (keepsWidths_of_sameSignals ⟨inputs_define .., nets_define ..⟩)

theorem givesWidths_declareNet {name : String} (hinput : d.isInput name = false) (width : Nat)
    (location : Option Location) :
    GivesWidths [(name, width)] d (d.declareNet name width location) := by
  have hwidth := d.width?_of_not_isInput hinput
  unfold declareNet
  split
  · next hnone =>
    have hnew : ∀ w, d.width? name = some w → w = width := by
      rw [hwidth, hnone]
      exact nofun
    obtain ⟨hkeeps, hself⟩ := width?_insertNet hinput false location hnew
    exact fun _ => ⟨hkeeps, List.forall_mem_singleton.2 hself⟩
  · next net hnet =>
    split
    · split
      · exact givesWidths_of_warns (List.cons_ne_nil _ _)
      · next hsame =>
        -- an output is declared once more, with the width that it has
        have hold : ∀ w, d.width? name = some w → w = width := by
          rw [hwidth, hnet]
          rintro w ⟨⟩
          exact not_not.1 hsame
        obtain ⟨hkeeps, hself⟩ := width?_insertNet hinput false location hold
        exact fun _ => ⟨hkeeps, List.forall_mem_singleton.2 hself⟩
    · exact givesWidths_of_warns (List.cons_ne_nil _ _)

end Draft

/-- The names of nets that a child of a net declaration declares, with the width. Inputs of the draft
are passed over. -/
def Tree.netWidths (d : Draft) (width : Nat) (item : Tree) : List (String × Nat) :=
  (item.declaredName?.toList.filter fun c => !d.isInput c.word).map fun c => (c.word, width)

namespace Draft

variable {d base : Draft}

theorem givesWidths_addNet (hinputs : d.inputs = base.inputs) (width : Nat) {item nameNode : Tree}
    (hname : item.declaredName? = some nameNode) (place : Tree) (definition : Option Tree) :
    GivesWidths (item.netWidths base width) d (d.addNet width place nameNode definition) := by
  unfold addNet
  dsimp only
  rw [Tree.netWidths, hname, isInput_congr hinputs]
  split
  · next hinput =>
    rw [Option.toList_some, List.filter_cons_of_neg (by simp [hinput])]
    split
    · exact givesWidths_of_warns (List.cons_ne_nil _ _)
    · exact givesWidths_nil fun _ _ hw => hw
  · next hinput =>
    have hnet : d.isInput nameNode.word = false := by
      rw [isInput_congr hinputs]
      exact Bool.not_eq_true _ ▸ hinput
    rw [Option.toList_some, List.filter_cons_of_pos (by simp [hinput])]
    have hdeclared := givesWidths_declareNet hnet width nameNode.location?
    refine hdeclared.append ?_
    cases definition with
    | none => exact givesWidths_nil fun _ _ hw => hw
    | some e => exact givesWidths_define _ _ e _

theorem givesWidths_addNetItem (hinputs : d.inputs = base.inputs) (width : Nat) (item : Tree) :
    GivesWidths (item.netWidths base width) d (addNetItem width d item) := by
  unfold addNetItem
  split
  · next hkind =>
    refine givesWidths_addNet hinputs width ?_ _ none
    rw [Tree.declaredName?, hkind]
  · next hkind hchildren =>
    refine givesWidths_addNet hinputs width ?_ _ _
    rw [Tree.declaredName?, hkind, hchildren]
  · exact givesWidths_of_warns (List.cons_ne_nil _ _)
  · next hname hkind _ =>
    rw [Tree.netWidths, Tree.declaredName?_eq_none hname fun _ _ h _ => hkind h]
    exact givesWidths_nil fun _ _ hw => hw

theorem givesWidths_readNets (hinputs : d.inputs = base.inputs) (module : Tree) :
    GivesWidths ((module.descendants .netDeclaration).flatMap fun declaration =>
      declaration.children.flatMap (Tree.netWidths base declaration.declaredWidth.value)) d
      (d.readNets module) :=
  givesWidths_foldlM (I := fun d => d.inputs = base.inputs)
    (fun d declaration h => (inputs_addNets d declaration).trans h) (fun _ _ _ h =>
      .after (givesWidths_foldlM (fun d item h => (inputs_addNetItem _ d item).trans h)
        (fun _ item _ h => givesWidths_addNetItem h _ item) h)) hinputs

/-! ## The finished module -/

/-- All that a module without a warning declares, ports first, is declared with one width a name. -/
theorem givesWidths_ofModule (t : Tree) :
    GivesWidths (((t.descendants .portDeclaration).flatMap Tree.portWidths) ++
      (t.descendants .netDeclaration).flatMap fun declaration =>
        declaration.children.flatMap
          (Tree.netWidths (ofModule t).value declaration.declaredWidth.value))
      start (ofModule t) := by
  have hassigns : ∀ d : Draft, (d.readAssignments t).value.SameSignals d :=
    fun d => SameSignals.readAssignments ⟨rfl, rfl⟩ t
  have hinputs : (start.readPorts t).value.inputs = (ofModule t).value.inputs := by
    rw [ofModule, Logged.value_bind, Logged.value_bind, (hassigns _).1, inputs_readNets]
  have hnets := (givesWidths_readNets hinputs t).append (f := fun d => d.readAssignments t)
    (givesWidths_nil (keepsWidths_of_sameSignals (hassigns _)))
  rw [List.append_nil] at hnets
  exact (givesWidths_readPorts start t).append hnets

end Draft

namespace Draft.WellFormed

variable {d : Draft}

theorem width?_of_mem_inputs {i : Input} (h : d.WellFormed) (hi : i ∈ d.inputs) :
    d.width? i.name = some i.width := by
  cases hfound : d.inputs.find? fun j => j.name == i.name with
  | none => exact absurd (beq_self_eq_true i.name) (List.find?_eq_none.1 hfound i hi)
  | some j =>
    have hbeq := List.find?_some hfound
    have hname : j.name = i.name := beq_iff_eq.1 hbeq
    rw [width?, hfound,
      List.inj_on_of_nodup_map h.inputs_nodup (List.mem_of_find?_eq_some hfound) hi hname]
    rfl

theorem width?_of_fits {w : Wire} (h : d.WellFormed) (hw : w.Fits d.nets) :
    d.width? w.name = some w.width := by
  obtain ⟨net, hnet, hwidth⟩ := hw
  rw [width?_of_not_isInput (h.not_isInput _ (NameMap.mem_keys_of_get? hnet)), hnet, hwidth]
  rfl

end Draft.WellFormed

namespace Module

variable {root : Tree} {top : Option String} {m : Module}

/-- If no warning is recorded of a module, then there is one width for each name: that of the input or
of the wire, which all declarations of ports ask for, and all net declarations as well, except for
those of inputs. -/
theorem widths_agree_of_ofTree (h : (ofTree root top).run.value = .ok m)
    (hsilent : (ofTree root top).run.log.warnings = []) :
    ∃ t, select root top = .ok t ∧ ∃ width : String → Nat,
      (∀ i ∈ m.inputs, i.width = width i.name) ∧ (∀ w ∈ m.wires, w.width = width w.name) ∧
      (∀ declaration ∈ t.descendants .portDeclaration,
        ∀ nameNode ∈ declaration.childrenOf .simpleIdentifier,
          declaration.declaredWidth.value = width nameNode.word) ∧
      ∀ declaration ∈ t.descendants .netDeclaration, ∀ item ∈ declaration.children,
        ∀ nameNode, item.declaredName? = some nameNode → m.isInput nameNode.word = false →
          declaration.declaredWidth.value = width nameNode.word := by
  obtain ⟨t, ht, rfl⟩ := of_ofTree_eq_ok h
  rw [log_ofTree ht, Draft.assemble_eq, Logged.log_bind, Log.warnings_append,
    List.append_eq_nil_iff] at hsilent
  obtain ⟨-, hgives⟩ := Draft.givesWidths_ofModule t hsilent.1
  have hwell := Draft.wellFormed_ofModule t
  have hwidth : ∀ {name w}, (Draft.ofModule t).value.width? name = some w →
      w = ((Draft.ofModule t).value.width? name).getD 0 := by
    intro name w hw
    rw [hw, Option.getD_some]
  have hinputs : (Draft.assemble t).value.inputs = (Draft.ofModule t).value.inputs := by
    rw [Draft.assemble_eq, Logged.value_bind, Draft.value_finish]
  refine ⟨t, ht, fun name => ((Draft.ofModule t).value.width? name).getD 0, ?_, ?_, ?_, ?_⟩
  · intro i hi
    rw [hinputs] at hi
    exact hwidth (hwell.width?_of_mem_inputs hi)
  · intro w hw
    rw [Draft.assemble_eq, Logged.value_bind] at hw
    exact hwidth (hwell.width?_of_fits (hwell.fits_finish _ w hw))
  · intro declaration hdecl nameNode hname
    refine hwidth (hgives (nameNode.word, _) (List.mem_append_left _ ?_))
    exact List.mem_flatMap.2 ⟨declaration, hdecl,
      List.mem_flatMap.2 ⟨nameNode, hname, List.mem_cons_self⟩⟩
  · intro declaration hdecl item hitem nameNode hname hinput
    refine hwidth (hgives (nameNode.word, _) (List.mem_append_right _ ?_))
    refine List.mem_flatMap.2 ⟨declaration, hdecl, List.mem_flatMap.2 ⟨item, hitem, ?_⟩⟩
    have hdraft : (Draft.ofModule t).value.isInput nameNode.word = false := by
      rw [← Bool.not_eq_true, isInput_iff, inputNames, hinputs] at hinput
      rwa [← Bool.not_eq_true, Draft.isInput_iff]
    rw [Tree.netWidths, hname]
    simp [hdraft]

/-- A module whose input of four bits is declared once more as a net of eight bits, and whose output
of four bits is declared once more as a net of four bits, with a definition. -/
def redeclared : Tree :=
  .branch .sourceFile [.branch .moduleDeclaration [.leaf .simpleIdentifier "m",
    .branch .portDeclaration [.leaf .portDirection "input",
      .branch .packedDimension [.leaf .number "3", .leaf .number "0"],
      .leaf .simpleIdentifier "a"],
    .branch .portDeclaration [.leaf .portDirection "output",
      .branch .packedDimension [.leaf .number "3", .leaf .number "0"],
      .leaf .simpleIdentifier "y"],
    .branch .netDeclaration [.branch .packedDimension [.leaf .number "7", .leaf .number "0"],
      .leaf .simpleIdentifier "a"],
    .branch .netDeclaration [.branch .packedDimension [.leaf .number "3", .leaf .number "0"],
      .branch .netDeclAssignment [.leaf .simpleIdentifier "y", .leaf .simpleIdentifier "a"]]]]

/-- The module of `redeclared`. -/
def redeclaredModule : Module where
  name := "m"
  inputs := [⟨"a", 4⟩]
  wires := [⟨"y", 4, .signal "a", NameSet.ofNames [], none⟩]
  outputs := ["y"]

theorem ofTree_redeclared : (ofTree redeclared none).run.value = .ok redeclaredModule ∧
    (ofTree redeclared none).run.log.warnings = [] :=
  ⟨of_toOption_eq_some (by decide +kernel), List.isEmpty_iff.1 (by decide +kernel)⟩

/-- The two declarations of the output ask for the same width. -/
theorem widths_agree_redeclared :
    (ofTree redeclared none).run.value = .ok redeclaredModule ∧
    (ofTree redeclared none).run.log.warnings = [] ∧
    ∃ t, select redeclared none = .ok t ∧ ∃ width : String → Nat,
      (∀ i ∈ redeclaredModule.inputs, i.width = width i.name) ∧
      (∀ w ∈ redeclaredModule.wires, w.width = width w.name) ∧
      (∀ declaration ∈ t.descendants .portDeclaration,
        ∀ nameNode ∈ declaration.childrenOf .simpleIdentifier,
          declaration.declaredWidth.value = width nameNode.word) ∧
      ∀ declaration ∈ t.descendants .netDeclaration, ∀ item ∈ declaration.children,
        ∀ nameNode, item.declaredName? = some nameNode →
          redeclaredModule.isInput nameNode.word = false →
          declaration.declaredWidth.value = width nameNode.word := by
  obtain ⟨hmodule, hsilent⟩ := ofTree_redeclared
  exact ⟨hmodule, hsilent, widths_agree_of_ofTree hmodule hsilent⟩

/-- The net declaration of the input asks for another width, and nothing is recorded. -/
theorem not_widths_agree_redeclared :
    (ofTree redeclared none).run.value = .ok redeclaredModule ∧
    (ofTree redeclared none).run.log.warnings = [] ∧
    ∃ t, select redeclared none = .ok t ∧ ¬∃ width : String → Nat,
      (∀ i ∈ redeclaredModule.inputs, i.width = width i.name) ∧
      ∀ declaration ∈ t.descendants .netDeclaration, ∀ item ∈ declaration.children,
        ∀ nameNode, item.declaredName? = some nameNode →
          declaration.declaredWidth.value = width nameNode.word := by
  obtain ⟨hmodule, hsilent⟩ := ofTree_redeclared
  have hfacts : (select redeclared none).toOption.map (fun t =>
      (t.descendants .netDeclaration).map fun declaration =>
        (declaration.declaredWidth.value,
          (declaration.children.filterMap Tree.declaredName?).map Tree.word)) =
      some [(8, ["a"]), (4, ["y"])] := by
    decide +kernel
  obtain ⟨t, ht, hfacts⟩ := Option.map_eq_some_iff.1 hfacts
  obtain ⟨declaration, rest, hdeclarations, hfacts, -⟩ := List.map_eq_cons_iff.1 hfacts
  obtain ⟨hwidth, hnames⟩ := Prod.mk.inj hfacts
  obtain ⟨nameNode, hnodes, hword⟩ := List.map_eq_singleton_iff.1 hnames
  refine ⟨hmodule, hsilent, t, of_toOption_eq_some ht, ?_⟩
  rintro ⟨width, hinputs, hnets⟩
  have hmem : nameNode ∈ declaration.children.filterMap Tree.declaredName? := by
    rw [hnodes]
    exact List.mem_cons_self
  obtain ⟨item, hitem, hname⟩ := List.mem_filterMap.1 hmem
  have hdecl : declaration ∈ t.descendants .netDeclaration := by
    rw [hdeclarations]
    exact List.mem_cons_self
  have height := hnets declaration hdecl item hitem nameNode hname
  have hfour := hinputs ⟨"a", 4⟩ List.mem_cons_self
  rw [hwidth, hword, ← hfour] at height
  exact absurd height (by decide)

end Module

end Netlist
