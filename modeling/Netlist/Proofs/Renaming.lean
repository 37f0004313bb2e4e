/-
Signals under new names.

Names tell signals apart and do nothing else, so a module whose signals all get new names, no two of
them the same one, is the same module in other words. Wires read each other under the new names as
under the old ones. Yet a set of names is kept in the order of the names, and so the sources of a
wire come in another order; the queue does not see in which order they come
(`Queue.SameSources.run_eq`), and the schedule is the old one, renamed
(`Module.KeepsApart.schedule_rename`).
-/
import Netlist.Proofs.Rescheduling

set_option autoImplicit false

namespace Netlist

/-! ## New names -/

mutual

/-- The expression with its signals renamed. -/
def Expr.rename (f : String → String) : Expr → Expr
  | .constant text => .constant text
  | .signal name => .signal (f name)
  | .binary op left right => .binary op (left.rename f) (right.rename f)
  | .unary op operand => .unary op (operand.rename f)
  | .conditional condition yes no =>
    .conditional (condition.rename f) (yes.rename f) (no.rename f)
  | .concat parts => .concat (Expr.renameAll f parts)
  | .replicate body count => .replicate (body.rename f) (count.rename f)
  | .slice body start stop => .slice (body.rename f) start stop
  | .partSelect body base width => .partSelect (body.rename f) (base.rename f) width
  | .select body index => .select (body.rename f) (index.rename f)

/-- The expressions with their signals renamed. -/
def Expr.renameAll (f : String → String) : List Expr → List Expr
  | [] => []
  | e :: es => e.rename f :: Expr.renameAll f es

end

/-- The wire under its new name, with all that it reads renamed. -/
def Wire.rename (f : String → String) (w : Wire) : Wire :=
  { w with
    name := f w.name
    definition := w.definition.rename f
    deps := .ofNames (w.deps.keys.map f) }

/-- The module with all its signals renamed. -/
def Module.rename (f : String → String) (m : Module) : Module :=
  { m with
    inputs := m.inputs.map fun i => { i with name := f i.name }
    wires := m.wires.map (Wire.rename f)
    outputs := m.outputs.map f }

section Signals

variable (f : String → String)

mutual

theorem Expr.subexprs_rename : (e : Expr) → (e.rename f).subexprs = e.subexprs.map (Expr.rename f)
  | .constant _ => by simp [Expr.rename, Expr.subexprs]
  | .signal _ => by simp [Expr.rename, Expr.subexprs]
  | .binary _ l r => by simp [Expr.rename, Expr.subexprs, subexprs_rename l, subexprs_rename r]
  | .unary _ e => by simp [Expr.rename, Expr.subexprs, subexprs_rename e]
  | .conditional c y n => by
    simp [Expr.rename, Expr.subexprs, subexprs_rename c, subexprs_rename y, subexprs_rename n]
  | .concat es => by simp [Expr.rename, Expr.subexprs, subexprsAll_rename es]
  | .replicate b c => by simp [Expr.rename, Expr.subexprs, subexprs_rename b, subexprs_rename c]
  | .slice b _ _ => by simp [Expr.rename, Expr.subexprs, subexprs_rename b]
  | .partSelect b s _ => by simp [Expr.rename, Expr.subexprs, subexprs_rename b, subexprs_rename s]
  | .select b i => by simp [Expr.rename, Expr.subexprs, subexprs_rename b, subexprs_rename i]

theorem Expr.subexprsAll_rename :
    (es : List Expr) →
      Expr.subexprsAll (Expr.renameAll f es) = (Expr.subexprsAll es).map (Expr.rename f)
  | [] => rfl
  | e :: es => by
    simp [Expr.renameAll, Expr.subexprsAll, subexprs_rename e, subexprsAll_rename es]

end

theorem Expr.signalName?_rename (e : Expr) : (e.rename f).signalName? = e.signalName?.map f := by
  cases e <;> simp [Expr.rename, Expr.signalName?]

/-- The signals of a renamed expression are the renamed signals. -/
theorem Expr.signals_rename (e : Expr) :
    (e.rename f).signals = .ofNames (e.signals.keys.map f) := by
  refine NameSet.ext_keys fun name => ?_
  rw [signals, NameSet.mem_keys_ofNames, NameSet.mem_keys_ofNames, subexprs_rename,
    List.filterMap_map, List.mem_map]
  simp only [signals, NameSet.mem_keys_ofNames, List.mem_filterMap, Function.comp_apply,
    signalName?_rename, Option.map_eq_some_iff]
  constructor
  · rintro ⟨part, hpart, old, hold, rfl⟩
    exact ⟨old, ⟨part, hpart, hold⟩, rfl⟩
  · rintro ⟨old, ⟨part, hpart, hold⟩, rfl⟩
    exact ⟨part, hpart, old, hold, rfl⟩

/-- A wire that comes after all signals of its expression does so under the new names. -/
theorem Wire.rename_ofExpr (name : String) (width : Nat) (e : Expr) :
    (Wire.ofExpr name width e).rename f = Wire.ofExpr (f name) width (e.rename f) := by
  rw [Wire.ofExpr, Wire.ofExpr, Wire.rename, e.signals_rename f]

end Signals

/-! ## Queues that do not see the names -/

namespace Queue

variable {sources sources' : List (List Nat)}

theorem places_map {α β : Type} (test : β → Bool) (g : α → β) (xs : List α) :
    places test (xs.map g) = places (test ∘ g) xs := by
  rw [places, places, List.zipIdx_map, List.filter_map, List.map_map]
  rfl

/-- The wires have the same sources, in whatever order. -/
abbrev SameSources (sources sources' : List (List Nat)) : Prop :=
  List.Forall₂ List.Perm sources sources'

/-- What does not depend on the order of the sources is the same for all wires. -/
theorem SameSources.map_eq {β : Type} {g : List Nat → β} (h : SameSources sources sources')
    (hg : ∀ as bs : List Nat, as.Perm bs → g as = g bs) : sources.map g = sources'.map g := by
  induction h with
  | nil => rfl
  | cons hperm _ ih => rw [List.map_cons, List.map_cons, hg _ _ hperm, ih]

theorem SameSources.places_eq {test : List Nat → Bool} (h : SameSources sources sources')
    (htest : ∀ as bs : List Nat, as.Perm bs → test as = test bs) :
    places test sources = places test sources' := by
  have hmap := congrArg (places id) (h.map_eq htest)
  rwa [places_map, places_map] at hmap

theorem SameSources.start_eq (h : SameSources sources sources') : start sources = start sources' := by
  have hready : places List.isEmpty sources = places List.isEmpty sources' :=
    h.places_eq fun as bs hperm => by
      rw [Bool.eq_iff_iff, List.isEmpty_iff, List.isEmpty_iff, ← List.length_eq_zero_iff,
        ← List.length_eq_zero_iff, hperm.length_eq]
  rw [start, start, hready, h.map_eq fun _ _ => List.Perm.length_eq]

theorem SameSources.step_eq (h : SameSources sources sources') (q : Queue) :
    step sources q = step sources' q := by
  have hreaders : readers sources = readers sources' := by
    funext i
    exact h.places_eq fun as bs hperm => by
      rw [Bool.eq_iff_iff, List.contains_iff_mem, List.contains_iff_mem, hperm.mem_iff]
  rw [step, step, hreaders]

theorem SameSources.run_eq (h : SameSources sources sources') (n : Nat) (q : Queue) :
    run sources n q = run sources' n q := by
  induction n generalizing q with
  | zero => rfl
  | succ n ih => rw [run, run, h.step_eq, ih]

end Queue

/-! ## Modules under new names -/

namespace Module

variable {m s : Module} {f : String → String}

/-- No two signals of the module get one name. -/
def KeepsApart (m : Module) (f : String → String) : Prop :=
  Set.InjOn f {name | name ∈ m.inputNames ∨ name ∈ m.wireNames}

@[simp] theorem inputNames_rename : (m.rename f).inputNames = m.inputNames.map f := by
  simp [inputNames, rename, Function.comp_def]

@[simp] theorem wireNames_rename : (m.rename f).wireNames = m.wireNames.map f := by
  simp [wireNames, rename, Function.comp_def, Wire.rename]

theorem nameAt_rename (i : Nat) : (m.rename f).nameAt i = (m.nameAt i).map f := by
  simp [nameAt, rename, Function.comp_def, Wire.rename]

section KeepsApart

variable (hf : m.KeepsApart f)
include hf

theorem KeepsApart.mem_inputNames_iff {name : String}
    (hname : name ∈ m.inputNames ∨ name ∈ m.wireNames) :
    f name ∈ (m.rename f).inputNames ↔ name ∈ m.inputNames := by
  rw [inputNames_rename, List.mem_map]
  constructor
  · rintro ⟨other, hother, heq⟩
    exact hf (.inl hother) hname heq ▸ hother
  · exact fun h => ⟨name, h, rfl⟩

/-- A name of a closed module that a wire comes after is an input or a wire. -/
theorem KeepsApart.mem_needs_rename (hclosed : m.Closed) {w : Wire} (hw : w ∈ m.wires)
    {name : String} : name ∈ (m.rename f).needs (w.rename f) ↔ ∃ old ∈ m.needs w, f old = name := by
  have hknown : ∀ old ∈ w.deps.keys, old ∈ m.inputNames ∨ old ∈ m.wireNames := by
    intro old hold
    by_contra hcontra
    rw [not_or] at hcontra
    exact hclosed w hw old ⟨hold, hcontra.1, hcontra.2⟩
  have hkeys : name ∈ (w.rename f).deps.keys ↔ ∃ old ∈ w.deps.keys, f old = name := by
    rw [Wire.rename, NameSet.mem_keys_ofNames, List.mem_map]
  rw [mem_needs, hkeys]
  constructor
  · rintro ⟨⟨old, hold, rfl⟩, hinput⟩
    rw [hf.mem_inputNames_iff (hknown old hold)] at hinput
    exact ⟨old, mem_needs.2 ⟨hold, hinput⟩, rfl⟩
  · rintro ⟨old, hneed, rfl⟩
    obtain ⟨hold, hinput⟩ := mem_needs.1 hneed
    exact ⟨⟨old, hold, rfl⟩, fun h => hinput ((hf.mem_inputNames_iff (hknown old hold)).1 h)⟩

theorem KeepsApart.nodup_wireNames (hnodup : m.wireNames.Nodup) :
    (m.rename f).wireNames.Nodup := by
  rw [wireNames_rename]
  exact hnodup.map_on fun a ha b hb heq => hf (.inr ha) (.inr hb) heq

theorem KeepsApart.closed (hclosed : m.Closed) : (m.rename f).Closed := by
  rintro w' hw' name ⟨hdep, hinput, hmissing⟩
  obtain ⟨w, hw, rfl⟩ := List.mem_map.1 hw'
  obtain ⟨old, hneed, rfl⟩ := (hf.mem_needs_rename hclosed hw).1 (mem_needs.2 ⟨hdep, hinput⟩)
  obtain ⟨hold, hnew⟩ := mem_needs.1 hneed
  refine hclosed w hw old ⟨hold, hnew, fun hname => hmissing ?_⟩
  rw [wireNames_rename]
  exact List.mem_map_of_mem hname

/-- The sources of a wire are places, and places do not change. -/
theorem KeepsApart.perm_sources (hnodup : m.wireNames.Nodup) (hclosed : m.Closed) {w : Wire}
    (hw : w ∈ m.wires) : (m.sources w).Perm ((m.rename f).sources (w.rename f)) := by
  refine (List.perm_ext_iff_of_nodup (m.sources_nodup w) (sources_nodup _ _)).2 fun j => ?_
  rw [mem_sources_iff hnodup, mem_sources_iff (hf.nodup_wireNames hnodup)]
  constructor
  · rintro ⟨name, hneed, hname⟩
    refine ⟨f name, (hf.mem_needs_rename hclosed hw).2 ⟨name, hneed, rfl⟩, ?_⟩
    rw [nameAt_rename, hname, Option.map_some]
  · rintro ⟨name, hneed, hname⟩
    obtain ⟨old, hold, rfl⟩ := (hf.mem_needs_rename hclosed hw).1 hneed
    rw [nameAt_rename, Option.map_eq_some_iff] at hname
    obtain ⟨other, hother, heq⟩ := hname
    -- the wire at the place is known by its old name alone
    have hwire : old ∈ m.wireNames := hclosed.mem_wireNames hw hold
    exact ⟨old, hold, hf (.inr (mem_wireNames_iff.2 ⟨j, hother⟩)) (.inr hwire) heq ▸ hother⟩

theorem KeepsApart.finalQueue_eq (hnodup : m.wireNames.Nodup) (hclosed : m.Closed) :
    (m.rename f).finalQueue = m.finalQueue := by
  have hlength : (m.rename f).wires.length = m.wires.length := List.length_map _
  have hsame : Queue.SameSources m.graph (m.rename f).graph := by
    have hgraph : (m.rename f).graph = m.wires.map fun w => (m.rename f).sources (w.rename f) := by
      rw [graph, rename, List.map_map]
      rfl
    rw [hgraph, graph, Queue.SameSources, List.forall₂_map_left_iff, List.forall₂_map_right_iff, List.forall₂_same]
    exact fun w hw => hf.perm_sources hnodup hclosed hw
  show Queue.run (m.rename f).graph (m.rename f).wires.length (Queue.start (m.rename f).graph) =
    Queue.run m.graph m.wires.length (Queue.start m.graph)
  rw [hlength, hsame.start_eq, hsame.run_eq]

/-- Scheduling does not see the names: the schedule of the renamed module is the renamed
schedule. -/
theorem KeepsApart.schedule_rename (h : m.schedule = .ok s) :
    (m.rename f).schedule = .ok (s.rename f) := by
  obtain ⟨hm, rfl⟩ := schedule_eq_ok_iff.1 h
  have hnodup := hf.nodup_wireNames hm.nodup
  have hclosed := hf.closed hm.closed
  have hqueue := hf.finalQueue_eq hm.nodup hm.closed
  have hacyclic : ¬ (m.rename f).Cyclic := by
    rw [← length_done_lt_iff_cyclic hnodup hclosed, hqueue, rename, List.length_map,
      length_done_lt_iff_cyclic hm.nodup hm.closed]
    exact hm.acyclic
  refine schedule_eq_ok_iff.2 ⟨⟨hnodup, hclosed, hacyclic⟩, ?_⟩
  rw [hqueue]
  simp only [rename, List.map_filterMap, List.getElem?_map]

end KeepsApart

end Module

end Netlist
