/-
The names of a module and which wire comes after which.

Wires are scheduled and simulated by their names, so what can be said about a module is said
about its names: whether each signal has one of its own, whether each wire comes after
signals that there are, and whether some wire comes after itself.
-/
import Mathlib.Logic.Relation
import Netlist.Module.Schedule
import Netlist.Proofs.Names

set_option autoImplicit false

namespace Netlist.Module

open Relation

/-- The names of the inputs, in their order. -/
def inputNames (m : Module) : List String :=
  m.inputs.map Input.name

theorem isInput_iff {m : Module} {name : String} :
    m.isInput name = true ↔ name ∈ m.inputNames := by
  rw [isInput, input?, List.find?_isSome, inputNames, List.mem_map]
  simp

/-- Every signal of the module has a name of its own. -/
structure WellNamed (m : Module) : Prop where
  inputs_nodup : m.inputNames.Nodup
  wires_nodup : m.wireNames.Nodup
  disjoint : ∀ name ∈ m.wireNames, name ∉ m.inputNames

/-- The same inputs, and the same wires in whatever order. -/
structure SameSignals (n m : Module) : Prop where
  inputs : n.inputs = m.inputs
  perm : n.wires.Perm m.wires

section SameSignals

variable {l m n : Module}

theorem SameSignals.symm (h : n.SameSignals m) : m.SameSignals n :=
  ⟨h.inputs.symm, h.perm.symm⟩

theorem SameSignals.trans (hnm : n.SameSignals m) (hml : m.SameSignals l) : n.SameSignals l :=
  ⟨hnm.inputs.trans hml.inputs, hnm.perm.trans hml.perm⟩

theorem SameSignals.inputNames_eq (h : n.SameSignals m) : n.inputNames = m.inputNames := by
  rw [inputNames, inputNames, h.inputs]

theorem SameSignals.perm_wireNames (h : n.SameSignals m) : n.wireNames.Perm m.wireNames :=
  h.perm.map Wire.name

theorem SameSignals.wellNamed (h : n.SameSignals m) (hm : m.WellNamed) : n.WellNamed := by
  refine ⟨?_, h.perm_wireNames.nodup_iff.2 hm.wires_nodup, fun name hname => ?_⟩
  · rw [h.inputNames_eq]
    exact hm.inputs_nodup
  · rw [h.inputNames_eq]
    exact hm.disjoint name (h.perm_wireNames.mem_iff.1 hname)

end SameSignals

theorem mem_needs {m : Module} {w : Wire} {name : String} :
    name ∈ m.needs w ↔ name ∈ w.deps.keys ∧ name ∉ m.inputNames := by
  rw [needs, List.mem_filter, ← isInput_iff, Bool.not_eq_true', Bool.not_eq_true]

/-! ## Which wire comes after which -/

/-- The wire `u` comes after `v`, which is not an input. -/
def Reads (m : Module) (u v : String) : Prop :=
  ∃ w ∈ m.wires, w.name = u ∧ v ∈ w.deps.keys ∧ v ∉ m.inputNames

/-- The wire comes after a name that is neither an input nor a wire. -/
def Dangling (m : Module) (w : Wire) (name : String) : Prop :=
  name ∈ w.deps.keys ∧ name ∉ m.inputNames ∧ name ∉ m.wireNames

/-- Wires come after inputs and wires only. -/
def Closed (m : Module) : Prop :=
  ∀ w ∈ m.wires, ∀ name, ¬ m.Dangling w name

/-- What a wire of a closed module has to come after, inputs aside, is the name of a wire. -/
theorem Closed.mem_wireNames {m : Module} (h : m.Closed) {w : Wire} (hw : w ∈ m.wires)
    {name : String} (hname : name ∈ m.needs w) : name ∈ m.wireNames := by
  obtain ⟨hdep, hinput⟩ := mem_needs.1 hname
  exact Decidable.byContradiction fun hmissing => h w hw name ⟨hdep, hinput, hmissing⟩

/-- Each wire comes after all signals that its expression reads, inputs aside. -/
def CoversReads (m : Module) : Prop :=
  ∀ w ∈ m.wires, ∀ name ∈ w.definition.signals.keys, name ∉ m.inputNames → name ∈ w.deps.keys

/-- Some wire comes after itself, directly or not. -/
def Cyclic (m : Module) : Prop :=
  ∃ name, TransGen m.Reads name name

/-! ## The order of the wires does not matter -/

section SameSignals

variable {m n : Module}

theorem SameSignals.coversReads (h : n.SameSignals m) (hm : m.CoversReads) : n.CoversReads := by
  intro w hw name hname hinput
  rw [h.inputNames_eq] at hinput
  exact hm w (h.perm.mem_iff.1 hw) name hname hinput

theorem SameSignals.reads_eq (h : n.SameSignals m) : n.Reads = m.Reads := by
  funext u v
  simp only [Reads, h.perm.mem_iff, h.inputNames_eq]

theorem SameSignals.closed_iff (h : n.SameSignals m) : n.Closed ↔ m.Closed := by
  simp only [Closed, Dangling, h.perm.mem_iff, h.inputNames_eq, h.perm_wireNames.mem_iff]

theorem SameSignals.cyclic_iff (h : n.SameSignals m) : n.Cyclic ↔ m.Cyclic := by
  rw [Cyclic, Cyclic, h.reads_eq]

end SameSignals

end Netlist.Module
