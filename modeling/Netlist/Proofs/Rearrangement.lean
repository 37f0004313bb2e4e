/-
Modules that say the same in another order.

Two modules may have the same ports and the same wires, and yet differ in the order of the wires and
in where these are defined (`Module.Rearranges`). Neither matters: where a wire is defined has no
say in which wire comes after which, nor in what a wire is worth, and the order is made anew by
scheduling. So there is a schedule of both or of none, the schedules say the same again, and they
are simulated with the same results (`Module.Rearranges.simulate_iff`).
-/
import Netlist.Proofs.Equations

set_option autoImplicit false

namespace Netlist

/-- The wire without any mention of where it is defined. -/
def Wire.unplaced (w : Wire) : Wire :=
  { w with location := none }

namespace Module

variable {l m n s t : Module} {given env : Env}

/-! ## Without locations -/

theorem wires_withoutLocations (m : Module) :
    m.withoutLocations.wires = m.wires.map Wire.unplaced := rfl

theorem inputNames_withoutLocations (m : Module) :
    m.withoutLocations.inputNames = m.inputNames := rfl

theorem wireNames_withoutLocations (m : Module) : m.withoutLocations.wireNames = m.wireNames := by
  rw [wireNames, wires_withoutLocations, List.map_map]
  rfl

theorem reads_withoutLocations (m : Module) : m.withoutLocations.Reads = m.Reads := by
  funext u v
  simp [Reads, wires_withoutLocations, inputNames_withoutLocations, Wire.unplaced]

theorem closed_withoutLocations : m.withoutLocations.Closed ↔ m.Closed := by
  rw [Closed, Closed, wires_withoutLocations, List.forall_mem_map]
  simp only [Dangling, wireNames_withoutLocations, inputNames_withoutLocations]
  rfl

theorem schedulable_withoutLocations : m.withoutLocations.Schedulable ↔ m.Schedulable := by
  have hcyclic : m.withoutLocations.Cyclic ↔ m.Cyclic := by
    rw [Cyclic, Cyclic, reads_withoutLocations]
  constructor
  · rintro ⟨hnodup, hclosed, hacyclic⟩
    rw [wireNames_withoutLocations] at hnodup
    exact ⟨hnodup, closed_withoutLocations.1 hclosed, hacyclic ∘ hcyclic.2⟩
  · rintro ⟨hnodup, hclosed, hacyclic⟩
    rw [← wireNames_withoutLocations] at hnodup
    exact ⟨hnodup, closed_withoutLocations.2 hclosed, hacyclic ∘ hcyclic.1⟩

theorem solves_withoutLocations : m.withoutLocations.Solves given env ↔ m.Solves given env := by
  have hwires : (∀ w ∈ m.withoutLocations.wires, w.Holds env) ↔ ∀ w ∈ m.wires, w.Holds env :=
    List.forall_mem_map
  constructor
  · rintro ⟨hkeys, hinput, hwire⟩
    rw [wireNames_withoutLocations] at hkeys
    exact ⟨hkeys, hinput, hwires.1 hwire⟩
  · rintro ⟨hkeys, hinput, hwire⟩
    rw [← wireNames_withoutLocations] at hkeys
    exact ⟨hkeys, hinput, hwires.2 hwire⟩

/-! ## Another order -/

/-- The modules differ at most in the order of their wires and in where these are defined. -/
structure Rearranges (n m : Module) : Prop where
  name : n.name = m.name
  inputs : n.inputs = m.inputs
  outputs : n.outputs = m.outputs
  perm : n.withoutLocations.wires.Perm m.withoutLocations.wires

theorem Rearranges.symm (h : n.Rearranges m) : m.Rearranges n :=
  ⟨h.name.symm, h.inputs.symm, h.outputs.symm, h.perm.symm⟩

theorem Rearranges.trans (hnm : n.Rearranges m) (hml : m.Rearranges l) : n.Rearranges l :=
  ⟨hnm.name.trans hml.name, hnm.inputs.trans hml.inputs, hnm.outputs.trans hml.outputs,
    hnm.perm.trans hml.perm⟩

theorem Rearranges.sameSignals (h : n.Rearranges m) :
    n.withoutLocations.SameSignals m.withoutLocations :=
  ⟨h.inputs, h.perm⟩

theorem IsOrderingOf.rearranges (h : s.IsOrderingOf m) : s.Rearranges m :=
  ⟨h.name, h.inputs, h.outputs, h.perm.map _⟩

theorem rearranges_of_withoutLocations_eq (h : n.withoutLocations = m.withoutLocations) :
    n.Rearranges m := by
  have hfields := h
  simp only [withoutLocations, Module.mk.injEq] at hfields
  obtain ⟨hname, hinputs, -, houtputs⟩ := hfields
  exact ⟨hname, hinputs, houtputs, .of_eq (congrArg wires h)⟩

/-- There is a schedule of both or of none. -/
theorem Rearranges.exists_schedule_iff (h : n.Rearranges m) :
    (∃ t, n.schedule = .ok t) ↔ ∃ s, m.schedule = .ok s := by
  rw [Module.exists_schedule_iff, Module.exists_schedule_iff, ← schedulable_withoutLocations,
    h.sameSignals.schedulable_iff, schedulable_withoutLocations]

theorem Rearranges.schedules (h : n.Rearranges m) (ht : n.schedule = .ok t)
    (hs : m.schedule = .ok s) : t.Rearranges s := by
  obtain ⟨-, ht⟩ := of_schedule_eq_ok ht
  obtain ⟨-, hs⟩ := of_schedule_eq_ok hs
  exact ht.rearranges.trans (h.trans hs.rearranges.symm)

theorem Rearranges.solves_iff (h : n.Rearranges m) : n.Solves given env ↔ m.Solves given env := by
  rw [← solves_withoutLocations, ← solves_withoutLocations (m := m)]
  exact ⟨h.sameSignals.symm.solves, h.sameSignals.solves⟩

/-- The schedules are simulated with the same results. -/
theorem Rearranges.simulate_iff (h : n.Rearranges m) (hn : n.WellNamed) (hm : m.WellNamed)
    (hnreads : n.CoversReads) (hmreads : m.CoversReads) (ht : n.schedule = .ok t)
    (hs : m.schedule = .ok s) (given env : Env) :
    (t.simulate given).run.value = .ok env ↔ (s.simulate given).run.value = .ok env := by
  obtain ⟨-, ht⟩ := of_schedule_eq_ok ht
  obtain ⟨-, hs⟩ := of_schedule_eq_ok hs
  rw [simulate_eq_ok_iff hn hnreads ht, simulate_eq_ok_iff hm hmreads hs, h.solves_iff]

end Module

end Netlist
