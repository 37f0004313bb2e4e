/-
What holds of every module of a tree.

A tree can be put together by hand, with ports that are declared again, nets of all widths and
definitions of anything at all. Whatever is left out on the way, the module that comes out is well
formed (`Module.WellFormed`): signals have different names, no width is zero, and each wire comes
after just the signals that it reads. Two complaints can therefore never be heard: that a wire has
the name of an input, from finishing a draft, and that two wires have one name, from scheduling.
-/
import Netlist.Proofs.KeptWires
import Netlist.Proofs.Loading

set_option autoImplicit false

namespace Netlist

/-! ## Well-formed modules -/

/-- Every signal has a name of its own and at least one bit, and every wire comes after just the
signals that its expression reads, inputs aside. -/
structure Module.WellFormed (m : Module) : Prop extends m.WellNamed where
  outputs_nodup : m.outputs.Nodup
  outputs_disjoint : ∀ name ∈ m.outputs, name ∉ m.inputNames
  inputs_pos : ∀ i ∈ m.inputs, 0 < i.width
  wires_pos : ∀ w ∈ m.wires, 0 < w.width
  deps_eq : ∀ w ∈ m.wires, w.deps = w.definition.signals.filter fun name => !m.isInput name

namespace Draft

variable {d : Draft}

/-- Wires keep their widths when the draft is finished. -/
theorem WellFormed.fits_finish (h : d.WellFormed) (name : String) :
    ∀ w ∈ (d.finish name).value.wires, w.Fits d.nets := by
  intro k hk
  obtain ⟨w, hw, rfl⟩ := d.keepWires_subset d.wires k hk
  exact h.wires_fit w hw

theorem WellFormed.finish {P : Tree → Prop} (h : d.WellFormed) (hread : d.ReadOff P)
    (name : String) : (d.finish name).value.WellFormed where
  inputs_nodup := h.inputs_nodup
  wires_nodup := (d.names_keepWires d.wires).1
  disjoint := by
    intro other hother hinput
    obtain ⟨w, hw, rfl⟩ := List.mem_map.1 hother
    have hnot := (d.names_keepWires d.wires).2 w hw
    rw [isInput_iff.2 hinput] at hnot
    cases hnot
  outputs_nodup := h.outputs_nodup
  outputs_disjoint := by
    intro other hother hinput
    have hnot := h.not_isInput other (h.outputs_declared other hother)
    rw [isInput_iff.2 hinput] at hnot
    cases hnot
  inputs_pos := h.inputs_pos
  wires_pos := by
    intro w hw
    obtain ⟨net, hnet, hwidth⟩ := h.fits_finish name w hw
    rw [hwidth]
    exact h.nets_pos _ net hnet
  deps_eq := by
    intro w hw
    refine NameSet.ext_keys fun signal => ?_
    rw [(hread.finish name).mem_deps w hw, NameMap.mem_keys_filter, Bool.not_eq_true',
      ← Bool.not_eq_true, Module.isInput_iff, and_comm]

/-- No wire of a well-formed draft has the name of an input. -/
theorem WellFormed.not_isInput_of_mem (h : d.WellFormed) :
    ∀ w ∈ d.wires, d.isInput w.name = false := by
  intro w hw
  obtain ⟨net, hnet, -⟩ := h.wires_fit w hw
  exact h.not_isInput _ (NameMap.mem_keys_of_get? hnet)

/-- Finishing a well-formed draft never finds a wire with the name of an input. -/
theorem WellFormed.records_finish (h : d.WellFormed) (name : String) :
    (d.finish name).Records fun x => ∀ other, x.finding ≠ .wireNamedAsInput other := by
  have hkeeps : ∀ x, KeepsWires x → ∀ other, x.finding ≠ .wireNamedAsInput other := by
    intro x hx other heq
    rw [KeepsWires, heq] at hx
    cases hx
  intro x hx
  rw [log_finish, List.mem_append, List.mem_append] at hx
  rcases hx with hx | hx | hx
  · obtain ⟨repeated, hrepeated⟩ := records_keepWires h.not_isInput_of_mem x hx
    simp [hrepeated]
  · exact hkeeps x (Logged.Records.forM (fun _ _ => records_checkOutput fun _ => rfl) x hx)
  · exact hkeeps x (Logged.Records.forM (fun _ _ => records_checkNet fun _ => rfl) x hx)

theorem wellFormed_assemble (t : Tree) : (assemble t).value.WellFormed := by
  rw [assemble_eq, Logged.value_bind]
  exact (wellFormed_ofModule t).finish (readOff_ofModule t) _

end Draft

namespace Module

variable {root t : Tree} {top : Option String} {m : Module}

/-! ## Modules of trees -/

/-- Scheduling wires of different names does not fail for a name that two wires have. -/
theorem schedule_ne_repeatedWire (h : m.wireNames.Nodup) (name : String) :
    m.schedule ≠ .error (.repeatedWire name) := by
  rw [schedule, nodup_wireNames_iff.2 h]
  cases m.firstMissing with
  | some pair => simp
  | none =>
    show (if _ then _ else _) ≠ _
    split <;> simp

/-- The module of a tree is well formed, whatever the tree. Every definition of a net, whether it
was kept or dropped, got the width which the net has in the end. So scheduling the module never
finds two wires of one name, and nothing was recorded of a wire with the name of an input. -/
theorem wellFormed_of_ofTree (h : (ofTree root top).run.value = .ok m) :
    m.WellFormed ∧
    (∃ t, select root top = .ok t ∧
      m = ((Draft.ofModule t).value.finish t.moduleName).value ∧
      (∀ w ∈ (Draft.ofModule t).value.wires, w.Fits (Draft.ofModule t).value.nets) ∧
      ∀ w ∈ m.wires, w.Fits (Draft.ofModule t).value.nets) ∧
    (∀ name, m.schedule ≠ .error (.repeatedWire name)) ∧
    ∀ x ∈ (ofTree root top).run.log, ∀ name, x.finding ≠ .wireNamedAsInput name := by
  obtain ⟨t, ht, rfl⟩ := of_ofTree_eq_ok h
  have hdraft := Draft.wellFormed_ofModule t
  have hm : (Draft.assemble t).value = ((Draft.ofModule t).value.finish t.moduleName).value := by
    rw [Draft.assemble_eq, Logged.value_bind]
  have hwell : (Draft.assemble t).value.WellFormed := Draft.wellFormed_assemble t
  refine ⟨hwell, ⟨t, ht, hm, hdraft.wires_fit, ?_⟩, ?_, ?_⟩
  · rw [hm]
    exact hdraft.fits_finish _
  · exact schedule_ne_repeatedWire hwell.wires_nodup
  · intro x hx name heq
    rw [log_ofTree ht, Draft.assemble_eq, Logged.log_bind, List.mem_append] at hx
    rcases hx with hx | hx
    · have hkeeps := Draft.records_ofModule t x hx
      rw [Draft.KeepsWires, heq] at hkeeps
      cases hkeeps
    · exact hdraft.records_finish _ x hx name heq

/-- A module whose output of one bit is declared once more as a net of four bits, with a definition,
and is then assigned as well. -/
def widened : Tree :=
  .branch .sourceFile [.branch .moduleDeclaration [.leaf .simpleIdentifier "m",
    .branch .portDeclaration [.leaf .portDirection "input", .leaf .simpleIdentifier "a"],
    .branch .portDeclaration [.leaf .portDirection "output", .leaf .simpleIdentifier "y"],
    .branch .netDeclaration [
      .branch .packedDimension [.leaf .number "3", .leaf .number "0"],
      .branch .netDeclAssignment [.leaf .simpleIdentifier "y", .leaf .simpleIdentifier "a"]],
    .branch .continuousAssign [
      .branch .netAssignment [.leaf .simpleIdentifier "y", .leaf .number "1"]]]]

/-- The module of `widened`. -/
def widenedModule : Module where
  name := "m"
  inputs := [⟨"a", 1⟩]
  wires := [⟨"y", 4, .signal "a", NameSet.ofNames [], none⟩]
  outputs := ["y"]

theorem wellFormed_widened :
    (ofTree widened none).run.value = .ok widenedModule ∧
    widenedModule.WellFormed ∧
    (∃ t, select widened none = .ok t ∧
      widenedModule = ((Draft.ofModule t).value.finish t.moduleName).value ∧
      (∀ w ∈ (Draft.ofModule t).value.wires, w.Fits (Draft.ofModule t).value.nets) ∧
      ∀ w ∈ widenedModule.wires, w.Fits (Draft.ofModule t).value.nets) ∧
    (∀ name, widenedModule.schedule ≠ .error (.repeatedWire name)) ∧
    ∀ x ∈ (ofTree widened none).run.log, ∀ name, x.finding ≠ .wireNamedAsInput name := by
  have hmodule : (ofTree widened none).run.value = .ok widenedModule :=
    of_toOption_eq_some (by decide +kernel)
  exact ⟨hmodule, wellFormed_of_ofTree hmodule⟩

end Module

end Netlist
