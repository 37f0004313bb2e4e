/-
The wires of a finished draft.

A name may have been defined any number of times. When the draft is finished, its wires are gone
through in their order; the first one of each name is kept, and of each further one it is recorded
that it was dropped (`keepWires_named`). So a wire is either kept or recorded, and as many wires are
kept as names are defined. That a wire could have the name of an input is looked at too, but it
never happens in a draft that is well formed.
-/
import Mathlib.Data.List.Induction
import Netlist.Proofs.Drafts

set_option autoImplicit false

namespace Netlist

/-- The finding says that one more wire of the name was dropped. -/
def Finding.repeats (name : String) : Finding → Bool
  | repeatedWire other => other == name
  | _ => false

/-- The wires of a name, in their order. -/
def Wire.named (name : String) (ws : List Wire) : List Wire :=
  ws.filter fun w => w.name == name

namespace Draft

variable {d : Draft} {ws kept : List Wire} {w : Wire} {name : String}

/-- Goes through wires and keeps the first one of each name. -/
def keepWires (d : Draft) (ws : List Wire) : Logged (List Wire) :=
  ws.foldlM d.keepWire []

theorem keepWires_snoc (d : Draft) (ws : List Wire) (w : Wire) :
    d.keepWires (ws ++ [w]) = d.keepWires ws >>= fun kept => d.keepWire kept w := by
  rw [keepWires, List.foldlM_append]
  refine congrArg _ (funext fun kept => ?_)
  rw [List.foldlM_cons]
  exact bind_pure _

/-! ## One wire -/

/-- A wire is kept, or left out with one warning. -/
theorem keepWire_cases (d : Draft) (kept : List Wire) (w : Wire) :
    d.keepWire kept w = ⟨kept ++ [d.clean w], []⟩ ∨
      ∃ finding, d.keepWire kept w = ⟨kept, [⟨.warning, w.location, finding⟩]⟩ := by
  unfold keepWire
  split
  · exact .inr ⟨_, rfl⟩
  · split
    · exact .inr ⟨_, rfl⟩
    · exact .inl rfl

theorem any_name_iff : (kept.any fun k => k.name == name) = true ↔ Wire.named name kept ≠ [] := by
  rw [List.any_eq_true, Ne, Wire.named, List.filter_eq_nil_iff]
  simp

theorem keepWire_of_named_eq_nil (hinput : d.isInput w.name = false)
    (hnew : Wire.named w.name kept = []) : d.keepWire kept w = ⟨kept ++ [d.clean w], []⟩ := by
  rw [keepWire, hinput, if_neg Bool.false_ne_true, if_neg]
  · rfl
  · rw [any_name_iff, not_not, hnew]

theorem keepWire_of_named_ne_nil (hinput : d.isInput w.name = false)
    (hold : Wire.named w.name kept ≠ []) :
    d.keepWire kept w = ⟨kept, [⟨.warning, w.location, .repeatedWire w.name⟩]⟩ := by
  rw [keepWire, hinput, if_neg Bool.false_ne_true, if_pos (any_name_iff.2 hold)]
  rfl

/-! ## All wires -/

/-- Every wire is either kept or recorded. -/
theorem length_keepWires (d : Draft) (ws : List Wire) :
    (d.keepWires ws).value.length + (d.keepWires ws).log.warnings.length = ws.length := by
  induction ws using List.reverseRecOn with
  | nil => rfl
  | append_singleton ws w ih =>
    rw [keepWires_snoc, Logged.value_bind, Logged.log_bind, Log.warnings_append,
      List.length_append, List.length_append, List.length_singleton, ← ih]
    rcases d.keepWire_cases (d.keepWires ws).value w with hw | ⟨finding, hw⟩
    · rw [hw, List.length_append, List.length_singleton, Log.warnings_nil, List.length_nil]
      omega
    · rw [hw]
      exact (Nat.add_assoc _ _ _).symm

/-- If nothing is recorded, all wires are kept. -/
theorem keepWires_of_silent (h : (d.keepWires ws).log.warnings = []) :
    (d.keepWires ws).value = ws.map d.clean := by
  induction ws using List.reverseRecOn with
  | nil => rfl
  | append_singleton ws w ih =>
    rw [keepWires_snoc, Logged.log_bind, Log.warnings_append, List.append_eq_nil_iff] at h
    rw [keepWires_snoc, Logged.value_bind, List.map_append, List.map_singleton]
    rcases d.keepWire_cases (d.keepWires ws).value w with hw | ⟨finding, hw⟩
    · rw [hw, ih h.1]
    · rw [hw] at h
      cases h.2

/-- Of the wires of a name the first one is kept, and of each other one it is recorded, in their
order, that it was dropped. The induction is on the wires from the end, so that the last wire meets
all that have been kept. -/
theorem keepWires_named (hws : ∀ w ∈ ws, d.isInput w.name = false) (name : String) :
    Wire.named name (d.keepWires ws).value = ((Wire.named name ws).take 1).map d.clean ∧
      (d.keepWires ws).log.filter (fun x => x.finding.repeats name) =
        ((Wire.named name ws).drop 1).map fun w => ⟨.warning, w.location, .repeatedWire name⟩ := by
  induction ws using List.reverseRecOn with
  | nil => exact ⟨rfl, rfl⟩
  | append_singleton ws w ih =>
    obtain ⟨hvalue, hlog⟩ := ih fun v hv => hws v (List.mem_append_left _ hv)
    have hinput := hws w (List.mem_append_right _ List.mem_cons_self)
    rw [keepWires_snoc, Logged.value_bind, Logged.log_bind, List.filter_append, hlog]
    by_cases hname : w.name = name
    · subst hname
      have hsnoc : Wire.named w.name (ws ++ [w]) = Wire.named w.name ws ++ [w] := by
        simp [Wire.named]
      rw [hsnoc]
      by_cases hnil : Wire.named w.name ws = []
      · have hnew : Wire.named w.name (d.keepWires ws).value = [] := by
          rw [hvalue, hnil]
          rfl
        rw [keepWire_of_named_eq_nil hinput hnew, hnil]
        refine ⟨?_, rfl⟩
        rw [Wire.named, List.filter_append, ← Wire.named, hnew]
        simp [clean]
      · obtain ⟨first, rest, hcons⟩ := List.exists_cons_of_ne_nil hnil
        have hold : Wire.named w.name (d.keepWires ws).value ≠ [] := by
          rw [hvalue, hcons]
          exact List.cons_ne_nil _ _
        rw [keepWire_of_named_ne_nil hinput hold, hcons, hvalue, hcons]
        simp [Finding.repeats]
    · -- neither what is kept of the name nor what is recorded of it changes
      have hsnoc : Wire.named name (ws ++ [w]) = Wire.named name ws := by
        simp [Wire.named, hname]
      rw [hsnoc]
      by_cases hnil : Wire.named w.name (d.keepWires ws).value = []
      · rw [keepWire_of_named_eq_nil hinput hnil]
        refine ⟨?_, List.append_nil _⟩
        rw [← hvalue]
        simp [Wire.named, clean, hname]
      · rw [keepWire_of_named_ne_nil hinput hnil]
        refine ⟨hvalue, ?_⟩
        simp [Finding.repeats, hname]

/-- The kept wires have different names, none of which an input has. -/
theorem names_keepWires (d : Draft) (ws : List Wire) :
    ((d.keepWires ws).value.map Wire.name).Nodup ∧
      ∀ k ∈ (d.keepWires ws).value, d.isInput k.name = false := by
  refine Logged.foldlM_preserves (P := fun kept : List Wire =>
    (kept.map Wire.name).Nodup ∧ ∀ k ∈ kept, d.isInput k.name = false) (fun kept w _ h => ?_)
    ⟨List.nodup_nil, by simp⟩
  unfold keepWire
  split
  · exact h
  · next hinput =>
    split
    · exact h
    · next hnew =>
      refine ⟨?_, fun k hk => ?_⟩
      · show ((kept ++ [d.clean w]).map Wire.name).Nodup
        rw [List.map_append, List.map_singleton]
        refine nodup_append_singleton h.1 fun hmem => hnew ?_
        obtain ⟨k, hk, hkname⟩ := List.mem_map.1 hmem
        exact List.any_eq_true.2 ⟨k, hk, beq_iff_eq.2 hkname⟩
      · rcases List.mem_append.1 hk with hk | hk
        · exact h.2 k hk
        · rw [List.mem_singleton.1 hk]
          simpa using hinput

/-- All that is recorded is that wires were dropped for names that other wires have. -/
theorem records_keepWires (hws : ∀ w ∈ ws, d.isInput w.name = false) :
    (d.keepWires ws).Records fun x => ∃ name, x.finding = .repeatedWire name := by
  refine .foldlM (fun kept w hw => ?_) []
  by_cases hnil : Wire.named w.name kept = []
  · rw [keepWire_of_named_eq_nil (hws w hw) hnil]
    exact .pure _
  · rw [keepWire_of_named_ne_nil (hws w hw) hnil]
    exact fun x hx => ⟨w.name, by rw [List.mem_singleton.1 hx]⟩

/-! ## The finished module -/

/-- The draft with the wires that are kept. -/
def pruned (d : Draft) : Draft :=
  { d with wires := (d.keepWires d.wires).value }

theorem value_finish (d : Draft) (name : String) :
    (d.finish name).value = ⟨name, d.inputs, (d.keepWires d.wires).value, d.outputs⟩ := rfl

theorem log_finish (d : Draft) (name : String) :
    (d.finish name).log = (d.keepWires d.wires).log ++
      ((d.outputs.forM d.pruned.checkOutput).log ++
        (d.nets.entries.forM d.pruned.checkNet).log) := by
  show (d.keepWires d.wires).log ++ ((d.outputs.forM d.pruned.checkOutput).log ++
    ((d.nets.entries.forM d.pruned.checkNet).log ++ [])) = _
  rw [List.append_nil]

theorem records_checkOutput {P : Diagnostic → Prop}
    (h : ∀ location, P ⟨.warning, location, .undefinedOutput name⟩) :
    (d.checkOutput name).Records P := by
  unfold checkOutput
  split
  · exact .pure _
  · exact Logged.records_warn (h _)

theorem records_checkNet {P : Diagnostic → Prop} {net : String × Net}
    (h : ∀ location, P ⟨.info, location, .undefinedNet net.1⟩) : (d.checkNet net).Records P := by
  unfold checkNet
  split
  · exact .pure _
  · intro x hx
    rw [List.mem_singleton.1 hx]
    exact h _

end Draft

end Netlist
