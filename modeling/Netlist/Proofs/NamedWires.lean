/-
The wires of a module, name by name.

Definitions are gathered in a certain order, but wires of different names have nothing to do with
each other: which wire a name gets depends on the definitions of this name alone, and the order of
the wires is made anew by scheduling. So a module is determined by its declarations and by the
expressions that each name is given (`Tree.expressionsOf`). Where these are the same in two trees, the
modules of the trees differ at most in the order of their wires and in where these are defined
(`rearranges_assemble`).
-/
import Netlist.Proofs.Precedence
import Netlist.Proofs.Rearrangement

set_option autoImplicit false

namespace Netlist

/-! ## Wires by their names -/

/-- Rows with the same wires of each name have the same wires. -/
theorem Wire.perm_of_named {ws vs : List Wire} (h : ∀ name, named name ws = named name vs) :
    ws.Perm vs := by
  refine List.perm_iff_count.2 fun w => ?_
  have hcount : ∀ us : List Wire, us.count w = (named w.name us).count w := by
    intro us
    exact (List.count_filter (p := fun v : Wire => v.name == w.name) (beq_self_eq_true w.name)).symm
  rw [hcount ws, hcount vs, h]

theorem Wire.named_map_unplaced (name : String) (ws : List Wire) :
    named name (ws.map unplaced) = (named name ws).map unplaced := by
  rw [named, List.filter_map]
  rfl

namespace Tree

/-- The expression of an item that should define a signal. -/
def expression? (item : Tree) : Option Expr :=
  match item.children with
  | [_, e] => (Expr.ofTree e).run.value
  | _ => none

/-- The expressions that the definitions of a name give it, in the order in which these are
gathered. -/
def expressionsOf (module : Tree) (name : String) : List Expr :=
  (module.definingItems.filter (defines name)).filterMap expression?

end Tree

namespace Draft

variable {d d' : Draft} {t t' item : Tree} {name : String}

/-! ## The wires of a draft -/

/-- What a definition of a name makes, but for where it stands. -/
def wireOf (d : Draft) (name : String) (value : Expr) : Wire :=
  ⟨name, ((d.nets.get? name).map Net.width).getD 1, value, value.signals, none⟩

theorem unplaced_eq {P : Tree → Prop} {w : Wire} (h : d.WellFormed) (hread : d.ReadOff P)
    (hw : w ∈ d.wires) : w.unplaced = d.wireOf w.name w.definition := by
  obtain ⟨net, hnet, hwidth⟩ := h.wires_fit w hw
  obtain ⟨-, hdeps⟩ := hread w hw
  rw [Wire.unplaced, wireOf, hnet, hwidth, hdeps]
  rfl

/-- A definition is made a wire if its name is declared and it has an expression. -/
theorem map_value_definition? (hitem : item ∈ t.definingItems) (h : item.defines name = true) :
    ((ofModule t).value.definition? item).map Definition.value =
      if (ofModule t).value.nets.contains name then item.expression? else none := by
  have hwell := wellFormed_ofModule t
  split
  · next hname =>
    rw [contains_iff] at hname
    have hdefines := h
    unfold Tree.defines at h
    split at h
    · next target e hchildren =>
      rw [Bool.and_eq_true, beq_iff_eq] at h
      obtain ⟨hkind, rfl⟩ := h
      have hmay : (ofModule t).value.mayDefine item target = true := by
        rw [mayDefine, hwell.not_isInput _ hname, contains_iff.2 hname, Bool.and_true]
        exact hkind
      rw [definition?_of_mayDefine hchildren hmay, Tree.expression?, hchildren, Option.map_map]
      exact Option.map_id'
    · cases h
  · next hname =>
    -- what becomes a wire has a net
    cases hx : (ofModule t).value.definition? item with
    | none => rfl
    | some x =>
      have hmem : x ∈ (ofModule t).value.wires.map Wire.toDefinition := by
        rw [definitions_ofModule]
        exact List.mem_filterMap.2 ⟨item, hitem, hx⟩
      obtain ⟨w, hw, rfl⟩ := List.mem_map.1 hmem
      have hwname : w.name = name := by
        rw [defines_eq_of_definition? hx, beq_iff_eq] at h
        exact h
      obtain ⟨net, hnet, -⟩ := hwell.wires_fit w hw
      rw [hwname] at hnet
      exact absurd (contains_iff.2 (NameMap.mem_keys_of_get? hnet)) hname

/-- The wires of a name are made of the expressions that its definitions give it. -/
theorem map_unplaced_named (t : Tree) (name : String) :
    (Wire.named name (ofModule t).value.wires).map Wire.unplaced =
      if (ofModule t).value.nets.contains name then
        (t.expressionsOf name).map ((ofModule t).value.wireOf name)
      else [] := by
  have hunplaced : (Wire.named name (ofModule t).value.wires).map Wire.unplaced =
      ((Wire.named name (ofModule t).value.wires).map Wire.toDefinition).map
        fun x => (ofModule t).value.wireOf name x.value := by
    rw [List.map_map]
    refine List.map_congr_left fun w hw => ?_
    obtain ⟨hw, hname⟩ := List.mem_filter.1 hw
    rw [unplaced_eq (wellFormed_ofModule t) (readOff_ofModule t) hw, beq_iff_eq.1 hname]
    rfl
  have hvalues : (t.definingItems.filter (Tree.defines name)).filterMap
        (fun item => ((ofModule t).value.definition? item).map Definition.value) =
      if (ofModule t).value.nets.contains name then t.expressionsOf name else [] := by
    rw [List.filterMap_congr fun item hitem => map_value_definition?
      (List.mem_filter.1 hitem).1 (List.mem_filter.1 hitem).2]
    split
    · rfl
    · exact List.filterMap_eq_nil_iff.2 fun _ _ => rfl
  rw [hunplaced, map_toDefinition_named]
  have hmap : ∀ xs : List Tree, (xs.filterMap (ofModule t).value.definition?).map
      (fun x => (ofModule t).value.wireOf name x.value) =
        (xs.filterMap fun item => ((ofModule t).value.definition? item).map Definition.value).map
          ((ofModule t).value.wireOf name) := by
    intro xs
    rw [← List.map_filterMap, List.map_map]
    rfl
  rw [hmap, hvalues]
  split
  · rfl
  · rfl

/-! ## Drafts that declare the same -/

/-- The drafts have the same ports, and the same nets of the same widths. -/
structure Agrees (d d' : Draft) : Prop where
  inputs : d.inputs = d'.inputs
  outputs : d.outputs = d'.outputs
  widths : ∀ name, (d.nets.get? name).map Net.width = (d'.nets.get? name).map Net.width

theorem Agrees.contains_eq (h : d.Agrees d') (name : String) :
    d.nets.contains name = d'.nets.contains name := by
  have hsome := congrArg Option.isSome (h.widths name)
  rw [Option.isSome_map, Option.isSome_map] at hsome
  exact hsome

theorem Agrees.wireOf_eq (h : d.Agrees d') : d.wireOf = d'.wireOf := by
  funext name value
  rw [wireOf, wireOf, h.widths]

theorem Agrees.clean_eq (h : d.Agrees d') : d.clean = d'.clean := by
  funext w
  simp only [clean, isInput, h.inputs]

theorem unplaced_clean (d : Draft) (w : Wire) : (d.clean w).unplaced = d.clean w.unplaced := rfl

/-- Of each name the first wire is kept. -/
theorem named_keepWires_unplaced (t : Tree) (name : String) :
    Wire.named name (((ofModule t).value.keepWires (ofModule t).value.wires).value.map
        Wire.unplaced) =
      (((Wire.named name (ofModule t).value.wires).map Wire.unplaced).take 1).map
        (ofModule t).value.clean := by
  obtain ⟨hkept, -⟩ := keepWires_named (wellFormed_ofModule t).not_isInput_of_mem name
  rw [Wire.named_map_unplaced, hkept, List.map_map, ← List.map_take, List.map_map]
  exact List.map_congr_left fun w _ => unplaced_clean _ w

/-- Trees whose declarations declare the same, and whose definitions give the same expressions to
each name, have the same module, but for the order of the wires and where they are defined. -/
theorem rearranges_assemble (hname : t.moduleName = t'.moduleName)
    (h : (ofModule t).value.Agrees (ofModule t').value)
    (hexpr : ∀ name, t.expressionsOf name = t'.expressionsOf name) :
    (assemble t).value.Rearranges (assemble t').value := by
  rw [assemble_eq, assemble_eq, Logged.value_bind, Logged.value_bind, value_finish, value_finish]
  refine ⟨hname, h.inputs, h.outputs, Wire.perm_of_named fun name => ?_⟩
  rw [Module.wires_withoutLocations, Module.wires_withoutLocations, named_keepWires_unplaced,
    named_keepWires_unplaced, map_unplaced_named, map_unplaced_named, h.contains_eq, h.wireOf_eq,
    h.clean_eq, hexpr]

end Draft

end Netlist
