/-
The names and widths of a draft.

A draft is built in three passes, which add ports, nets and definitions as they find them, and a
tree may give them anything to find. Still some facts hold after every step (`Draft.WellFormed`): no
name is an input and a net, no name is listed twice, no width is zero, and every wire has the width
of its net. The last of these needs care. The width of a net changes when an output is declared once
more, as a net, and a wire that was made before would keep the old width. There is none: as long as
nets are read, wires are made only for nets that were declared as nets (`Draft.Settled`), whose
width stays; and when assignments are read, all nets have been.
-/
import Netlist.Proofs.Assembly
import Netlist.Proofs.Warnings

set_option autoImplicit false

namespace Netlist

theorem nodup_append_singleton {α : Type} {xs : List α} {x : α} (h : xs.Nodup) (hx : x ∉ xs) :
    (xs ++ [x]).Nodup :=
  (List.perm_append_singleton x xs).nodup_iff.2 (List.nodup_cons.2 ⟨hx, h⟩)

/-! ## Widths -/

theorem Tree.declaredWidth_pos (t : Tree) : 0 < t.declaredWidth.value := by
  unfold declaredWidth
  split
  · exact Nat.one_pos
  · dsimp only
    split
    · next width hwidth =>
      -- a range that can be used has a width one above a distance
      split at hwidth
      · split at hwidth
        · split at hwidth
          · cases hwidth
            exact Nat.succ_pos _
          · cases hwidth
        · cases hwidth
      · cases hwidth
    · exact Nat.one_pos

/-- The wire has the width of the net of its name. -/
def Wire.Fits (nets : NameMap Net) (w : Wire) : Prop :=
  ∃ net, nets.get? w.name = some net ∧ w.width = net.width

namespace Draft

/-- What holds of a draft after every step. -/
structure WellFormed (d : Draft) : Prop where
  inputs_nodup : (d.inputs.map Input.name).Nodup
  inputs_pos : ∀ i ∈ d.inputs, 0 < i.width
  outputs_nodup : d.outputs.Nodup
  outputs_declared : ∀ name ∈ d.outputs, name ∈ d.nets.keys
  nets_pos : ∀ name net, d.nets.get? name = some net → 0 < net.width
  not_isInput : ∀ name ∈ d.nets.keys, d.isInput name = false
  wires_fit : ∀ w ∈ d.wires, w.Fits d.nets

/-- Every wire is that of a net which was declared as a net, so that its width stays. -/
def Settled (d : Draft) : Prop :=
  ∀ w ∈ d.wires, ∀ net, d.nets.get? w.name = some net → net.isPort = false

variable {d : Draft} {name : String} {width : Nat} {location : Option Location}

theorem wellFormed_start : start.WellFormed where
  inputs_nodup := List.nodup_nil
  inputs_pos := by simp [start]
  outputs_nodup := List.nodup_nil
  outputs_declared := by simp [start]
  nets_pos := by simp [start]
  not_isInput := by simp [start]
  wires_fit := by simp [start]

/-! ## Ports -/

/-- A name that is neither an input nor a net may become an input. -/
theorem WellFormed.addInput (h : d.WellFormed) (hinput : d.isInput name = false)
    (hnet : name ∉ d.nets.keys) (hwidth : 0 < width) :
    WellFormed { d with inputs := d.inputs ++ [⟨name, width⟩] } where
  inputs_nodup := by
    have hnew : name ∉ d.inputs.map Input.name := by
      rw [← isInput_iff, hinput]
      exact Bool.false_ne_true
    rw [List.map_append, List.map_singleton]
    exact nodup_append_singleton h.inputs_nodup hnew
  inputs_pos := by
    intro i hi
    rcases List.mem_append.1 hi with hi | hi
    · exact h.inputs_pos i hi
    · rw [List.mem_singleton.1 hi]
      exact hwidth
  outputs_nodup := h.outputs_nodup
  outputs_declared := h.outputs_declared
  nets_pos := h.nets_pos
  not_isInput := by
    intro other hother
    have hne : name ≠ other := fun heq => hnet (heq ▸ hother)
    rw [isInput, List.any_append, ← isInput, h.not_isInput other hother]
    simpa using hne
  wires_fit := h.wires_fit

/-- A net that is no input may be declared, or declared anew with another width, if no wire has
been made for it. -/
theorem WellFormed.insertNet (h : d.WellFormed) (hinput : d.isInput name = false)
    (hwire : ∀ w ∈ d.wires, w.name ≠ name) (hwidth : 0 < width) (isPort : Bool)
    (location : Option Location) :
    WellFormed { d with nets := d.nets.insert name ⟨width, isPort, location⟩ } where
  inputs_nodup := h.inputs_nodup
  inputs_pos := h.inputs_pos
  outputs_nodup := h.outputs_nodup
  outputs_declared other hother := NameMap.mem_keys_insert.2 (.inr (h.outputs_declared other hother))
  nets_pos other net hnet := by
    rw [NameMap.get?_insert] at hnet
    split at hnet
    · cases hnet
      exact hwidth
    · exact h.nets_pos other net hnet
  not_isInput other hother := by
    rcases NameMap.mem_keys_insert.1 hother with rfl | hother
    · exact hinput
    · exact h.not_isInput other hother
  wires_fit w hw := by
    obtain ⟨net, hnet, hfit⟩ := h.wires_fit w hw
    exact ⟨net, by rw [NameMap.get?_insert, if_neg (hwire w hw), hnet], hfit⟩

/-- A declared net may be listed as an output, once. -/
theorem WellFormed.addOutput (h : d.WellFormed) (hnew : name ∉ d.outputs)
    (hnet : name ∈ d.nets.keys) : WellFormed { d with outputs := d.outputs ++ [name] } :=
  { h with
    outputs_nodup := nodup_append_singleton h.outputs_nodup hnew
    outputs_declared := by
      intro other hother
      rcases List.mem_append.1 hother with hother | hother
      · exact h.outputs_declared other hother
      · rw [List.mem_singleton.1 hother]
        exact hnet }

theorem contains_iff : d.nets.contains name = true ↔ name ∈ d.nets.keys :=
  NameMap.mem_keys_iff.symm

theorem WellFormed.addPort (h : d.WellFormed) (hwidth : 0 < width) (isInput : Bool)
    (nameNode : Tree) : (addPort isInput width d nameNode).value.WellFormed := by
  unfold Draft.addPort
  dsimp only
  split
  · exact h
  · next hnew =>
    rw [Bool.or_eq_true, not_or, Bool.not_eq_true, contains_iff] at hnew
    obtain ⟨hinput, hnet⟩ := hnew
    split
    · exact h.addInput hinput hnet hwidth
    · have hwire : ∀ w ∈ d.wires, w.name ≠ nameNode.word := by
        rintro w hw heq
        obtain ⟨net, hfound, -⟩ := h.wires_fit w hw
        exact hnet (heq ▸ NameMap.mem_keys_of_get? hfound)
      have hdeclared := h.insertNet hinput hwire hwidth true nameNode.location?
      exact hdeclared.addOutput (fun hmem => hnet (h.outputs_declared _ hmem))
        (NameMap.mem_keys_insert.2 (.inl rfl))

theorem WellFormed.readPorts (h : d.WellFormed) (module : Tree) :
    (d.readPorts module).value.WellFormed := by
  unfold Draft.readPorts
  refine Logged.foldlM_preserves (fun d declaration _ h => ?_) h
  unfold addPorts
  exact Logged.foldlM_preserves
    (fun d nameNode _ h => h.addPort declaration.declaredWidth_pos _ nameNode) h

/-! ## Nets -/

/-- What a declaration does: it puts a net that is no port into a new place or into that of a port,
or finds one there and changes nothing. -/
theorem declareNet_cases (d : Draft) (name : String) (width : Nat) (location : Option Location) :
    ((d.declareNet name width location).value =
        { d with nets := d.nets.insert name ⟨width, false, location⟩ } ∧
      ∀ net, d.nets.get? name = some net → net.isPort = true) ∨
    ((d.declareNet name width location).value = d ∧
      ∃ net, d.nets.get? name = some net ∧ net.isPort = false) := by
  unfold declareNet
  split
  · next hnone => exact .inl ⟨rfl, by simp [hnone]⟩
  · next net hnet =>
    split
    · next hport =>
      refine .inl ⟨?_, by simp [hnet, hport]⟩
      split <;> rfl
    · next hport => exact .inr ⟨rfl, net, hnet, by simpa using hport⟩

/-- A declared name has a net that is no port. -/
theorem exists_net_declareNet (d : Draft) (name : String) (width : Nat)
    (location : Option Location) :
    ∃ net, (d.declareNet name width location).value.nets.get? name = some net ∧
      net.isPort = false := by
  rcases d.declareNet_cases name width location with ⟨hvalue, -⟩ | ⟨hvalue, net, hnet, hport⟩
  · rw [hvalue]
    exact ⟨_, NameMap.get?_insert_self .., rfl⟩
  · rw [hvalue]
    exact ⟨net, hnet, hport⟩

theorem WellFormed.declareNet (h : d.WellFormed) (hsettled : d.Settled)
    (hinput : d.isInput name = false) (hwidth : 0 < width) (location : Option Location) :
    (d.declareNet name width location).value.WellFormed ∧
      (d.declareNet name width location).value.Settled := by
  rcases d.declareNet_cases name width location with ⟨hvalue, hport⟩ | ⟨hvalue, -⟩
  · rw [hvalue]
    -- wires are made only for nets that are no ports, so this net has none
    have hwire : ∀ w ∈ d.wires, w.name ≠ name := by
      rintro w hw rfl
      obtain ⟨net, hnet, -⟩ := h.wires_fit w hw
      have hnot := hsettled w hw net hnet
      rw [hport net hnet] at hnot
      cases hnot
    refine ⟨h.insertNet hinput hwire hwidth false location, fun w hw net hnet => hsettled w hw net ?_⟩
    rwa [NameMap.get?_insert, if_neg (hwire w hw)] at hnet
  · rw [hvalue]
    exact ⟨h, hsettled⟩

/-- What a definition does: it adds a wire with the width of the net, or nothing. -/
theorem define_cases (d : Draft) (name : String) (e : Tree) (location : Option Location) :
    (∃ expr, (Expr.ofTree e).run.value = some expr ∧ (d.define name e location).value =
      { d with wires := d.wires ++
        [⟨name, ((d.nets.get? name).map Net.width).getD 1, expr, expr.signals, location⟩] }) ∨
    ((Expr.ofTree e).run.value = none ∧ (d.define name e location).value = d) := by
  rw [define, Logged.value_bind]
  split
  · next expr hexpr => exact .inl ⟨expr, hexpr, rfl⟩
  · next hnone => exact .inr ⟨hnone, rfl⟩

theorem WellFormed.define {net : Net} (h : d.WellFormed) (hnet : d.nets.get? name = some net)
    (e : Tree) : (d.define name e location).value.WellFormed := by
  rcases d.define_cases name e location with ⟨expr, -, hvalue⟩ | ⟨-, hvalue⟩
  · rw [hvalue]
    refine { h with wires_fit := fun w hw => ?_ }
    rcases List.mem_append.1 hw with hw | hw
    · exact h.wires_fit w hw
    · rw [List.mem_singleton.1 hw]
      refine ⟨net, hnet, ?_⟩
      rw [hnet]
      rfl
  · rwa [hvalue]

theorem Settled.define {net : Net} (h : d.Settled) (hnet : d.nets.get? name = some net)
    (hport : net.isPort = false) (e : Tree) : (d.define name e location).value.Settled := by
  rcases d.define_cases name e location with ⟨expr, -, hvalue⟩ | ⟨-, hvalue⟩
  · rw [hvalue]
    intro w hw found hfound
    rcases List.mem_append.1 hw with hw | hw
    · exact h w hw found hfound
    · rw [List.mem_singleton.1 hw, hnet] at hfound
      cases hfound
      exact hport
  · rwa [hvalue]

theorem WellFormed.addNet (h : d.WellFormed) (hsettled : d.Settled) (hwidth : 0 < width)
    (item nameNode : Tree) (definition : Option Tree) :
    (d.addNet width item nameNode definition).value.WellFormed ∧
      (d.addNet width item nameNode definition).value.Settled := by
  unfold Draft.addNet
  dsimp only
  split
  · split <;> exact ⟨h, hsettled⟩
  · next hinput =>
    rw [Logged.value_bind]
    obtain ⟨hdeclared, hdsettled⟩ := h.declareNet hsettled (by simpa using hinput) hwidth
      nameNode.location?
    obtain ⟨net, hnet, hport⟩ := exists_net_declareNet d nameNode.word width nameNode.location?
    split
    · exact ⟨hdeclared.define hnet _, hdsettled.define hnet hport _⟩
    · exact ⟨hdeclared, hdsettled⟩

theorem WellFormed.addNetItem (h : d.WellFormed) (hsettled : d.Settled) (hwidth : 0 < width)
    (item : Tree) :
    (addNetItem width d item).value.WellFormed ∧ (addNetItem width d item).value.Settled := by
  unfold Draft.addNetItem
  split
  · exact h.addNet hsettled hwidth _ _ _
  · exact h.addNet hsettled hwidth _ _ _
  · exact ⟨h, hsettled⟩
  · exact ⟨h, hsettled⟩

theorem WellFormed.readNets (h : d.WellFormed) (hsettled : d.Settled) (module : Tree) :
    (d.readNets module).value.WellFormed := by
  have hboth : (d.readNets module).value.WellFormed ∧ (d.readNets module).value.Settled := by
    unfold Draft.readNets
    refine Logged.foldlM_preserves (P := fun d : Draft => d.WellFormed ∧ d.Settled)
      (fun d declaration _ h => ?_) ⟨h, hsettled⟩
    rw [addNets, Logged.value_bind]
    exact Logged.foldlM_preserves (P := fun d : Draft => d.WellFormed ∧ d.Settled)
      (fun d item _ h => h.1.addNetItem h.2 declaration.declaredWidth_pos item) h
  exact hboth.1

/-! ## Assignments -/

theorem WellFormed.addAssignment (h : d.WellFormed) (assignment : Tree) :
    (addAssignment d assignment).value.WellFormed := by
  unfold Draft.addAssignment
  split
  · dsimp only
    split
    · exact h
    · split
      · exact h
      · split
        · exact h
        · next hdeclared =>
          -- the target is declared, so the wire gets the width of its net
          rw [Bool.not_eq_true', Bool.not_eq_false] at hdeclared
          obtain ⟨net, hnet⟩ := Option.isSome_iff_exists.1 hdeclared
          exact h.define hnet _
  · exact h

theorem WellFormed.readAssignments (h : d.WellFormed) (module : Tree) :
    (d.readAssignments module).value.WellFormed := by
  unfold Draft.readAssignments
  refine Logged.foldlM_preserves (fun d assign _ h => ?_) h
  exact Logged.foldlM_preserves (fun d assignment _ h => h.addAssignment assignment) h

theorem wellFormed_ofModule (module : Tree) : (ofModule module).value.WellFormed := by
  have hports := wellFormed_start.readPorts module
  have hsettled : (start.readPorts module).value.Settled := by
    rw [Settled, wires_readPorts]
    simp [start]
  exact (hports.readNets hsettled module).readAssignments module

/-! ## What the passes record

The passes record what they leave out: expressions that have no counterpart, items without the
children that they need, and whatever does not go with what was read before it. That a wire was
dropped is for the end to find out. -/

/-- Of declarations and definitions the property permits everything that can be said. -/
def PermitsDeclarations (P : Diagnostic → Prop) : Prop :=
  ∀ location finding, finding.isAboutDeclaration = true → P ⟨.warning, location, finding⟩

/-- Whatever the passes over the module may record has the property. -/
structure Permits (P : Diagnostic → Prop) (module : Tree) : Prop where
  declarations : PermitsDeclarations P
  expression : ∀ e, module.Defines e → (Expr.ofTree e).run.Records P
  definition : ∀ d ∈ module.descendants .netDeclaration, ∀ item ∈ d.children,
    item.kind = .netDeclAssignment → (∀ name e, item.children ≠ [name, e]) →
    P ⟨.warning, item.location?, .malformedDefinition⟩
  assignment : ∀ a ∈ module.descendants .continuousAssign, ∀ item ∈ a.childrenOf .netAssignment,
    (∀ target e, item.children ≠ [target, e]) →
    P ⟨.warning, item.location?, .malformedAssignment⟩

section Records

variable {P : Diagnostic → Prop}

theorem PermitsDeclarations.warning {α : Type} {finding : Finding} (h : PermitsDeclarations P)
    (hfinding : finding.isAboutDeclaration = true) (a : α) :
    Logged.Records P (do
      Logged.warn location finding
      return a) :=
  Logged.records_warn_pure (h location finding hfinding) a

theorem records_declaredWidth (h : PermitsDeclarations P) (t : Tree) :
    t.declaredWidth.Records P := by
  unfold Tree.declaredWidth
  split
  · exact .pure _
  · dsimp only
    split
    · exact .pure _
    · exact h.warning rfl _

theorem records_addPort (h : PermitsDeclarations P) (isInput : Bool) (width : Nat) (d : Draft)
    (nameNode : Tree) : (addPort isInput width d nameNode).Records P := by
  unfold addPort
  dsimp only
  split
  · exact h.warning rfl _
  · split
    · exact .pure _
    · exact .pure _

theorem records_readPorts (h : PermitsDeclarations P) (d : Draft) (module : Tree) :
    (d.readPorts module).Records P := by
  unfold readPorts
  refine .bind (.foldlM (fun d declaration _ => ?_) d) (.bind (.forM fun list _ => ?_) (.pure _))
  · unfold addPorts
    exact (records_declaredWidth h declaration).bind
      (.foldlM (fun d nameNode _ => records_addPort h _ _ d nameNode) d)
  · refine .forM fun nameNode _ => ?_
    unfold checkListed
    dsimp only
    split
    · exact .pure _
    · exact Logged.records_warn (h _ _ rfl)

theorem records_define {e : Tree} (h : PermitsDeclarations P) (he : (Expr.ofTree e).run.Records P)
    (d : Draft) (name : String) (location : Option Location) :
    (d.define name e location).Records P := by
  unfold define
  refine he.bind ?_
  split
  · exact .pure _
  · exact h.warning rfl _

theorem records_declareNet (h : PermitsDeclarations P) (d : Draft) (name : String) (width : Nat)
    (location : Option Location) : (d.declareNet name width location).Records P := by
  unfold declareNet
  split
  · exact .pure _
  · split
    · split
      · exact h.warning rfl _
      · exact .pure _
    · exact h.warning rfl _

theorem records_addNet {definition : Option Tree} (h : PermitsDeclarations P)
    (he : ∀ e, definition = some e → (Expr.ofTree e).run.Records P) (d : Draft) (width : Nat)
    (item nameNode : Tree) : (d.addNet width item nameNode definition).Records P := by
  unfold addNet
  dsimp only
  split
  · split
    · exact h.warning rfl _
    · exact .pure _
  · refine (records_declareNet h _ _ _ _).bind ?_
    split
    · next e => exact records_define h (he e rfl) _ _ _
    · exact .pure _

theorem records_readNets {module : Tree} (h : Permits P module) (d : Draft) :
    (d.readNets module).Records P := by
  unfold readNets
  refine .foldlM (fun d declaration hd => ?_) d
  unfold addNets
  have hwidth := records_declaredWidth h.declarations declaration
  refine hwidth.bind (.foldlM (fun d item hitem => ?_) d)
  unfold addNetItem
  split
  · exact records_addNet h.declarations (by simp) _ _ _ _
  · next name e hkind hchildren =>
    refine records_addNet h.declarations (fun e' he' => h.expression e' ?_) _ _ _ _
    cases he'
    exact .inl ⟨declaration, hd, item, hitem, name, hkind, hchildren⟩
  · next hkind hchildren =>
    exact Logged.records_warn_pure (h.definition declaration hd item hitem hkind hchildren) _
  · exact .pure _

theorem records_readAssignments {module : Tree} (h : Permits P module) (d : Draft) :
    (d.readAssignments module).Records P := by
  unfold readAssignments
  refine .foldlM (fun d assign ha => .foldlM (fun d item hitem => ?_) d) d
  unfold addAssignment
  split
  · next target e hchildren =>
    have he := h.expression e (.inr ⟨assign, ha, item, hitem, target, hchildren⟩)
    dsimp only
    split
    · exact h.declarations.warning rfl _
    · split
      · exact h.declarations.warning rfl _
      · split
        · exact h.declarations.warning rfl _
        · exact records_define h.declarations he _ _ _
  · next hchildren => exact Logged.records_warn_pure (h.assignment assign ha item hitem hchildren) _

theorem Permits.records_ofModule {module : Tree} (h : Permits P module) :
    (ofModule module).Records P := by
  unfold ofModule
  exact (records_readPorts h.declarations _ module).bind
    ((records_readNets h _).bind (records_readAssignments h _))

end Records

/-- The diagnostic does not say that a wire was dropped. -/
def KeepsWires (d : Diagnostic) : Prop :=
  d.finding.dropsWire = false

theorem records_ofModule (module : Tree) : (ofModule module).Records KeepsWires :=
  Permits.records_ofModule
    { declarations := fun _ _ h => Finding.not_dropsWire_of_isAboutDeclaration h
      expression := fun e _ =>
        Expr.records_ofTree e fun _ _ h => Finding.not_dropsWire_of_isAboutExpression h
      definition := fun _ _ _ _ _ _ => rfl
      assignment := fun _ _ _ _ _ => rfl }

end Draft

end Netlist
