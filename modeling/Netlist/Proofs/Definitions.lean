/-
The definitions of a module and the wires that are made of them.

A tree defines signals in two kinds of places: in net declarations and in assignments. Each such
item becomes a wire or does not, and there are many reasons why it does not. Two accounts are kept
of this at once (`Draft.Adds`): the wires that a pass adds are those of the items that stand for a
definition, in the order of the items, and for each item that stands for none a warning is recorded.
Both go through work in sequence and through rows, so that in the end no definition is lost without
a word.
-/
import Netlist.Proofs.WellFormed

set_option autoImplicit false

namespace Netlist

/-! ## Rows -/

section FilterMap

variable {α β : Type} {f : α → Option β} {xs : List α}

theorem length_filterMap_add_countP (f : α → Option β) (xs : List α) :
    (xs.filterMap f).length + (xs.countP fun x => (f x).isNone) = xs.length := by
  induction xs with
  | nil => rfl
  | cons x xs ih =>
    rw [List.filterMap_cons, List.countP_cons, List.length_cons, ← ih]
    cases f x with
    | none => rfl
    | some y =>
      rw [List.length_cons]
      exact Nat.add_right_comm _ _ _

/-- If no member is left out, the rows go side by side. -/
theorem forall₂_filterMap (h : (xs.countP fun x => (f x).isNone) = 0) :
    List.Forall₂ (fun x y => f x = some y) xs (xs.filterMap f) := by
  induction xs with
  | nil => exact .nil
  | cons x xs ih =>
    rw [List.countP_cons, Nat.add_eq_zero_iff] at h
    rw [List.filterMap_cons]
    cases hx : f x with
    | none => simp [hx] at h
    | some y => exact .cons hx (ih h.1)

end FilterMap

/-- Rows whose members agree side by side in what is made of them give the same row. -/
theorem map_eq_map_of_forall₂ {α β γ : Type} {f : α → γ} {g : β → γ} {xs : List α} {ys : List β}
    (h : List.Forall₂ (fun x y => f x = g y) xs ys) : xs.map f = ys.map g := by
  induction h with
  | nil => rfl
  | cons hxy _ ih => rw [List.map_cons, List.map_cons, hxy, ih]

/-- Of a row of rows, a test picks out one if it passes all of that and nothing of the others. -/
theorem filter_flatMap_of_unique {α β : Type} {f : α → List β} {p : β → Bool} {xs : List α} {x : α}
    (hnodup : xs.Nodup) (hx : x ∈ xs) (hself : ∀ b ∈ f x, p b = true)
    (hother : ∀ y ∈ xs, y ≠ x → ∀ b ∈ f y, ¬p b = true) : (xs.flatMap f).filter p = f x := by
  induction xs with
  | nil => cases hx
  | cons y ys ih =>
    obtain ⟨hy, hnodup⟩ := List.nodup_cons.1 hnodup
    rw [List.flatMap_cons, List.filter_append]
    by_cases heq : y = x
    · subst heq
      have hrest : (ys.flatMap f).filter p = [] := by
        rw [List.filter_eq_nil_iff]
        intro b hb
        obtain ⟨z, hz, hb⟩ := List.mem_flatMap.1 hb
        exact hother z (List.mem_cons_of_mem _ hz) (fun h => hy (h ▸ hz)) b hb
      rw [List.filter_eq_self.2 hself, hrest, List.append_nil]
    · rw [List.filter_eq_nil_iff.2 (hother y List.mem_cons_self heq), List.nil_append]
      exact ih hnodup ((List.mem_cons.1 hx).resolve_left (Ne.symm heq))
        fun z hz => hother z (List.mem_cons_of_mem _ hz)

/-! ## Definitions -/

/-- A name, the expression that it stands for, and where that is said. -/
structure Definition where
  name : String
  value : Expr
  location : Option Location

/-- What the wire says, without what follows from it and from the net. -/
def Wire.toDefinition (w : Wire) : Definition :=
  ⟨w.name, w.definition, w.location⟩

/-- The items of a module that should each define a signal: initialisers in its net declarations,
and behind them its assignments. -/
def Tree.definingItems (module : Tree) : List Tree :=
  ((module.descendants .netDeclaration).flatMap fun d => d.childrenOf .netDeclAssignment) ++
    (module.descendants .continuousAssign).flatMap fun a => a.childrenOf .netAssignment

namespace Draft

/-- The target may be defined by the item: it is no input, and in an assignment it is a name that is
declared. -/
def mayDefine (d : Draft) (item target : Tree) : Bool :=
  !d.isInput target.word &&
    (item.kind == .netDeclAssignment ||
      target.kind == .simpleIdentifier && d.nets.contains target.word)

/-- What the item defines, if it has a target that may be defined and an expression for it. -/
def definition? (d : Draft) (item : Tree) : Option Definition :=
  match item.children with
  | [target, e] =>
    if d.mayDefine item target then
      (Expr.ofTree e).run.value.map fun value => ⟨target.word, value, item.location?⟩
    else none
  | _ => none

variable {base d : Draft} {item target e : Tree} {items : List Tree} {r : Logged Draft}

theorem definition?_of_mayDefine (hchildren : item.children = [target, e])
    (h : d.mayDefine item target = true) :
    d.definition? item =
      (Expr.ofTree e).run.value.map fun value => ⟨target.word, value, item.location?⟩ := by
  rw [definition?, hchildren]
  exact if_pos h

theorem definition?_eq_none_of_mayDefine (hchildren : item.children = [target, e])
    (h : d.mayDefine item target = false) : d.definition? item = none := by
  rw [definition?, hchildren]
  exact if_neg (by rw [h]; exact Bool.false_ne_true)

/-- An item without a target and an expression defines nothing. -/
theorem definition?_eq_none_of_children
    (h : ∀ target e, item.children = [target, e] → False) : d.definition? item = none := by
  unfold definition?
  split
  · next target e hchildren => exact (h target e hchildren).elim
  · rfl

/-- What an item defines says which target and which expression it has. -/
theorem of_definition?_eq_some {x : Definition} (h : d.definition? item = some x) :
    ∃ target e, item.children = [target, e] ∧ d.mayDefine item target = true ∧
      x.name = target.word ∧ (Expr.ofTree e).run.value = some x.value ∧
      x.location = item.location? := by
  unfold definition? at h
  split at h
  · next target e hchildren =>
    split at h
    · next hmay =>
      obtain ⟨value, hvalue, rfl⟩ := Option.map_eq_some_iff.1 h
      exact ⟨target, e, hchildren, hmay, rfl, hvalue, rfl⟩
    · cases h
  · cases h

/-! ## Both accounts -/

/-- The work adds to a draft just the wires that the items define, in their order, and it records at
least one warning for each item that defines nothing. Whether an item defines something is
decided by the inputs and nets of `base`. -/
structure Adds (base : Draft) (items : List Tree) (d : Draft) (r : Logged Draft) : Prop where
  definitions : r.value.wires.map Wire.toDefinition =
    d.wires.map Wire.toDefinition ++ items.filterMap base.definition?
  warnings : (items.countP fun item => (base.definition? item).isNone) ≤ r.log.warnings.length

/-- Work that leaves the wires alone does what is to be done for no items. -/
theorem adds_nil (h : r.value.wires = d.wires) : base.Adds [] d r where
  definitions := by rw [h, List.filterMap_nil, List.append_nil]
  warnings := Nat.zero_le _

/-- An item that defines nothing asks for a warning. -/
theorem adds_refused (hitem : base.definition? item = none) (hwires : r.value.wires = d.wires)
    (hwarn : 0 < r.log.warnings.length) : base.Adds [item] d r where
  definitions := by rw [hwires, List.filterMap_cons, hitem, List.filterMap_nil, List.append_nil]
  warnings := by simpa [hitem, Nat.succ_le_iff] using hwarn

theorem Adds.append {more : List Tree} {f : Draft → Logged Draft} (hr : base.Adds items d r)
    (hf : base.Adds more r.value (f r.value)) : base.Adds (items ++ more) d (r >>= f) where
  definitions := by
    rw [Logged.value_bind, hf.definitions, hr.definitions, List.filterMap_append,
      List.append_assoc]
  warnings := by
    rw [Logged.log_bind, Log.warnings_append, List.length_append, List.countP_append]
    exact Nat.add_le_add hr.warnings hf.warnings

/-- Only the wires of the draft matter. -/
theorem Adds.congr {d' : Draft} (h : base.Adds items d r) (hwires : d.wires = d'.wires) :
    base.Adds items d' r where
  definitions := by rw [h.definitions, hwires]
  warnings := h.warnings

/-- Whatever was recorded before does no harm. -/
theorem Adds.after {α : Type} {x : Logged α} {f : α → Logged Draft}
    (h : base.Adds items d (f x.value)) : base.Adds items d (x >>= f) where
  definitions := h.definitions
  warnings := by
    rw [Logged.log_bind, Log.warnings_append, List.length_append]
    exact Nat.le_trans h.warnings (Nat.le_add_left _ _)

/-- A row of work does what is to be done for the items of all its members. What the members rely on
has to hold before and to stay. -/
theorem adds_foldlM {α : Type} {I : Draft → Prop} {step : Draft → α → Logged Draft}
    {itemsOf : α → List Tree} {xs : List α} (hkeep : ∀ d x, I d → I (step d x).value)
    (hstep : ∀ d, ∀ x ∈ xs, I d → base.Adds (itemsOf x) d (step d x)) (h : I d) :
    base.Adds (xs.flatMap itemsOf) d (xs.foldlM step d) := by
  induction xs generalizing d with
  | nil => exact adds_nil rfl
  | cons x xs ih =>
    rw [List.foldlM_cons, List.flatMap_cons]
    have hrest := ih (fun d y hy => hstep d y (List.mem_cons_of_mem _ hy)) (hkeep d x h)
    exact (hstep d x List.mem_cons_self h).append hrest

/-! ## Definitions -/

/-- A definition is added, or it has no expression and two warnings say so. -/
theorem adds_define (hchildren : item.children = [target, e])
    (hmay : base.mayDefine item target = true) :
    base.Adds [item] d (d.define target.word e item.location?) := by
  have hitem := definition?_of_mayDefine hchildren hmay
  rcases Expr.answers_ofTree e with ⟨expr, he⟩ | ⟨location, finding, -, he⟩
  · rw [he] at hitem
    have hdefine : (d.define target.word e item.location?).value.wires.map Wire.toDefinition =
        d.wires.map Wire.toDefinition ++ [⟨target.word, expr, item.location?⟩] := by
      rw [define, he]
      exact List.map_append
    refine ⟨?_, ?_⟩
    · rw [hdefine, List.filterMap_cons, hitem]
      rfl
    · simp [hitem]
  · rw [he] at hitem
    refine adds_refused hitem ?_ ?_
    · rw [define, he]
      rfl
    · rw [define, he]
      exact Nat.succ_pos _

/-! ## Net declarations -/

theorem inputs_define (d : Draft) (name : String) (e : Tree) (location : Option Location) :
    (d.define name e location).value.inputs = d.inputs := by
  rcases d.define_cases name e location with ⟨_, -, hvalue⟩ | ⟨-, hvalue⟩ <;> rw [hvalue]

theorem inputs_declareNet (d : Draft) (name : String) (width : Nat) (location : Option Location) :
    (d.declareNet name width location).value.inputs = d.inputs := by
  rcases d.declareNet_cases name width location with ⟨hvalue, -⟩ | ⟨hvalue, -⟩ <;> rw [hvalue]

theorem inputs_addNet (d : Draft) (width : Nat) (item nameNode : Tree) (definition : Option Tree) :
    (d.addNet width item nameNode definition).value.inputs = d.inputs := by
  unfold addNet
  dsimp only
  split
  · split <;> rfl
  · rw [Logged.value_bind]
    split
    · rw [inputs_define, inputs_declareNet]
    · exact inputs_declareNet ..

theorem inputs_addNetItem (width : Nat) (d : Draft) (item : Tree) :
    (addNetItem width d item).value.inputs = d.inputs := by
  unfold addNetItem
  split
  · exact inputs_addNet ..
  · exact inputs_addNet ..
  · rfl
  · rfl

theorem inputs_addNets (d : Draft) (declaration : Tree) :
    (addNets d declaration).value.inputs = d.inputs :=
  Logged.foldlM_preserves (P := fun d' : Draft => d'.inputs = d.inputs)
    (fun d' item _ h => (inputs_addNetItem _ d' item).trans h) rfl

theorem inputs_readNets (d : Draft) (module : Tree) :
    (d.readNets module).value.inputs = d.inputs :=
  Logged.foldlM_preserves (P := fun d' : Draft => d'.inputs = d.inputs)
    (fun d' declaration _ h => (inputs_addNets d' declaration).trans h) rfl

theorem isInput_congr (h : d.inputs = base.inputs) (name : String) :
    d.isInput name = base.isInput name := by
  rw [isInput, h, ← isInput]

/-- A name alone is declared and not defined. -/
theorem wires_addNet_none (d : Draft) (width : Nat) (item nameNode : Tree) :
    (d.addNet width item nameNode none).value.wires = d.wires := by
  unfold addNet
  dsimp only
  split
  · split <;> rfl
  · exact wires_declareNet ..

/-- An initialiser defines its net, unless that is an input. -/
theorem adds_addNet (hinputs : d.inputs = base.inputs) (hkind : item.kind = .netDeclAssignment)
    (hchildren : item.children = [target, e]) (width : Nat) :
    base.Adds [item] d (d.addNet width item target (some e)) := by
  unfold addNet
  dsimp only
  rw [isInput_congr hinputs]
  split
  · next hinput =>
    have hrefused : base.mayDefine item target = false := by simp [mayDefine, hinput]
    exact adds_refused (definition?_eq_none_of_mayDefine hchildren hrefused) rfl Nat.one_pos
  · next hinput =>
    have hmay : base.mayDefine item target = true := by simp [mayDefine, hinput, hkind]
    exact .after ((adds_define hchildren hmay).congr (wires_declareNet ..))

/-- Among the children of a net declaration those that have an initialiser define a signal. -/
theorem adds_addNetItem (hinputs : d.inputs = base.inputs) (width : Nat) (item : Tree) :
    base.Adds ([item].filter fun c => c.kind == .netDeclAssignment) d (addNetItem width d item) := by
  unfold addNetItem
  split
  · next hkind =>
    rw [List.filter_cons_of_neg (by simp [hkind]), List.filter_nil]
    exact adds_nil (wires_addNet_none ..)
  · next nameNode e hkind hchildren =>
    rw [List.filter_cons_of_pos (by simp [hkind]), List.filter_nil]
    exact adds_addNet hinputs hkind hchildren width
  · next hkind hchildren =>
    rw [List.filter_cons_of_pos (by simp [hkind]), List.filter_nil]
    exact adds_refused (definition?_eq_none_of_children hchildren) rfl Nat.one_pos
  · next hname hkind hpair =>
    rw [List.filter_cons_of_neg (by simpa using hkind), List.filter_nil]
    exact adds_nil rfl

theorem adds_readNets (hinputs : d.inputs = base.inputs) (module : Tree) :
    base.Adds ((module.descendants .netDeclaration).flatMap fun d => d.childrenOf .netDeclAssignment)
      d (d.readNets module) := by
  refine adds_foldlM (I := fun d => d.inputs = base.inputs)
    (fun d declaration h => (inputs_addNets d declaration).trans h) (fun d declaration _ h => ?_)
    hinputs
  refine .after ?_
  have hitems : declaration.childrenOf .netDeclAssignment =
      declaration.children.flatMap fun c => [c].filter fun c => c.kind == .netDeclAssignment := by
    rw [← List.filter_flatMap, List.flatMap_singleton', Tree.childrenOf]
  rw [hitems]
  exact adds_foldlM (fun d item h => (inputs_addNetItem _ d item).trans h)
    (fun d item _ h => adds_addNetItem h _ item) h

/-! ## Assignments -/

theorem nets_define (d : Draft) (name : String) (e : Tree) (location : Option Location) :
    (d.define name e location).value.nets = d.nets := by
  rcases d.define_cases name e location with ⟨_, -, hvalue⟩ | ⟨-, hvalue⟩ <;> rw [hvalue]

/-- Drafts with the same inputs and the same nets, which decide what may be defined. -/
def SameSignals (d base : Draft) : Prop :=
  d.inputs = base.inputs ∧ d.nets = base.nets

theorem SameSignals.symm (h : d.SameSignals base) : base.SameSignals d :=
  ⟨h.1.symm, h.2.symm⟩

theorem SameSignals.addAssignment (h : d.SameSignals base) (item : Tree) :
    (addAssignment d item).value.SameSignals base := by
  unfold Draft.addAssignment
  split
  · dsimp only
    split
    · exact h
    · split
      · exact h
      · split
        · exact h
        · exact ⟨(inputs_define ..).trans h.1, (nets_define ..).trans h.2⟩
  · exact h

theorem SameSignals.addAssignments (h : d.SameSignals base) (items : List Tree) :
    (items.foldlM Draft.addAssignment d).value.SameSignals base :=
  Logged.foldlM_preserves (P := fun d : Draft => d.SameSignals base)
    (fun _ item _ h => h.addAssignment item) h

theorem SameSignals.readAssignments (h : d.SameSignals base) (module : Tree) :
    (d.readAssignments module).value.SameSignals base :=
  Logged.foldlM_preserves (P := fun d : Draft => d.SameSignals base)
    (fun _ _ _ h => h.addAssignments _) h

/-- An assignment defines its target if that is a declared name and no input. -/
theorem adds_addAssignment (h : d.SameSignals base) (hkind : item.kind = .netAssignment) :
    base.Adds [item] d (addAssignment d item) := by
  obtain ⟨hinputs, hnets⟩ := h
  unfold addAssignment
  split
  · next target e hchildren =>
    dsimp only
    rw [isInput_congr hinputs, hnets]
    have hrefused : ∀ finding location, base.mayDefine item target = false →
        base.Adds [item] d (do Logged.warn location finding; return d) := by
      intro finding location hmay
      exact adds_refused (definition?_eq_none_of_mayDefine hchildren hmay) rfl Nat.one_pos
    split
    · next htarget => exact hrefused _ _ (by simp [mayDefine, hkind, htarget])
    · next htarget =>
      split
      · next hinput => exact hrefused _ _ (by simp [mayDefine, hinput])
      · next hinput =>
        split
        · next hnet => exact hrefused _ _ (by simp [mayDefine, hkind, by simpa using hnet])
        · next hnet =>
          rw [Ne, not_not] at htarget
          refine adds_define hchildren ?_
          simp [mayDefine, hinput, htarget, by simpa using hnet]
  · next hchildren =>
    exact adds_refused (definition?_eq_none_of_children hchildren) rfl Nat.one_pos

theorem adds_readAssignments (h : d.SameSignals base) (module : Tree) :
    base.Adds ((module.descendants .continuousAssign).flatMap fun a => a.childrenOf .netAssignment)
      d (d.readAssignments module) := by
  refine adds_foldlM (I := fun d => d.SameSignals base) (fun d assign h => h.addAssignments _)
    (fun d assign _ h => ?_) h
  have hrow : base.Adds ((assign.childrenOf .netAssignment).flatMap fun item => [item]) d
      ((assign.childrenOf .netAssignment).foldlM addAssignment d) :=
    adds_foldlM (I := fun d => d.SameSignals base) (fun d item h => h.addAssignment item)
      (fun d item hitem h => adds_addAssignment h (Tree.mem_childrenOf.1 hitem).2) h
  rwa [List.flatMap_singleton'] at hrow

/-! ## The whole module -/

/-- The draft of a module has just the wires that the items of the module define, in the order of the
items, and at least one warning was recorded for each item that defines nothing. The draft itself
says whether an item defines something: its inputs are complete before the first definition is
looked at, and its nets before the first assignment. -/
theorem adds_ofModule (module : Tree) :
    (ofModule module).value.Adds module.definingItems start (ofModule module) := by
  have hassigns : (ofModule module).value.SameSignals
      ((start.readPorts module).value.readNets module).value :=
    SameSignals.readAssignments ⟨rfl, rfl⟩ module
  have hinputs : (start.readPorts module).value.inputs = (ofModule module).value.inputs := by
    rw [hassigns.1, inputs_readNets]
  have hboth := (adds_readNets hinputs module).append (f := fun d => d.readAssignments module)
    (adds_readAssignments hassigns.symm module)
  have hdraft : (ofModule module).value.Adds module.definingItems (start.readPorts module).value
      (ofModule module) := hboth.after
  exact hdraft.congr (wires_readPorts start module)

/-- The wires of the draft are those that the items define, in the order of the items. -/
theorem definitions_ofModule (module : Tree) :
    (ofModule module).value.wires.map Wire.toDefinition =
      module.definingItems.filterMap (ofModule module).value.definition? :=
  (adds_ofModule module).definitions

end Draft

namespace Module

open Draft

variable {root t : Tree} {top : Option String} {m : Module}

/-- Every item becomes a wire of the module, or a warning is recorded of it. -/
theorem length_definingItems_le (t : Tree) :
    t.definingItems.length ≤
      (assemble t).value.wires.length + (assemble t).log.warnings.length := by
  have hmade : (ofModule t).value.wires.length =
      (t.definingItems.filterMap (ofModule t).value.definition?).length := by
    rw [← definitions_ofModule, List.length_map]
  have hitems := length_filterMap_add_countP (ofModule t).value.definition? t.definingItems
  have hwarned := (adds_ofModule t).warnings
  have hkept := (ofModule t).value.length_keepWires (ofModule t).value.wires
  rw [assemble_eq, Logged.value_bind, Logged.log_bind, value_finish, log_finish,
    Log.warnings_append, Log.warnings_append, List.length_append, List.length_append]
  dsimp only
  omega

/-- If no warning is recorded of a draft, each item becomes a wire. -/
theorem forall₂_definition?_of_silent (hdraft : (ofModule t).log.warnings = [])
    (hkept : ((ofModule t).value.keepWires (ofModule t).value.wires).log.warnings = []) :
    List.Forall₂ (fun item w => (ofModule t).value.definition? item = some w.toDefinition)
      t.definingItems ((ofModule t).value.keepWires (ofModule t).value.wires).value := by
  have hcount := (adds_ofModule t).warnings
  rw [hdraft, List.length_nil, Nat.le_zero] at hcount
  have hmap : ((ofModule t).value.keepWires (ofModule t).value.wires).value.map Wire.toDefinition =
      t.definingItems.filterMap (ofModule t).value.definition? := by
    rw [keepWires_of_silent hkept, List.map_map, ← definitions_ofModule]
    rfl
  rw [← List.forall₂_map_right_iff (R := fun item x => (ofModule t).value.definition? item = some x),
    hmap]
  exact forall₂_filterMap hcount

/-- If no warning is recorded of the outputs, all of them are defined. -/
theorem isDefined_of_silent {d : Draft} (h : (d.outputs.forM d.checkOutput).log.warnings = []) :
    ∀ name ∈ d.outputs, d.isDefined name = true := by
  intro name hname
  by_contra hnot
  have hwarn : (d.checkOutput name).log.warnings ≠ [] := by
    rw [checkOutput, if_neg hnot]
    exact List.cons_ne_nil _ _
  rw [Logged.log_forM, Log.warnings, List.filter_flatMap, List.flatMap_eq_nil_iff] at h
  exact hwarn (h name hname)

/-- No definition is lost without a word. There are at most as many items that should define a signal
as there are wires and warnings. If no warning is recorded, the wires are just the definitions: one
for each item, in the order of the items, with the name of its target and with its expression. Then
each output is a wire as well. -/
theorem definitions_of_ofTree (h : (ofTree root top).run.value = .ok m) :
    ∃ t, select root top = .ok t ∧
      t.definingItems.length ≤ m.wires.length + (ofTree root top).run.log.warnings.length ∧
      ((ofTree root top).run.log.warnings = [] →
        List.Forall₂ (fun item w => ∃ target e, item.children = [target, e] ∧
          w.name = target.word ∧ (Expr.ofTree e).run.value = some w.definition)
          t.definingItems m.wires ∧
        ∀ name ∈ m.outputs, name ∈ m.wireNames) := by
  obtain ⟨t, ht, rfl⟩ := of_ofTree_eq_ok h
  rw [log_ofTree ht]
  refine ⟨t, ht, length_definingItems_le t, fun hsilent => ?_⟩
  rw [assemble_eq, Logged.log_bind, log_finish, Log.warnings_append, Log.warnings_append,
    Log.warnings_append, List.append_eq_nil_iff, List.append_eq_nil_iff,
    List.append_eq_nil_iff] at hsilent
  obtain ⟨hdraft, hkept, houtputs, -⟩ := hsilent
  rw [assemble_eq, Logged.value_bind, value_finish]
  refine ⟨(forall₂_definition?_of_silent hdraft hkept).imp fun item w hitem => ?_, ?_⟩
  · obtain ⟨target, e, hchildren, -, hname, hvalue, -⟩ := of_definition?_eq_some hitem
    exact ⟨target, e, hchildren, hname, hvalue⟩
  · intro name hname
    have hdefined := isDefined_of_silent (d := (ofModule t).value.pruned) houtputs name hname
    obtain ⟨w, hw, hwname⟩ := List.any_eq_true.1 hdefined
    exact List.mem_map.2 ⟨w, hw, beq_iff_eq.1 hwname⟩

/-- A module whose output is assigned what a net says that is declared, with its definition, behind
the assignment. -/
def relay : Tree :=
  .branch .sourceFile [.branch .moduleDeclaration [.leaf .simpleIdentifier "m",
    .branch .portDeclaration [.leaf .portDirection "input", .leaf .simpleIdentifier "a"],
    .branch .portDeclaration [.leaf .portDirection "output", .leaf .simpleIdentifier "y"],
    .branch .continuousAssign [
      .branch .netAssignment [.leaf .simpleIdentifier "y", .leaf .simpleIdentifier "w"]],
    .branch .netDeclaration [
      .branch .netDeclAssignment [.leaf .simpleIdentifier "w", .leaf .simpleIdentifier "a"]]]]

/-- The module of `relay`. -/
def relayModule : Module where
  name := "m"
  inputs := [⟨"a", 1⟩]
  wires := [⟨"w", 1, .signal "a", NameSet.ofNames [], none⟩,
    ⟨"y", 1, .signal "w", NameSet.ofNames ["w"], none⟩]
  outputs := ["y"]

/-- No warning is recorded, so the net and the output are wires, in this order. -/
theorem definitions_relay :
    (ofTree relay none).run.value = .ok relayModule ∧
    (ofTree relay none).run.log.warnings = [] ∧
    ∃ t, select relay none = .ok t ∧
      t.definingItems.length ≤
        relayModule.wires.length + (ofTree relay none).run.log.warnings.length ∧
      List.Forall₂ (fun item w => ∃ target e, item.children = [target, e] ∧
        w.name = target.word ∧ (Expr.ofTree e).run.value = some w.definition)
        t.definingItems relayModule.wires ∧
      ∀ name ∈ relayModule.outputs, name ∈ relayModule.wireNames := by
  have hmodule : (ofTree relay none).run.value = .ok relayModule :=
    of_toOption_eq_some (by decide +kernel)
  have hsilent : (ofTree relay none).run.log.warnings = [] :=
    List.isEmpty_iff.1 (by decide +kernel)
  obtain ⟨t, ht, hlength, hdefinitions⟩ := definitions_of_ofTree hmodule
  exact ⟨hmodule, hsilent, t, ht, hlength, hdefinitions hsilent⟩

end Module

end Netlist
