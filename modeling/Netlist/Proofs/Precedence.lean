/-
Which definition of a net is kept.

A net may be defined any number of times, in its declarations and in assignments, and these may be
written in any mixture. One definition is kept. It would be the first one that is written, if
definitions were gathered in the order in which they are written; but the initialisers of all net
declarations are gathered before any assignment is looked at (`Tree.initialisersFirst`). So the
definition that is kept is the first initialiser, and the first assignment only for want of one
(`keepsFirst_of_load`), and an assignment that is written before an initialiser of its target is
dropped as a repetition (`not_keepsFirst_assignedEarly`).
-/
import Netlist.Proofs.Definitions

set_option autoImplicit false

namespace Netlist

namespace Tree

variable {t : Tree} {name : String}

/-! ## The order in which definitions are written -/

/-- The item is a definition in a net declaration. -/
def isInitialiser (item : Tree) : Bool :=
  item.kind == .netDeclAssignment

/-- The items in a part of a module that should each define a signal. -/
def itemsOfPart (part : Tree) : List Tree :=
  match part.kind with
  | .netDeclaration => part.childrenOf .netDeclAssignment
  | .continuousAssign => part.childrenOf .netAssignment
  | _ => []

/-- The items of a module that should each define a signal, in the order in which they are written. -/
def writtenItems (module : Tree) : List Tree :=
  module.children.flatMap itemsOfPart

/-- The items with the initialisers first. Otherwise their order stays. -/
def initialisersFirst (items : List Tree) : List Tree :=
  items.filter isInitialiser ++ items.filter fun item => !item.isInitialiser

/-- The written items that pass a test, if these are just the items in the parts of one kind. -/
theorem filter_writtenItems {k k' : NodeKind} {test : Tree → Bool} {parts : List Tree}
    (hsame : ∀ part : Tree, part.kind = k → part.itemsOfPart.filter test = part.childrenOf k')
    (hother : ∀ part : Tree, part.kind ≠ k → part.itemsOfPart.filter test = []) :
    (parts.flatMap itemsOfPart).filter test =
      (parts.filter fun c => c.kind == k).flatMap fun part => part.childrenOf k' := by
  induction parts with
  | nil => rfl
  | cons part parts ih =>
    rw [List.flatMap_cons, List.filter_append, ih]
    by_cases hk : part.kind = k
    · rw [List.filter_cons, if_pos (beq_iff_eq.2 hk), List.flatMap_cons, hsame part hk]
    · rw [List.filter_cons, if_neg (by simpa using hk), hother part hk, List.nil_append]

/-- In a module that was read the items are gathered with the initialisers first. -/
theorem IsModule.definingItems_eq (h : t.IsModule) :
    t.definingItems = initialisersFirst t.writtenItems := by
  have hinitialisers : t.writtenItems.filter isInitialiser =
      (t.childrenOf .netDeclaration).flatMap fun d => d.childrenOf .netDeclAssignment := by
    refine filter_writtenItems (fun part hk => ?_) (fun part hk => ?_)
    · rw [itemsOfPart, hk]
      exact List.filter_eq_self.2 fun item hitem => beq_iff_eq.2 (mem_childrenOf.1 hitem).2
    · unfold itemsOfPart
      split
      · next hk' => exact absurd hk' hk
      · refine List.filter_eq_nil_iff.2 fun item hitem => ?_
        simp [isInitialiser, (mem_childrenOf.1 hitem).2]
      · rfl
  have hassignments : (t.writtenItems.filter fun item => !item.isInitialiser) =
      (t.childrenOf .continuousAssign).flatMap fun a => a.childrenOf .netAssignment := by
    refine filter_writtenItems (fun part hk => ?_) (fun part hk => ?_)
    · rw [itemsOfPart, hk]
      refine List.filter_eq_self.2 fun item hitem => ?_
      simp [isInitialiser, (mem_childrenOf.1 hitem).2]
    · unfold itemsOfPart
      split
      · refine List.filter_eq_nil_iff.2 fun item hitem => ?_
        simp [isInitialiser, (mem_childrenOf.1 hitem).2]
      · next hk' => exact absurd hk' hk
      · rfl
  rw [definingItems, h.descendants_eq_childrenOf rfl, h.descendants_eq_childrenOf rfl,
    initialisersFirst, hinitialisers, hassignments]

/-! ## The definitions of a name -/

/-- The item is a definition of the name: an initialiser of it, or an assignment to just the name. -/
def defines (name : String) (item : Tree) : Bool :=
  match item.children with
  | [target, _] =>
    (item.isInitialiser || target.kind == .simpleIdentifier) && target.word == name
  | _ => false

/-- The definitions of a name in the order in which they are written. -/
def definitionsOf (module : Tree) (name : String) : List Tree :=
  module.writtenItems.filter (defines name)

/-- What stands behind the target of the item has an expression. -/
def hasExpression (item : Tree) : Bool :=
  match item.children with
  | [_, e] => (Expr.ofTree e).run.value.isSome
  | _ => false

theorem filter_initialisersFirst (items : List Tree) (test : Tree → Bool) :
    (initialisersFirst items).filter test = initialisersFirst (items.filter test) := by
  rw [initialisersFirst, List.filter_append, initialisersFirst]
  congr 1
  · rw [List.filter_comm]
  · rw [List.filter_comm]

theorem IsModule.filter_defines (h : t.IsModule) (name : String) :
    t.definingItems.filter (defines name) = initialisersFirst (t.definitionsOf name) := by
  rw [h.definingItems_eq, filter_initialisersFirst, definitionsOf]

/-- The wire has the name, the expression and the location that the item gives. -/
def Says (item : Tree) (w : Wire) : Prop :=
  ∃ target e, item.children = [target, e] ∧ w.name = target.word ∧
    (Expr.ofTree e).run.value = some w.definition ∧ w.location = item.location?

end Tree

namespace Draft

variable {d : Draft} {name : String} {item : Tree}

/-- What defines a declared name and has an expression becomes a wire. -/
theorem WellFormed.isSome_definition? (h : d.WellFormed) (hname : name ∈ d.nets.keys)
    (hdefines : item.defines name = true) (hexpr : item.hasExpression = true) :
    (d.definition? item).isSome = true := by
  unfold Tree.defines at hdefines
  split at hdefines
  · next target e hchildren =>
    rw [Bool.and_eq_true, beq_iff_eq] at hdefines
    obtain ⟨hkind, rfl⟩ := hdefines
    rw [Tree.hasExpression, hchildren] at hexpr
    have hmay : d.mayDefine item target = true := by
      rw [mayDefine, h.not_isInput _ hname, contains_iff.2 hname, Bool.and_true]
      exact hkind
    rw [definition?_of_mayDefine hchildren hmay, Option.isSome_map]
    exact hexpr
  · cases hdefines

/-- What becomes a wire defines just the name of the wire. -/
theorem defines_eq_of_definition? {x : Definition} (h : d.definition? item = some x) (name : String) :
    item.defines name = (x.name == name) := by
  obtain ⟨target, e, hchildren, hmay, hname, -⟩ := of_definition?_eq_some h
  rw [mayDefine, Bool.and_eq_true, Bool.or_eq_true, Bool.and_eq_true] at hmay
  have hkind : (item.isInitialiser || target.kind == .simpleIdentifier) = true :=
    Bool.or_eq_true _ _ ▸ hmay.2.imp_right And.left
  rw [Tree.defines, hchildren, hname]
  show ((item.isInitialiser || target.kind == .simpleIdentifier) && _) = _
  rw [hkind, Bool.true_and]

theorem says_of_definition? {w : Wire} (h : d.definition? item = some w.toDefinition) :
    item.Says w := by
  obtain ⟨target, e, hchildren, -, hname, hvalue, hlocation⟩ := of_definition?_eq_some h
  exact ⟨target, e, hchildren, hname, hvalue, hlocation⟩

/-- The wires of a name are what its definitions define, in the order in which they are gathered. -/
theorem map_toDefinition_named (t : Tree) (name : String) :
    (Wire.named name (ofModule t).value.wires).map Wire.toDefinition =
      (t.definingItems.filter (Tree.defines name)).filterMap (ofModule t).value.definition? := by
  have hnamed : (Wire.named name (ofModule t).value.wires).map Wire.toDefinition =
      ((ofModule t).value.wires.map Wire.toDefinition).filter fun x => x.name == name := by
    rw [List.filter_map]
    rfl
  rw [hnamed, definitions_ofModule, List.filter_filterMap, List.filterMap_filter]
  refine List.filterMap_congr fun item _ => ?_
  -- an item becomes a wire of the name only if it defines the name
  cases hitem : (ofModule t).value.definition? item with
  | none => simp
  | some x => rw [defines_eq_of_definition? hitem, Option.filter]

/-- The wires of a declared name are its definitions, in the order in which they are gathered. -/
theorem forall₂_named {t : Tree} (hname : name ∈ (ofModule t).value.nets.keys)
    (hexpr : ∀ item ∈ t.definingItems.filter (Tree.defines name), item.hasExpression = true) :
    List.Forall₂ Tree.Says (t.definingItems.filter (Tree.defines name))
      (Wire.named name (ofModule t).value.wires) := by
  have hcount : ((t.definingItems.filter (Tree.defines name)).countP fun item =>
      ((ofModule t).value.definition? item).isNone) = 0 := by
    refine List.countP_eq_zero.2 fun item hitem => ?_
    have hsome := (wellFormed_ofModule t).isSome_definition? hname (List.mem_filter.1 hitem).2
      (hexpr item hitem)
    simpa [Option.isSome_iff_ne_none] using hsome
  have hrows := forall₂_filterMap hcount
  rw [← map_toDefinition_named, List.forall₂_map_right_iff] at hrows
  exact hrows.imp fun _ _ => says_of_definition?

end Draft

/-! ## The definition that is kept -/

/-- Of the items the first one is the only wire of the name, and of each other one a warning says that
it repeats a definition. -/
def KeepsFirst (name : String) (items : List Tree) (ws : List Wire) (log : Log) : Prop :=
  ∃ first rest w, items = first :: rest ∧ Wire.named name ws = [w] ∧ first.Says w ∧
    (log.filter fun x => x.finding.repeats name).Perm
      (rest.map fun item => ⟨.warning, item.location?, .repeatedWire name⟩)

section KeepsFirst

variable {name : String} {items : List Tree} {ws ws' : List Wire} {log : Log}

theorem KeepsFirst.perm (h : KeepsFirst name items ws log) (hws : ws'.Perm ws) :
    KeepsFirst name items ws' log := by
  obtain ⟨first, rest, w, hitems, hnamed, hsays, hlog⟩ := h
  refine ⟨first, rest, w, hitems, ?_, hsays, hlog⟩
  have hperm := hws.filter fun w => w.name == name
  rw [← Wire.named, ← Wire.named, hnamed] at hperm
  exact List.perm_singleton.1 hperm

/-- Only the first item needs to stay where it is. -/
theorem KeepsFirst.of_perm {first : Tree} {rest rest' : List Tree}
    (h : KeepsFirst name (first :: rest) ws log) (hrest : rest.Perm rest') :
    KeepsFirst name (first :: rest') ws log := by
  obtain ⟨_, _, w, hitems, hnamed, hsays, hlog⟩ := h
  cases hitems
  exact ⟨first, rest', w, rfl, hnamed, hsays, hlog.trans (hrest.map _)⟩

end KeepsFirst

namespace Tree

theorem initialisersFirst_perm (items : List Tree) : (initialisersFirst items).Perm items :=
  List.filter_append_perm _ _

/-- If the first item is an initialiser or no item is, it stays the first one. -/
theorem initialisersFirst_cons {first : Tree} {rest : List Tree}
    (h : first.isInitialiser = true ∨ ∀ item ∈ first :: rest, item.isInitialiser = false) :
    ∃ rest', initialisersFirst (first :: rest) = first :: rest' ∧ rest'.Perm rest := by
  rcases h with hfirst | hnone
  · refine ⟨initialisersFirst rest, ?_, initialisersFirst_perm rest⟩
    rw [initialisersFirst, List.filter_cons_of_pos hfirst, List.filter_cons_of_neg (by simp [hfirst])]
    rfl
  · refine ⟨rest, ?_, .refl _⟩
    have hinitialisers : (first :: rest).filter isInitialiser = [] :=
      List.filter_eq_nil_iff.2 fun item hitem => by simp [hnone item hitem]
    have hassignments : ((first :: rest).filter fun item => !item.isInitialiser) = first :: rest :=
      List.filter_eq_self.2 fun item hitem => by simp [hnone item hitem]
    rw [initialisersFirst, hinitialisers, hassignments, List.nil_append]

end Tree

namespace Draft

variable {t : Tree} {name : String}

theorem filter_repeats_eq_nil {α : Type} {x : Logged α} (h : x.Records KeepsWires) (name : String) :
    (x.log.filter fun x => x.finding.repeats name) = [] := by
  refine List.filter_eq_nil_iff.2 fun y hy hrepeats => ?_
  have hkeeps := h y hy
  unfold KeepsWires at hkeeps
  cases hfinding : y.finding <;> simp [hfinding, Finding.repeats, Finding.dropsWire] at hrepeats hkeeps

/-- That a wire of a name was dropped is recorded only when the wires are gone through. -/
theorem filter_repeats_assemble (t : Tree) (name : String) :
    ((assemble t).log.filter fun x => x.finding.repeats name) =
      ((ofModule t).value.keepWires (ofModule t).value.wires).log.filter
        fun x => x.finding.repeats name := by
  rw [assemble_eq, Logged.log_bind, log_finish, List.filter_append, List.filter_append,
    List.filter_append, filter_repeats_eq_nil (records_ofModule t),
    filter_repeats_eq_nil (.forM fun _ _ => records_checkOutput fun _ => rfl),
    filter_repeats_eq_nil (.forM fun _ _ => records_checkNet fun _ => rfl), List.nil_append,
    List.append_nil, List.append_nil]

/-- The assembled module keeps the first definition that is gathered. -/
theorem keepsFirst_assemble (hname : name ∈ (ofModule t).value.nets.keys)
    (hne : t.definingItems.filter (Tree.defines name) ≠ [])
    (hexpr : ∀ item ∈ t.definingItems.filter (Tree.defines name), item.hasExpression = true) :
    KeepsFirst name (t.definingItems.filter (Tree.defines name)) (assemble t).value.wires
      (assemble t).log := by
  have hrows := forall₂_named hname hexpr
  obtain ⟨hvalue, hlog⟩ := keepWires_named (wellFormed_ofModule t).not_isInput_of_mem name
  obtain ⟨first, rest, hitems⟩ := List.exists_cons_of_ne_nil hne
  rw [hitems] at hrows
  obtain ⟨w, ws, hsays, hrest, hnamed⟩ := List.forall₂_cons_left_iff.1 hrows
  rw [hnamed] at hvalue hlog
  have hlocations : (rest.map fun item => (⟨.warning, item.location?, .repeatedWire name⟩ : Diagnostic)) =
      ws.map fun w => ⟨.warning, w.location, .repeatedWire name⟩ := by
    refine map_eq_map_of_forall₂ (hrest.imp fun item w hsays => ?_)
    obtain ⟨_, _, -, -, -, hlocation⟩ := hsays
    rw [hlocation]
  refine ⟨first, rest, (ofModule t).value.clean w, hitems, ?_, hsays, ?_⟩
  · rw [assemble_eq, Logged.value_bind, value_finish]
    exact hvalue
  · rw [filter_repeats_assemble, hlog, hlocations]
    exact .refl _

end Draft

/-! ## Loaded modules -/

namespace Module

variable {source : Source} {top : Option String} {root t : Tree} {s : Module}

/-- Of a net whose definitions all have expressions a loaded module keeps the first initialiser, or
the first assignment if there is none, and of every other definition it is recorded that it was
dropped. This is the first definition that is written, unless that one is an assignment and some
other one is an initialiser. -/
theorem keepsFirst_of_load (h : (load source top).run.value = .ok s) :
    ∃ root t, Grammar.parseFile (codeOf source) = .ok root ∧ select root top = .ok t ∧
      ∀ name ∈ (Draft.ofModule t).value.nets.keys, t.definitionsOf name ≠ [] →
        (∀ item ∈ t.definitionsOf name, item.hasExpression = true) →
        KeepsFirst name (Tree.initialisersFirst (t.definitionsOf name)) s.wires
          (load source top).run.log ∧
        ∀ first rest, t.definitionsOf name = first :: rest →
          (first.isInitialiser = true ∨
            ∀ item ∈ t.definitionsOf name, item.isInitialiser = false) →
          KeepsFirst name (t.definitionsOf name) s.wires (load source top).run.log := by
  obtain ⟨root, t, hroot, hselect, hs⟩ := of_load_eq_ok h
  have hmodule := isModule_of_select hroot hselect
  refine ⟨root, t, hroot, hselect, fun name hname hne hexpr => ?_⟩
  have hgathered := hmodule.filter_defines name
  have hkept : KeepsFirst name (Tree.initialisersFirst (t.definitionsOf name)) s.wires
      (load source top).run.log := by
    rw [log_load hroot hselect, ← hgathered]
    have hperm := Tree.initialisersFirst_perm (t.definitionsOf name)
    rw [← hgathered] at hperm
    refine (Draft.keepsFirst_assemble hname ?_ ?_).perm (of_schedule_eq_ok hs).2.perm
    · exact fun hnil => hne (List.nil_perm.1 (hnil ▸ hperm))
    · exact fun item hitem => hexpr item (hperm.mem_iff.1 hitem)
  refine ⟨hkept, fun first rest hwritten hfirst => ?_⟩
  rw [hwritten] at hkept hfirst ⊢
  obtain ⟨rest', heq, hperm⟩ := Tree.initialisersFirst_cons hfirst
  rw [heq] at hkept
  exact hkept.of_perm hperm

/-- A text in which an output is assigned and then declared as a net with an initialiser. -/
def assignedEarlyText : String :=
  "module m(input a, input b, output y); assign y = a; wire y = b; endmodule"

/-- The module of `assignedEarlyText`. -/
def assignedEarly : Module where
  name := "m"
  inputs := [⟨"a", 1⟩, ⟨"b", 1⟩]
  wires := [⟨"y", 1, .signal "b", NameSet.ofNames [],
    some ⟨.ofText assignedEarlyText, 57, 62⟩⟩]
  outputs := ["y"]

theorem load_assignedEarly : (load (.ofText assignedEarlyText) none).run.value = .ok assignedEarly :=
  of_toOption_eq_some (by decide +kernel)

/-- The output is a declared net with two definitions, both with expressions. -/
theorem definitionsOf_assignedEarly :
    ∃ root t, Grammar.parseFile (codeOf (.ofText assignedEarlyText)) = .ok root ∧
      select root none = .ok t ∧ "y" ∈ (Draft.ofModule t).value.nets.keys ∧
      (∀ item ∈ t.definitionsOf "y", item.hasExpression = true) ∧
      (t.definitionsOf "y").map Tree.location? =
        [some ⟨.ofText assignedEarlyText, 45, 50⟩, some ⟨.ofText assignedEarlyText, 57, 62⟩] := by
  have hfacts : ((Grammar.parseFile (codeOf (.ofText assignedEarlyText))).toOption.bind
      fun root => (select root none).toOption.map fun t =>
        ((Draft.ofModule t).value.nets.contains "y",
          (t.definitionsOf "y").all Tree.hasExpression,
          (t.definitionsOf "y").map Tree.location?)) =
      some (true, true,
        [some ⟨.ofText assignedEarlyText, 45, 50⟩, some ⟨.ofText assignedEarlyText, 57, 62⟩]) := by
    decide +kernel
  obtain ⟨root, hroot, hfacts⟩ := Option.bind_eq_some_iff.1 hfacts
  obtain ⟨t, ht, hfacts⟩ := Option.map_eq_some_iff.1 hfacts
  simp only [Prod.mk.injEq] at hfacts
  obtain ⟨hdeclared, hexpr, hlocations⟩ := hfacts
  exact ⟨root, t, of_toOption_eq_some hroot, of_toOption_eq_some ht, Draft.contains_iff.1 hdeclared,
    List.all_eq_true.1 hexpr, hlocations⟩

/-- The text is loaded, and the initialiser is kept for the output, as the first definition that is
gathered. -/
theorem keepsFirst_assignedEarly :
    (load (.ofText assignedEarlyText) none).run.value = .ok assignedEarly ∧
    ∃ root t, Grammar.parseFile (codeOf (.ofText assignedEarlyText)) = .ok root ∧
      select root none = .ok t ∧ "y" ∈ (Draft.ofModule t).value.nets.keys ∧
      t.definitionsOf "y" ≠ [] ∧ (∀ item ∈ t.definitionsOf "y", item.hasExpression = true) ∧
      KeepsFirst "y" (Tree.initialisersFirst (t.definitionsOf "y")) assignedEarly.wires
        (load (.ofText assignedEarlyText) none).run.log := by
  obtain ⟨root, t, hroot, hselect, hdeclared, hexpr, hlocations⟩ := definitionsOf_assignedEarly
  obtain ⟨root', t', hroot', hselect', hkeeps⟩ := keepsFirst_of_load load_assignedEarly
  cases hroot.symm.trans hroot'
  cases hselect.symm.trans hselect'
  have hne : t.definitionsOf "y" ≠ [] := by
    rintro hnil
    rw [hnil] at hlocations
    cases hlocations
  exact ⟨load_assignedEarly, root, t, hroot, hselect, hdeclared, hne, hexpr,
    (hkeeps "y" hdeclared hne hexpr).1⟩

/-- The assignment is written first, and it is not the definition that is kept. -/
theorem not_keepsFirst_assignedEarly :
    ∃ root t s, Grammar.parseFile (codeOf (.ofText assignedEarlyText)) = .ok root ∧
      select root none = .ok t ∧ (load (.ofText assignedEarlyText) none).run.value = .ok s ∧
      "y" ∈ (Draft.ofModule t).value.nets.keys ∧
      (∀ item ∈ t.definitionsOf "y", item.hasExpression = true) ∧
      ¬KeepsFirst "y" (t.definitionsOf "y") s.wires
        (load (.ofText assignedEarlyText) none).run.log := by
  obtain ⟨root, t, hroot, hselect, hdeclared, hexpr, hlocations⟩ := definitionsOf_assignedEarly
  refine ⟨root, t, assignedEarly, hroot, hselect, load_assignedEarly, hdeclared, hexpr, ?_⟩
  rintro ⟨first, rest, w, hitems, hnamed, ⟨_, _, -, -, -, hlocation⟩, -⟩
  rw [hitems, List.map_cons, List.cons.injEq] at hlocations
  have hw : w = assignedEarly.wires.head (by decide) := by
    have hkept : Wire.named "y" assignedEarly.wires = assignedEarly.wires := by decide
    rw [hkept] at hnamed
    exact (List.cons.inj hnamed).1.symm
  rw [hlocations.1, hw] at hlocation
  exact absurd hlocation (by decide)

end Module

end Netlist
