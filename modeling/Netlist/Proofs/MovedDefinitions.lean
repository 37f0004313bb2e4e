/-
A definition that is moved from a declaration into an assignment.

An initialiser declares a net and defines it. Taken out, it leaves the name behind, which declares the
same net (`TakesOut.declared_eq`); and an assignment that is put in declares nothing
(`PutsIn.declared_eq`). Either way there is one item less or more that should define a signal, and the
others are gathered as before (`Tree.GainsItem`). So if the initialiser is the only definition of
its net, and the assignment gives the net the same expression, then each name is given the same
expressions as before, and the module is the same but for the order of its wires
(`rearranges_of_moved`). What is left may stand elsewhere.
-/
import Netlist.Proofs.ListedPorts
import Netlist.Proofs.NamedWires
import Netlist.Proofs.Recovery
import Netlist.Proofs.RelocatedModules

set_option autoImplicit false

namespace Netlist

variable {g : Relocation}

/-- What a row of work leaves behind, seen through a function that each step respects. -/
theorem Logged.map_value_foldlM {σ τ α : Type} {f : σ → α → Logged σ} (image : σ → τ)
    {step : τ → α → τ} (h : ∀ s x, image (f s x).value = step (image s) x) (xs : List α) (s : σ) :
    image (xs.foldlM f s).value = xs.foldl step (image s) := by
  induction xs generalizing s with
  | nil => rfl
  | cons x xs ih => rw [List.foldlM_cons, Logged.value_bind, ih, h, List.foldl_cons]

/-! ## What is declared -/

namespace Tree

/-- The name that a child of a net declaration declares: a name alone, or one with an initialiser. -/
def declaredName? (item : Tree) : Option Tree :=
  match item.kind, item.children with
  | .simpleIdentifier, _ => some item
  | .netDeclAssignment, [nameNode, _] => some nameNode
  | _, _ => none

theorem declaredName?_eq_none {item : Tree} (hname : item.kind ≠ .simpleIdentifier)
    (hdefined : ∀ nameNode e, item.kind = .netDeclAssignment → item.children ≠ [nameNode, e]) :
    item.declaredName? = none := by
  unfold declaredName?
  split
  · next hkind => exact absurd hkind hname
  · next hkind hchildren => exact absurd hchildren (hdefined _ _ hkind)
  · rfl

/-- The width and the names that a net declaration declares. -/
def declaredNets (declaration : Tree) : Nat × List Tree :=
  (declaration.declaredWidth.value, declaration.children.filterMap declaredName?)

end Tree

namespace Draft

variable {d d' : Draft} {t t' : Tree}

/-- What is declared, without what is defined. -/
def declared (d : Draft) : Draft :=
  { d with wires := [] }

/-- Declares a net. -/
def declare (width : Nat) (d : Draft) (nameNode : Tree) : Draft :=
  (d.addNet width nameNode nameNode none).value

/-- Declares nets of one width. -/
def declareNets (d : Draft) (nets : Nat × List Tree) : Draft :=
  nets.2.foldl (declare nets.1) d

theorem declared_define (d : Draft) (name : String) (e : Tree) (location : Option Location) :
    (d.define name e location).value.declared = d.declared := by
  rcases d.define_cases name e location with ⟨_, -, hvalue⟩ | ⟨-, hvalue⟩
  · rw [hvalue]
    rfl
  · rw [hvalue]

theorem declared_declareNet (d : Draft) (name : String) (width : Nat)
    (location : Option Location) :
    (d.declareNet name width location).value.declared =
      (d.declared.declareNet name width location).value := by
  have hnets : d.declared.nets = d.nets := rfl
  rw [declareNet, declareNet, hnets]
  cases d.nets.get? name with
  | none => rfl
  | some net =>
    dsimp only
    split
    · split <;> rfl
    · rfl

theorem declared_addNet (d : Draft) (width : Nat) (item nameNode : Tree)
    (definition : Option Tree) :
    (d.addNet width item nameNode definition).value.declared =
      d.declared.declare width nameNode := by
  have hinput : d.declared.isInput nameNode.word = d.isInput nameNode.word := rfl
  rw [declare, addNet, addNet]
  dsimp only
  rw [hinput]
  split
  · split <;> rfl
  · rw [Logged.value_bind]
    have hdeclared := d.declared_declareNet nameNode.word width nameNode.location?
    cases definition with
    | none => exact hdeclared
    | some e => exact (declared_define ..).trans hdeclared

theorem declared_addNetItem (width : Nat) (d : Draft) (item : Tree) :
    (addNetItem width d item).value.declared =
      item.declaredName?.elim d.declared (declare width d.declared) := by
  unfold addNetItem
  split
  · next hkind =>
    rw [Tree.declaredName?, hkind]
    exact declared_addNet ..
  · next hkind hchildren =>
    rw [Tree.declaredName?, hkind, hchildren]
    exact declared_addNet ..
  · next hkind hchildren =>
    rw [Tree.declaredName?_eq_none (by rw [hkind]; decide) fun n e _ => hchildren n e]
    rfl
  · next hname hkind _ =>
    rw [Tree.declaredName?_eq_none hname fun _ _ h _ => hkind h]
    rfl

/-- A net declaration declares its names with its width, whatever else it says. -/
theorem declared_addNets (d : Draft) (declaration : Tree) :
    (addNets d declaration).value.declared = d.declared.declareNets declaration.declaredNets := by
  have hrow : (declaration.children.foldlM (addNetItem declaration.declaredWidth.value) d).value.declared =
      declaration.children.foldl (fun d item =>
        item.declaredName?.elim d (declare declaration.declaredWidth.value d)) d.declared :=
    Logged.map_value_foldlM declared (declared_addNetItem _) _ d
  rw [addNets, Logged.value_bind, hrow, declareNets, Tree.declaredNets, List.foldl_filterMap]
  refine congrArg (fun step => List.foldl step d.declared _) (funext fun d => funext fun item => ?_)
  cases item.declaredName? <;> rfl

theorem declared_readNets (d : Draft) (module : Tree) :
    (d.readNets module).value.declared =
      ((module.descendants .netDeclaration).map Tree.declaredNets).foldl declareNets d.declared := by
  rw [List.foldl_map]
  exact Logged.map_value_foldlM declared declared_addNets _ d

theorem declared_readAssignments (d : Draft) (module : Tree) :
    (d.readAssignments module).value.declared = d.declared := by
  have hitem : ∀ (d' : Draft) (item : Tree), d'.declared = d.declared →
      (addAssignment d' item).value.declared = d.declared := by
    intro d' item h
    unfold addAssignment
    split
    · dsimp only
      split
      · exact h
      · split
        · exact h
        · split
          · exact h
          · exact (declared_define ..).trans h
    · exact h
  unfold readAssignments
  refine Logged.foldlM_preserves (P := fun d' : Draft => d'.declared = d.declared)
    (fun d' assign _ h => ?_) rfl
  exact Logged.foldlM_preserves (P := fun d' : Draft => d'.declared = d.declared)
    (fun d' item _ h => hitem d' item h) h

/-- What a module declares is in its declarations of ports and nets. -/
theorem declared_ofModule (t : Tree) :
    (ofModule t).value.declared =
      ((t.descendants .netDeclaration).map Tree.declaredNets).foldl declareNets
        ((t.descendants .portDeclaration).foldlM addPorts start).value.declared := by
  rw [ofModule, Logged.value_bind, Logged.value_bind, declared_readAssignments, declared_readNets]
  rfl

/-! ### Agreement -/

theorem Agrees.trans {d'' : Draft} (h : d.Agrees d') (h' : d'.Agrees d'') : d.Agrees d'' :=
  ⟨h.inputs.trans h'.inputs, h.outputs.trans h'.outputs,
    fun name => (h.widths name).trans (h'.widths name)⟩

theorem agrees_of_declared_eq (h : d.declared = d'.declared) : d.Agrees d' := by
  simp only [declared, Draft.mk.injEq, and_true] at h
  obtain ⟨hinputs, hnets, houtputs⟩ := h
  exact ⟨hinputs, houtputs, fun name => by rw [hnets]⟩

theorem agrees_relocate (g : Relocation) (d : Draft) : (d.relocate g).Agrees d where
  inputs := rfl
  outputs := rfl
  widths name := by
    rw [relocate, NameMap.get?_map, Option.map_map]
    rfl

theorem value_ofModule_relocate {exact : Prop} (h : t.IsModule) (hg : g.Keeps exact t) :
    (ofModule (t.relocate g)).value = (ofModule t).value.relocate g := by
  have hstart : start.relocate g = start := rfl
  have hports := mirrors_readPorts start h hg
  rw [hstart] at hports
  have hmirrors : Logged.Mirrors g exact (relocate g) (ofModule t) (ofModule (t.relocate g)) :=
    hports.bind ((mirrors_readNets _ h hg).bind (mirrors_readAssignments _ h hg))
  exact hmirrors.value

end Draft

/-! ## What is defined -/

namespace Tree

variable {t u item : Tree} {name : String} {exact : Prop}

/-- What should define a signal in a module that was read is an initialiser or an assignment. -/
theorem IsModule.of_mem_definingItems (h : t.IsModule) (hitem : item ∈ t.definingItems) :
    (∃ l nameNode e, item = .node .netDeclAssignment l [nameNode, e] ∧
      nameNode.IsLeaf .simpleIdentifier ∧ e.IsExpression) ∨ item.IsAssignment := by
  rw [definingItems, List.mem_append, List.mem_flatMap, List.mem_flatMap] at hitem
  rcases hitem with ⟨d, hd, hitem⟩ | ⟨a, ha, hitem⟩
  · rw [h.descendants_eq_childrenOf rfl, mem_childrenOf] at hd
    obtain ⟨hmem, hkind⟩ := mem_childrenOf.1 hitem
    cases (h.isModulePart d hd.1).isNetPart hd.2 item hmem with
    | before hpart => rcases hpart with ⟨⟨l⟩⟩ | ⟨⟨l⟩⟩ | ⟨⟨_, _⟩⟩ <;> cases hkind
    | name hname =>
      obtain ⟨l⟩ := hname
      cases hkind
    | defined hname he => exact .inl ⟨_, _, _, rfl, hname, he⟩
  · rw [h.descendants_eq_childrenOf rfl, mem_childrenOf] at ha
    exact .inr ((h.isModulePart a ha.1).isAssignment ha.2 item (mem_childrenOf.1 hitem).1)

theorem Keeps.of_mem_definingItems (h : t.IsModule) (hg : g.Keeps exact t)
    (hitem : item ∈ t.definingItems) : g.Keeps exact item := by
  rw [definingItems, List.mem_append, List.mem_flatMap, List.mem_flatMap] at hitem
  rcases hitem with ⟨part, hpart, hitem⟩ | ⟨part, hpart, hitem⟩
  all_goals
    rw [h.descendants_eq_childrenOf rfl, mem_childrenOf] at hpart
    exact (hg.of_mem_children hpart.1).of_mem_children (mem_childrenOf.1 hitem).1

theorem definingItems_relocate (g : Relocation) (t : Tree) :
    (t.relocate g).definingItems = t.definingItems.map (relocate g) := by
  rw [definingItems, descendants_relocate, descendants_relocate, List.flatMap_map,
    List.flatMap_map, definingItems, List.map_append, List.map_flatMap, List.map_flatMap]
  simp only [childrenOf_relocate]

theorem defines_relocate (h : t.IsModule) (hg : g.Keeps exact t) (hitem : item ∈ t.definingItems)
    (name : String) : (item.relocate g).defines name = item.defines name := by
  have hgitem := Keeps.of_mem_definingItems h hg hitem
  rcases h.of_mem_definingItems hitem with ⟨l, nameNode, e, rfl, hname, -⟩ | hassign
  · have hword := (hgitem.child nameNode (by simp)).word hname (by decide)
    simp only [defines, isInitialiser, relocate_node, children_node, kind_node, List.map_cons,
      List.map_nil, hword, kind_relocate]
  · obtain @⟨l, target, e, htarget, -⟩ := hassign
    simp only [defines, isInitialiser, relocate_node, children_node, kind_node, List.map_cons,
      List.map_nil, kind_relocate]
    by_cases hkind : target.kind = .simpleIdentifier
    · rw [(hgitem.child target (by simp)).word (htarget.isLeaf hkind) (by decide)]
    · have hplain : (NodeKind.netAssignment == NodeKind.netDeclAssignment) = false := rfl
      rw [beq_false_of_ne hkind, hplain, Bool.or_false, Bool.false_and, Bool.false_and]

theorem expression?_relocate (h : t.IsModule) (hg : g.Keeps exact t)
    (hitem : item ∈ t.definingItems) : (item.relocate g).expression? = item.expression? := by
  have hgitem := Keeps.of_mem_definingItems h hg hitem
  rcases h.of_mem_definingItems hitem with ⟨l, nameNode, e, rfl, -, he⟩ | ⟨_, he⟩
  all_goals exact (Expr.mirrors_ofTree he (hgitem.child _ (by simp))).value

/-- A name has the same definitions elsewhere, as they are gathered. -/
theorem IsModule.filter_defines_relocate (h : t.IsModule) (hg : g.Keeps exact t) (name : String) :
    (t.relocate g).definingItems.filter (defines name) =
      (t.definingItems.filter (defines name)).map (relocate g) := by
  rw [definingItems_relocate, List.filter_map]
  exact congrArg _ (List.filter_congr fun item hitem => defines_relocate h hg hitem name)

/-- The definitions give the name the same expressions. -/
theorem IsModule.expressionsOf_relocate (h : t.IsModule) (hg : g.Keeps exact t) (name : String) :
    (t.relocate g).expressionsOf name = t.expressionsOf name := by
  rw [expressionsOf, h.filter_defines_relocate hg, List.filterMap_map, expressionsOf]
  exact List.filterMap_congr fun item hitem =>
    expression?_relocate h hg (List.mem_filter.1 hitem).1

theorem writtenItems_relocate (g : Relocation) (t : Tree) :
    (t.relocate g).writtenItems = t.writtenItems.map (relocate g) := by
  have hpart : ∀ part : Tree, (part.relocate g).itemsOfPart = part.itemsOfPart.map (relocate g) := by
    intro part
    unfold itemsOfPart
    rw [kind_relocate]
    split
    · exact childrenOf_relocate g part _
    · exact childrenOf_relocate g part _
    · rfl
  rw [writtenItems, children_relocate, List.flatMap_map, writtenItems, List.map_flatMap]
  exact List.flatMap_congr fun part _ => hpart part

/-- A name has the same definitions elsewhere. -/
theorem IsModule.definitionsOf_relocate (h : t.IsModule) (hg : g.Keeps exact t) (name : String) :
    (t.relocate g).definitionsOf name = (t.definitionsOf name).map (relocate g) := by
  rw [definitionsOf, writtenItems_relocate, List.filter_map, definitionsOf]
  refine congrArg _ (List.filter_congr fun item hitem => ?_)
  have hmem : item ∈ t.definingItems := by
    rw [h.definingItems_eq]
    exact (initialisersFirst_perm _).mem_iff.2 hitem
  exact defines_relocate h hg hmem name

/-! ### One item more -/

/-- The second module has one item more that should define a signal. -/
def GainsItem (item t u : Tree) : Prop :=
  ∃ front back, t.writtenItems = front ++ back ∧ u.writtenItems = front ++ item :: back

theorem IsModule.expressionsOf_eq (h : t.IsModule) (name : String) :
    t.expressionsOf name = (initialisersFirst (t.definitionsOf name)).filterMap expression? := by
  rw [expressionsOf, h.filter_defines]

/-- Only the expressions of the name that the item defines may change. -/
theorem GainsItem.expressionsOf_eq_of_ne (h : GainsItem item t u) (ht : t.IsModule)
    (hu : u.IsModule) (hitem : item.defines name = false) :
    u.expressionsOf name = t.expressionsOf name := by
  obtain ⟨front, back, hfront, hback⟩ := h
  rw [hu.expressionsOf_eq, ht.expressionsOf_eq, definitionsOf, definitionsOf, hfront, hback,
    List.filter_append, List.filter_append, List.filter_cons_of_neg (by simp [hitem])]

/-- The item is the only definition of the name that it defines if there was none before. -/
theorem GainsItem.definitionsOf_eq_singleton_iff (h : GainsItem item t u)
    (hitem : item.defines name = true) :
    u.definitionsOf name = [item] ↔ t.definitionsOf name = [] := by
  obtain ⟨front, back, hfront, hback⟩ := h
  rw [definitionsOf, definitionsOf, hfront, hback, List.filter_append, List.filter_append,
    List.filter_cons_of_pos hitem]
  constructor
  · intro hsingle
    have hlength := congrArg List.length hsingle
    simp only [List.length_append, List.length_cons, List.length_nil] at hlength
    rw [List.eq_nil_iff_length_eq_zero, List.length_append]
    omega
  · intro hnil
    obtain ⟨hf, hb⟩ := List.append_eq_nil_iff.1 hnil
    rw [hf, hb]
    rfl

theorem expressionsOf_eq_of_definitionsOf (h : t.IsModule) (hitem : t.definitionsOf name = [item]) :
    t.expressionsOf name = item.expression?.toList := by
  have hsingle : initialisersFirst [item] = [item] :=
    List.perm_singleton.1 (initialisersFirst_perm [item])
  rw [h.expressionsOf_eq, hitem, hsingle]
  cases hvalue : item.expression? <;> simp [hvalue]

theorem whole_relocate_iff (g : Relocation) (t : Tree) : (t.relocate g).Whole ↔ t.Whole := by
  rw [Whole, children_relocate, List.forall_mem_map]
  simp only [kind_relocate]
  rfl

end Tree

/-! ## Taking an initialiser out -/

/-- In the second module a net is declared without the initialiser that it has in the first one. -/
inductive TakesOut (nameNode e : Tree) : (item t u : Tree) → Prop
  | intro (k k' l l' place : Location) (front back parts parts' : List Tree) :
      TakesOut nameNode e (.node .netDeclAssignment place [nameNode, e])
        (.node .moduleDeclaration k (front ++ .node .netDeclaration l
          (parts ++ .node .netDeclAssignment place [nameNode, e] :: parts') :: back))
        (.node .moduleDeclaration k' (front ++ .node .netDeclaration l'
          (parts ++ nameNode :: parts') :: back))

namespace TakesOut

variable {nameNode e item t u : Tree}

theorem isNetPart (h : TakesOut nameNode e item t u) (ht : t.IsModule) : item.IsNetPart := by
  obtain ⟨k, k', l, l', place, front, back, parts, parts'⟩ := h
  have hparts := (ht.isModulePart _ (List.mem_append_right front List.mem_cons_self)).isNetPart rfl
  exact hparts (.node .netDeclAssignment place [nameNode, e]) (by simp)

theorem isLeaf_nameNode (h : TakesOut nameNode e item t u) (ht : t.IsModule) :
    nameNode.IsLeaf .simpleIdentifier := by
  have hitem := h.isNetPart ht
  obtain ⟨_⟩ := h
  cases hitem with
  | before hpart => rcases hpart with hleaf | hleaf | hrange <;> contradiction
  | name hname => cases hname
  | defined hname _ => exact hname

theorem isExpression (h : TakesOut nameNode e item t u) (ht : t.IsModule) : e.IsExpression := by
  have hitem := h.isNetPart ht
  obtain ⟨_⟩ := h
  exact hitem.isExpression rfl rfl

theorem isModule (h : TakesOut nameNode e item t u) (ht : t.IsModule) : u.IsModule := by
  have hname := h.isLeaf_nameNode ht
  obtain ⟨k, k', l, l', place, front, back, parts, parts'⟩ := h
  have hall := ht.isModulePart
  rw [Tree.children_node, List.forall_mem_append, List.forall_mem_cons] at hall
  obtain ⟨hfront, hdecl, hback⟩ := hall
  have hparts := hdecl.isNetPart rfl
  rw [Tree.children_node, List.forall_mem_append, List.forall_mem_cons] at hparts
  obtain ⟨hparts, -, hparts'⟩ := hparts
  refine .intro (List.forall_mem_append.2 ⟨hfront, List.forall_mem_cons.2 ⟨?_, hback⟩⟩)
  exact .item (.nets (List.forall_mem_append.2 ⟨hparts, List.forall_mem_cons.2 ⟨.name hname, hparts'⟩⟩))

theorem moduleName_eq (h : TakesOut nameNode e item t u) : u.moduleName = t.moduleName := by
  obtain ⟨k, k', l, l', place, front, back, parts, parts'⟩ := h
  simp only [Tree.moduleName, Tree.child?, Tree.children_node, List.find?_append, List.find?_cons,
    Tree.kind_node]
  rfl

/-- The name alone declares the net as well. -/
theorem declared_eq (h : TakesOut nameNode e item t u) (ht : t.IsModule) :
    (Draft.ofModule u).value.declared = (Draft.ofModule t).value.declared := by
  have hu := h.isModule ht
  have hname := h.isLeaf_nameNode ht
  rw [Draft.declared_ofModule, Draft.declared_ofModule, hu.descendants_eq_childrenOf rfl,
    hu.descendants_eq_childrenOf rfl, ht.descendants_eq_childrenOf rfl,
    ht.descendants_eq_childrenOf rfl]
  obtain ⟨k, k', l, l', place, front, back, parts, parts'⟩ := h
  obtain ⟨lname⟩ := hname
  have hnets : (Tree.node .netDeclaration l' (parts ++ .node .simpleIdentifier lname [] :: parts')).declaredNets =
      (Tree.node .netDeclaration l (parts ++ .node .netDeclAssignment place
        [.node .simpleIdentifier lname [], e] :: parts')).declaredNets := by
    simp [Tree.declaredNets, Tree.declaredWidth, Tree.child?, List.find?_append, List.filterMap_append,
      Tree.declaredName?]
  simp only [Tree.childrenOf, Tree.children_node, List.filter_append, List.filter_cons,
    Tree.kind_node]
  simp [hnets]

theorem gainsItem (h : TakesOut nameNode e item t u) (ht : t.IsModule) : Tree.GainsItem item u t := by
  obtain ⟨lname⟩ := h.isLeaf_nameNode ht
  obtain ⟨k, k', l, l', place, front, back, parts, parts'⟩ := h
  refine ⟨front.flatMap Tree.itemsOfPart ++ parts.filter (fun c => c.kind == .netDeclAssignment),
    parts'.filter (fun c => c.kind == .netDeclAssignment) ++ back.flatMap Tree.itemsOfPart, ?_, ?_⟩
  all_goals simp [Tree.writtenItems, Tree.itemsOfPart, Tree.childrenOf]

theorem defines_item (h : TakesOut nameNode e item t u) (name : String) :
    item.defines name = (nameNode.word == name) := by
  obtain ⟨k, k', l, l', place, front, back, parts, parts'⟩ := h
  simp [Tree.defines, Tree.isInitialiser]

theorem expression?_item (h : TakesOut nameNode e item t u) :
    item.expression? = (Expr.ofTree e).run.value := by
  obtain ⟨k, k', l, l', place, front, back, parts, parts'⟩ := h
  rfl

/-- No part of the module was recovered if none of what is left was. -/
theorem whole_iff (h : TakesOut nameNode e item t u) : u.Whole ↔ t.Whole := by
  obtain ⟨k, k', l, l', place, front, back, parts, parts'⟩ := h
  simp only [Tree.Whole, Tree.children_node, List.forall_mem_append, List.forall_mem_cons,
    Tree.kind_node]

/-- The initialiser is the only definition of the net if there is only one of it elsewhere. -/
theorem definitionsOf_eq_singleton {exact : Prop} {other : Tree}
    (h : TakesOut nameNode e item t u) (ht : t.IsModule) (hg : g.Keeps exact t)
    (honce : (t.relocate g).definitionsOf nameNode.word = [other]) :
    t.definitionsOf nameNode.word = [item] := by
  rw [ht.definitionsOf_relocate hg] at honce
  obtain ⟨only, hdefinitions, -⟩ := List.map_eq_singleton_iff.1 honce
  obtain ⟨front, back, -, hwritten⟩ := h.gainsItem ht
  have hmem : item ∈ t.definitionsOf nameNode.word := by
    rw [Tree.definitionsOf, hwritten, List.mem_filter, h.defines_item, beq_self_eq_true]
    exact ⟨List.mem_append_right _ List.mem_cons_self, rfl⟩
  rw [hdefinitions] at hmem ⊢
  rw [List.mem_singleton.1 hmem]

end TakesOut

/-! ## Putting an assignment in -/

/-- The second module has one assignment more. -/
inductive PutsIn (target e : Tree) : (item t u : Tree) → Prop
  | intro (k k' l place : Location) (front back : List Tree) :
      PutsIn target e (.node .netAssignment place [target, e])
        (.node .moduleDeclaration k (front ++ back))
        (.node .moduleDeclaration k' (front ++
          .node .continuousAssign l [.node .netAssignment place [target, e]] :: back))

namespace PutsIn

variable {target e item t u : Tree}

theorem isModule (h : PutsIn target e item t u) (hu : u.IsModule) : t.IsModule := by
  obtain ⟨k, k', l, place, front, back⟩ := h
  have hall := hu.isModulePart
  rw [Tree.children_node, List.forall_mem_append, List.forall_mem_cons] at hall
  obtain ⟨hfront, -, hback⟩ := hall
  exact .intro (List.forall_mem_append.2 ⟨hfront, hback⟩)

theorem moduleName_eq (h : PutsIn target e item t u) : u.moduleName = t.moduleName := by
  obtain ⟨k, k', l, place, front, back⟩ := h
  exact Draft.moduleName_listed k front NodeKind.noConfusion

/-- An assignment declares nothing. -/
theorem declared_eq (h : PutsIn target e item t u) (hu : u.IsModule) :
    (Draft.ofModule u).value.declared = (Draft.ofModule t).value.declared := by
  obtain ⟨k, k', l, place, front, back⟩ := h
  rw [Draft.declared_ofModule, Draft.declared_ofModule,
    Draft.IsModule.descendants_listed k front hu rfl NodeKind.noConfusion,
    Draft.IsModule.descendants_listed k front hu rfl NodeKind.noConfusion]

theorem gainsItem (h : PutsIn target e item t u) : Tree.GainsItem item t u := by
  obtain ⟨k, k', l, place, front, back⟩ := h
  refine ⟨front.flatMap Tree.itemsOfPart, back.flatMap Tree.itemsOfPart, ?_, ?_⟩
  all_goals simp [Tree.writtenItems, Tree.itemsOfPart, Tree.childrenOf]

theorem defines_item (h : PutsIn target e item t u) (htarget : target.IsLeaf .simpleIdentifier)
    (name : String) : item.defines name = (target.word == name) := by
  obtain ⟨k, k', l, place, front, back⟩ := h
  obtain ⟨ltarget⟩ := htarget
  simp [Tree.defines, Tree.isInitialiser]

theorem expression?_item (h : PutsIn target e item t u) :
    item.expression? = (Expr.ofTree e).run.value := by
  obtain ⟨k, k', l, place, front, back⟩ := h
  rfl

theorem whole_iff (h : PutsIn target e item t u) : u.Whole ↔ t.Whole := by
  obtain ⟨k, k', l, place, front, back⟩ := h
  simp [Tree.Whole, or_imp, forall_and]

end PutsIn

/-! ## Moving a definition -/

/-- If the only definition of a net is taken out of the declaration, and an assignment gives the net
the same expression, the module is the same but for the order of its wires and where they are
defined. -/
theorem rearranges_of_moved {nameNode target e e' item item' t u v : Tree}
    (hout : TakesOut nameNode e item t u) (hin : PutsIn target e' item' (u.relocate g) v)
    (ht : t.IsModule) (hv : v.IsModule) (hg : g.Keeps False u)
    (htarget : target.IsLeaf .simpleIdentifier) (hword : target.word = nameNode.word)
    (hexpr : (Expr.ofTree e').run.value = (Expr.ofTree e).run.value)
    (honce : t.definitionsOf nameNode.word = [item]) :
    (Draft.assemble v).value.Rearranges (Draft.assemble t).value := by
  have hu := hout.isModule ht
  have hu' := hin.isModule hv
  refine Draft.rearranges_assemble ?_ ?_ fun name => ?_
  · rw [hin.moduleName_eq, hu.moduleName_relocate hg, hout.moduleName_eq]
  · have hrelocated := Draft.value_ofModule_relocate hu hg
    have hplaces : (Draft.ofModule (u.relocate g)).value.Agrees (Draft.ofModule u).value := by
      rw [hrelocated]
      exact Draft.agrees_relocate g _
    exact (Draft.agrees_of_declared_eq (hin.declared_eq hv)).trans
      (hplaces.trans (Draft.agrees_of_declared_eq (hout.declared_eq ht)))
  · by_cases hname : nameNode.word = name
    · subst hname
      have hitem : item.defines nameNode.word = true := by
        rw [hout.defines_item, beq_self_eq_true]
      have hnone := ((hout.gainsItem ht).definitionsOf_eq_singleton_iff hitem).1 honce
      have hnone' : (u.relocate g).definitionsOf nameNode.word = [] := by
        rw [hu.definitionsOf_relocate hg, hnone]
        rfl
      have hdefines : item'.defines nameNode.word = true := by
        rw [hin.defines_item htarget, hword, beq_self_eq_true]
      have honce' := (hin.gainsItem.definitionsOf_eq_singleton_iff hdefines).2 hnone'
      rw [Tree.expressionsOf_eq_of_definitionsOf hv honce',
        Tree.expressionsOf_eq_of_definitionsOf ht honce, hin.expression?_item, hexpr,
        hout.expression?_item]
    · have hitem : item.defines name = false := by
        rw [hout.defines_item]
        exact beq_false_of_ne hname
      have hitem' : item'.defines name = false := by
        rw [hin.defines_item htarget, hword]
        exact beq_false_of_ne hname
      rw [hin.gainsItem.expressionsOf_eq_of_ne hu' hv hitem', hu.expressionsOf_relocate hg,
        (hout.gainsItem ht).expressionsOf_eq_of_ne hu ht hitem]

end Netlist
