/-
The shapes of the trees that text is read into.

Trees can be put together by hand in any way, but the reader builds few of them: the children
of a node are as many as its kind needs and of the kinds that it needs, and an operator spells
one that has a meaning. The shapes are layered as the language is: expressions, the items of a
module that hold expressions, modules that hold items, and files that hold modules. No layer
occurs inside a lower one, so that the search for the nodes of a kind, which goes all the way
down, finds just the children of that kind (`IsModule.descendants_eq_childrenOf`).
-/
import Netlist.Operator
import Netlist.Text.Blank
import Netlist.Tree

set_option autoImplicit false

namespace Netlist

/-- The kinds of items and of what is larger than an item. -/
def NodeKind.isOuter : NodeKind → Bool
  | sourceFile | moduleDeclaration | listOfPorts | portDeclaration | netDeclaration
  | continuousAssign | error => true
  | _ => false

namespace Tree

theorem spanning_eq_node (k : NodeKind) (ts : List Tree) :
    ∃ l, spanning k ts = .node k l ts := by
  rw [spanning]
  split
  · exact ⟨_, rfl⟩
  · exact ⟨_, rfl⟩

@[simp] theorem kind_spanning (k : NodeKind) (ts : List Tree) : (spanning k ts).kind = k := by
  obtain ⟨l, hl⟩ := spanning_eq_node k ts
  rw [hl, kind_node]

/-- A property holds of the tree and of every tree inside it. -/
inductive Everywhere (P : Tree → Prop) : Tree → Prop
  | intro {k : NodeKind} {l : Location} {ts : List Tree} :
      P (.node k l ts) → (∀ t ∈ ts, Everywhere P t) → Everywhere P (.node k l ts)

theorem Everywhere.imp {P Q : Tree → Prop} {t : Tree} (h : t.Everywhere P)
    (hPQ : ∀ t, P t → Q t) : t.Everywhere Q := by
  induction h with
  | intro hnode _ ih => exact .intro (hPQ _ hnode) ih

/-! ## Operators -/

/-- A node without children. -/
inductive IsLeaf (k : NodeKind) : Tree → Prop
  | intro (l : Location) : IsLeaf k (.node k l [])

/-- A unary operator with a meaning. -/
structure IsUnaryOperator (t : Tree) : Prop where
  leaf : t.IsLeaf .unaryOperator
  known : (UnaryOperator.ofText? (Text.trim t.text)).isSome

/-- A binary operator with a meaning. -/
structure IsBinaryOperator (t : Tree) : Prop where
  leaf : t.IsLeaf .binaryOperator
  known : (BinaryOperator.ofText? (Text.trim t.text)).isSome

/-- An operator that announces a width, upwards or downwards. -/
structure IsRangeOperator (t : Tree) : Prop where
  leaf : t.IsLeaf .indexedRangeOperator
  known : Text.trim t.text = "+:" ∨ Text.trim t.text = "-:"

/-! ## Expressions -/

/-- A tree that is read as an expression. Only a name can be followed by brackets. -/
inductive IsExpression : Tree → Prop
  | name (l : Location) : IsExpression (.node .simpleIdentifier l [])
  | number (l : Location) : IsExpression (.node .number l [])
  | parenthesized {l : Location} {e : Tree} :
      IsExpression e → IsExpression (.node .parenthesizedExpression l [e])
  | conditional {l : Location} {condition yes no : Tree} :
      IsExpression condition → IsExpression yes → IsExpression no →
      IsExpression (.node .conditionalExpression l [condition, yes, no])
  | unary {l : Location} {op e : Tree} :
      op.IsUnaryOperator → IsExpression e → IsExpression (.node .unaryExpression l [op, e])
  | binary {l : Location} {left op right : Tree} :
      IsExpression left → op.IsBinaryOperator → IsExpression right →
      IsExpression (.node .binaryExpression l [left, op, right])
  | concatenation {l : Location} {part : Tree} {parts : List Tree} :
      (∀ e ∈ part :: parts, IsExpression e) →
      IsExpression (.node .concatenation l (part :: parts))
  | replication {l : Location} {count inner : Tree} :
      IsExpression count → IsExpression inner → inner.kind = .concatenation →
      IsExpression (.node .multipleConcatenation l [count, inner])
  | bitSelect {l : Location} {name index : Tree} :
      name.IsLeaf .simpleIdentifier → IsExpression index →
      IsExpression (.node .bitSelect l [name, index])
  | rangeSelect {l : Location} {name upper lower : Tree} :
      name.IsLeaf .simpleIdentifier → IsExpression upper → IsExpression lower →
      IsExpression (.node .rangeSelect l [name, upper, lower])
  | indexedRangeSelect {l : Location} {name base op width : Tree} :
      name.IsLeaf .simpleIdentifier → IsExpression base → op.IsRangeOperator →
      IsExpression width → IsExpression (.node .indexedRangeSelect l [name, base, op, width])

theorem IsLeaf.isExpression {t : Tree} (h : t.IsLeaf .simpleIdentifier) : t.IsExpression := by
  obtain ⟨l⟩ := h
  exact .name l

theorem IsExpression.isLeaf {t : Tree} (h : t.IsExpression) (hk : t.kind = .simpleIdentifier) :
    t.IsLeaf .simpleIdentifier := by
  cases h with
  | name l => exact .intro l
  | _ => cases hk

/-! ## Items, modules and files -/

/-- A range of a declaration. -/
inductive IsRange : Tree → Prop
  | intro {l : Location} {upper lower : Tree} :
      upper.IsExpression → lower.IsExpression → IsRange (.node .packedDimension l [upper, lower])

/-- What stands before the names of a declaration: what it says of all of them. -/
inductive IsTypePart : Tree → Prop
  | direction {t : Tree} : t.IsLeaf .portDirection → IsTypePart t
  | netType {t : Tree} : t.IsLeaf .netType → IsTypePart t
  | range {t : Tree} : t.IsRange → IsTypePart t

/-- What stands in the declaration of a port. -/
inductive IsPortPart : Tree → Prop
  | before {t : Tree} : t.IsTypePart → IsPortPart t
  | name {t : Tree} : t.IsLeaf .simpleIdentifier → IsPortPart t

/-- What stands in the declaration of a net. -/
inductive IsNetPart : Tree → Prop
  | before {t : Tree} : t.IsTypePart → IsNetPart t
  | name {t : Tree} : t.IsLeaf .simpleIdentifier → IsNetPart t
  | defined {l : Location} {name e : Tree} :
      name.IsLeaf .simpleIdentifier → e.IsExpression →
      IsNetPart (.node .netDeclAssignment l [name, e])

/-- One assignment. -/
inductive IsAssignment : Tree → Prop
  | intro {l : Location} {target e : Tree} :
      target.IsExpression → e.IsExpression → IsAssignment (.node .netAssignment l [target, e])

/-- An item of the body of a module, or the declaration of a port in its header. -/
inductive IsItem : Tree → Prop
  | ports {l : Location} {parts : List Tree} :
      (∀ t ∈ parts, t.IsPortPart) → IsItem (.node .portDeclaration l parts)
  | nets {l : Location} {parts : List Tree} :
      (∀ t ∈ parts, t.IsNetPart) → IsItem (.node .netDeclaration l parts)
  | assignments {l : Location} {parts : List Tree} :
      (∀ t ∈ parts, t.IsAssignment) → IsItem (.node .continuousAssign l parts)

/-- What stands in a module. -/
inductive IsModulePart : Tree → Prop
  | name {t : Tree} : t.IsLeaf .simpleIdentifier → IsModulePart t
  | listed {l : Location} {names : List Tree} :
      (∀ t ∈ names, t.IsLeaf .simpleIdentifier) → IsModulePart (.node .listOfPorts l names)
  | item {t : Tree} : t.IsItem → IsModulePart t
  | spoiled {t : Tree} : t.IsLeaf .error → IsModulePart t

/-- A module. -/
inductive IsModule : Tree → Prop
  | intro {l : Location} {parts : List Tree} :
      (∀ t ∈ parts, t.IsModulePart) → IsModule (.node .moduleDeclaration l parts)

/-- A source file. -/
inductive IsFile : Tree → Prop
  | intro {l : Location} {modules : List Tree} :
      (∀ t ∈ modules, t.IsModule) → IsFile (.node .sourceFile l modules)

/-! ### Taking shapes apart -/

theorem IsFile.isModule {t : Tree} (h : t.IsFile) : ∀ c ∈ t.children, c.IsModule := by
  obtain ⟨hmodules⟩ := h
  exact hmodules

theorem IsModule.isModulePart {t : Tree} (h : t.IsModule) : ∀ c ∈ t.children, c.IsModulePart := by
  obtain ⟨hparts⟩ := h
  exact hparts

theorem IsModulePart.isNetPart {t : Tree} (h : t.IsModulePart) (hk : t.kind = .netDeclaration) :
    ∀ c ∈ t.children, c.IsNetPart := by
  rcases h with ⟨⟨l⟩⟩ | _ | hitem | ⟨⟨l⟩⟩
  · cases hk
  · cases hk
  · cases hitem with
    | ports => cases hk
    | nets hparts => exact hparts
    | assignments => cases hk
  · cases hk

theorem IsModulePart.isAssignment {t : Tree} (h : t.IsModulePart)
    (hk : t.kind = .continuousAssign) : ∀ c ∈ t.children, c.IsAssignment := by
  rcases h with ⟨⟨l⟩⟩ | _ | hitem | ⟨⟨l⟩⟩
  · cases hk
  · cases hk
  · cases hitem with
    | ports => cases hk
    | nets => cases hk
    | assignments hparts => exact hparts
  · cases hk

theorem IsNetPart.isExpression {t name e : Tree} (h : t.IsNetPart)
    (hk : t.kind = .netDeclAssignment) (hc : t.children = [name, e]) : e.IsExpression := by
  rcases h with (⟨⟨l⟩⟩ | ⟨⟨l⟩⟩ | ⟨⟨_, _⟩⟩) | ⟨⟨l⟩⟩ | ⟨_, he⟩
  · cases hk
  · cases hk
  · cases hk
  · cases hk
  · cases hc
    exact he

theorem IsAssignment.isExpression {t target e : Tree} (h : t.IsAssignment)
    (hc : t.children = [target, e]) : e.IsExpression := by
  obtain ⟨_, he⟩ := h
  cases hc
  exact he

/-! ## Looking for nodes

The search for nodes of a kind is a search among the children, as long as no child has such
nodes below it. -/

/-- Neither the tree nor anything in it is of the kind. -/
def Lacks (k : NodeKind) (t : Tree) : Prop :=
  t.kind ≠ k ∧ t.descendants k = []

variable {k : NodeKind} {t : Tree}

theorem mem_childrenOf {c : Tree} : c ∈ t.childrenOf k ↔ c ∈ t.children ∧ c.kind = k := by
  rw [childrenOf, List.mem_filter, beq_iff_eq]

theorem descendantsIn_eq_nil {ts : List Tree} (h : ∀ t ∈ ts, Lacks k t) :
    descendantsIn k ts = [] := by
  induction ts with
  | nil => rw [descendantsIn]
  | cons t ts ih =>
    have ⟨hkind, hbelow⟩ := h t List.mem_cons_self
    rw [descendantsIn, hbelow, ih fun t' ht' => h t' (List.mem_cons_of_mem _ ht'), if_neg hkind]
    rfl

theorem lacks_node {k' : NodeKind} {l : Location} {ts : List Tree} (hk : k' ≠ k)
    (h : ∀ t ∈ ts, Lacks k t) : Lacks k (.node k' l ts) := by
  refine ⟨hk, ?_⟩
  rw [descendants, descendantsIn_eq_nil h]

theorem descendantsIn_eq_filter {ts : List Tree} (h : ∀ t ∈ ts, t.descendants k = []) :
    descendantsIn k ts = ts.filter fun c => c.kind == k := by
  induction ts with
  | nil => rw [descendantsIn, List.filter_nil]
  | cons t ts ih =>
    have hrest := ih fun t' ht' => h t' (List.mem_cons_of_mem _ ht')
    rw [descendantsIn, h t List.mem_cons_self, hrest, List.nil_append, List.filter_cons]
    simp only [beq_iff_eq]

theorem descendants_eq_childrenOf (h : ∀ c ∈ t.children, c.descendants k = []) :
    t.descendants k = t.childrenOf k := by
  cases t with
  | node k' l ts =>
    rw [descendants, childrenOf]
    exact descendantsIn_eq_filter h

/-! ### What lacks items -/

section Lacks

theorem ne_of_isOuter {k' : NodeKind} (hk : k.isOuter) (hk' : k'.isOuter = false) : k' ≠ k := by
  rintro rfl
  rw [hk] at hk'
  cases hk'

theorem IsLeaf.lacks {k' : NodeKind} (h : t.IsLeaf k') (hk : k' ≠ k) : Lacks k t := by
  obtain ⟨l⟩ := h
  exact lacks_node hk (by simp)

/-- An expression holds no items. The induction is on its shape: each of its nodes is of a kind
of its own, and the operators and names in it have no children. -/
theorem IsExpression.lacks (h : t.IsExpression) (hk : k.isOuter) : Lacks k t := by
  have hleaf : ∀ {k' : NodeKind} {c : Tree}, c.IsLeaf k' → k'.isOuter = false → Lacks k c :=
    fun hc hk' => hc.lacks (ne_of_isOuter hk hk')
  induction h with
  | name l => exact hleaf (.intro l) rfl
  | number l => exact hleaf (.intro l) rfl
  | parenthesized _ ih =>
    refine lacks_node (ne_of_isOuter hk rfl) ?_
    simp [ih]
  | conditional _ _ _ ihc ihy ihn =>
    refine lacks_node (ne_of_isOuter hk rfl) ?_
    simp [ihc, ihy, ihn]
  | unary hop _ ih =>
    refine lacks_node (ne_of_isOuter hk rfl) ?_
    simp [hleaf hop.leaf rfl, ih]
  | binary _ hop _ ihl ihr =>
    refine lacks_node (ne_of_isOuter hk rfl) ?_
    simp [hleaf hop.leaf rfl, ihl, ihr]
  | concatenation _ ih => exact lacks_node (ne_of_isOuter hk rfl) ih
  | replication _ _ _ ihc ihi =>
    refine lacks_node (ne_of_isOuter hk rfl) ?_
    simp [ihc, ihi]
  | bitSelect hname _ ih =>
    refine lacks_node (ne_of_isOuter hk rfl) ?_
    simp [hleaf hname rfl, ih]
  | rangeSelect hname _ _ ihu ihl =>
    refine lacks_node (ne_of_isOuter hk rfl) ?_
    simp [hleaf hname rfl, ihu, ihl]
  | indexedRangeSelect hname _ hop _ ihb ihw =>
    refine lacks_node (ne_of_isOuter hk rfl) ?_
    simp [hleaf hname rfl, ihb, hleaf hop.leaf rfl, ihw]

theorem IsTypePart.lacks (h : t.IsTypePart) (hk : k.isOuter) : Lacks k t := by
  rcases h with hleaf | hleaf | ⟨hupper, hlower⟩
  · exact hleaf.lacks (ne_of_isOuter hk rfl)
  · exact hleaf.lacks (ne_of_isOuter hk rfl)
  · refine lacks_node (ne_of_isOuter hk rfl) ?_
    simp [hupper.lacks hk, hlower.lacks hk]

theorem IsPortPart.lacks (h : t.IsPortPart) (hk : k.isOuter) : Lacks k t := by
  rcases h with hbefore | hname
  · exact hbefore.lacks hk
  · exact hname.lacks (ne_of_isOuter hk rfl)

theorem IsNetPart.lacks (h : t.IsNetPart) (hk : k.isOuter) : Lacks k t := by
  rcases h with hbefore | hname | ⟨hname, he⟩
  · exact hbefore.lacks hk
  · exact hname.lacks (ne_of_isOuter hk rfl)
  · refine lacks_node (ne_of_isOuter hk rfl) ?_
    simp [hname.isExpression.lacks hk, he.lacks hk]

theorem IsAssignment.lacks (h : t.IsAssignment) (hk : k.isOuter) : Lacks k t := by
  obtain ⟨htarget, he⟩ := h
  refine lacks_node (ne_of_isOuter hk rfl) ?_
  simp [htarget.lacks hk, he.lacks hk]

theorem IsItem.descendants_eq_nil (h : t.IsItem) (hk : k.isOuter) : t.descendants k = [] := by
  cases h with
  | ports hparts =>
    rw [descendants]
    exact descendantsIn_eq_nil fun c hc => (hparts c hc).lacks hk
  | nets hparts =>
    rw [descendants]
    exact descendantsIn_eq_nil fun c hc => (hparts c hc).lacks hk
  | assignments hparts =>
    rw [descendants]
    exact descendantsIn_eq_nil fun c hc => (hparts c hc).lacks hk

theorem IsModulePart.descendants_eq_nil (h : t.IsModulePart) (hk : k.isOuter) :
    t.descendants k = [] := by
  rcases h with ⟨⟨l⟩⟩ | hnames | hitem | ⟨⟨l⟩⟩
  · rfl
  · rw [descendants]
    exact descendantsIn_eq_nil fun c hc => (hnames c hc).lacks (ne_of_isOuter hk rfl)
  · exact hitem.descendants_eq_nil hk
  · rfl

end Lacks

/-! ### Where items are found -/

/-- The items of a module are children of the module. -/
theorem IsModule.descendants_eq_childrenOf (h : t.IsModule) (hk : k.isOuter) :
    t.descendants k = t.childrenOf k := by
  obtain ⟨hparts⟩ := h
  exact Tree.descendants_eq_childrenOf fun c hc => (hparts c hc).descendants_eq_nil hk

theorem IsModulePart.kind_ne (h : t.IsModulePart) : t.kind ≠ .moduleDeclaration := by
  rcases h with ⟨⟨l⟩⟩ | _ | ⟨_ | _ | _⟩ | ⟨⟨l⟩⟩ <;> exact NodeKind.noConfusion

theorem IsModule.descendants_modules (h : t.IsModule) : t.descendants .moduleDeclaration = [] := by
  rw [h.descendants_eq_childrenOf rfl, childrenOf, List.filter_eq_nil_iff]
  obtain ⟨hparts⟩ := h
  intro c hc
  rw [beq_iff_eq]
  exact (hparts c hc).kind_ne

theorem IsFile.descendants_eq_children (h : t.IsFile) :
    t.descendants .moduleDeclaration = t.children := by
  obtain ⟨hmodules⟩ := h
  rw [descendants, descendantsIn_eq_filter fun c hc => (hmodules c hc).descendants_modules,
    List.filter_eq_self.2]
  · rfl
  · intro c hc
    obtain ⟨_⟩ := hmodules c hc
    rfl

end Tree

end Netlist
