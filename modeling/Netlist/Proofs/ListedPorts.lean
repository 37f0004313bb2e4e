/-
Listing ports that the module declares.

The header of a module may be a list of bare names, and declarations in the body say which ports
they are. Such a list declares nothing. It is only held against the declarations, so as long as
these mention all its names, the module is the same without it (`assemble_listed`).
-/
import Netlist.Proofs.Assembly
import Netlist.Proofs.Shapes

set_option autoImplicit false

namespace Netlist

/-! ## What one member of a row brings about -/

/-- What one member of a row brings about and no member undoes holds at the end. -/
theorem Logged.foldlM_establishes {σ α : Type} {P : σ → Prop} {f : σ → α → Logged σ} {xs : List α}
    {x : α} (hx : x ∈ xs) (hmakes : ∀ s, P (f s x).value)
    (hkeeps : ∀ s y, P s → P (f s y).value) (s : σ) : P (xs.foldlM f s).value := by
  obtain ⟨before, after, rfl⟩ := List.append_of_mem hx
  rw [List.foldlM_append, Logged.value_bind, List.foldlM_cons, Logged.value_bind]
  exact Logged.foldlM_preserves (fun s' y _ => hkeeps s' y) (hmakes _)

/-- What follows some work depends on its result alone. -/
theorem Logged.bind_congr {α β : Type} {x : Logged α} {f f' : α → Logged β}
    (h : f x.value = f' x.value) : x >>= f = x >>= f' := by
  refine Logged.ext ?_ ?_
  · rw [Logged.value_bind, Logged.value_bind, h]
  · rw [Logged.log_bind, Logged.log_bind, h]

namespace Draft

variable {d : Draft} {name : String}

/-! ## Declared ports -/

/-- The name is that of an input or of a declared net. -/
def Knows (d : Draft) (name : String) : Prop :=
  (d.isInput name || d.nets.contains name) = true

theorem knows_iff : d.Knows name ↔ name ∈ d.inputs.map Input.name ∨ (d.nets.get? name).isSome := by
  rw [Knows, Bool.or_eq_true, isInput_iff, NameMap.contains]

theorem Knows.addPort (h : d.Knows name) (isInput : Bool) (width : Nat) (nameNode : Tree) :
    (addPort isInput width d nameNode).value.Knows name := by
  rw [knows_iff] at h
  unfold Draft.addPort
  dsimp only
  split
  · rwa [Logged.value_bind, Logged.value_pure, knows_iff]
  · split
    · rw [Logged.value_pure, knows_iff, List.map_append, List.mem_append]
      exact h.imp_left .inl
    · rw [Logged.value_pure, knows_iff, NameMap.get?_insert]
      refine h.imp_right fun hget => ?_
      split
      · rfl
      · exact hget

/-- A port is known once it was declared, if it was not known before. -/
theorem knows_addPort (isInput : Bool) (width : Nat) (d : Draft) (nameNode : Tree) :
    (addPort isInput width d nameNode).value.Knows nameNode.word := by
  unfold addPort
  dsimp only
  split
  · next hknown => exact hknown
  · split
    · rw [Logged.value_pure, knows_iff, List.map_append, List.mem_append]
      exact .inl (.inr List.mem_cons_self)
    · rw [Logged.value_pure, knows_iff, NameMap.get?_insert_self]
      exact .inr rfl

theorem Knows.addPorts (h : d.Knows name) (declaration : Tree) :
    (addPorts d declaration).value.Knows name := by
  unfold Draft.addPorts
  exact Logged.foldlM_preserves (P := fun d' : Draft => d'.Knows name)
    (fun _ nameNode _ h => h.addPort _ _ nameNode) h

theorem knows_addPorts {declaration nameNode : Tree}
    (hname : nameNode ∈ declaration.childrenOf .simpleIdentifier) (d : Draft) :
    (addPorts d declaration).value.Knows nameNode.word := by
  unfold addPorts
  exact Logged.foldlM_establishes (P := fun d' : Draft => d'.Knows nameNode.word) hname
    (fun d' => knows_addPort _ _ d' nameNode) (fun _ other h => h.addPort _ _ other) d

/-- All ports that are declared are known in the end. -/
theorem knows_foldlM_addPorts {declarations : List Tree} {declaration nameNode : Tree}
    (hmem : declaration ∈ declarations) (hname : nameNode ∈ declaration.childrenOf .simpleIdentifier)
    (d : Draft) : (declarations.foldlM addPorts d).value.Knows nameNode.word :=
  Logged.foldlM_establishes (P := fun d' : Draft => d'.Knows nameNode.word) hmem
    (knows_addPorts hname) (fun _ other h => h.addPorts other) d

/-! ## Lists of ports -/

theorem checkListed_of_knows {nameNode : Tree} (h : d.Knows nameNode.word) :
    d.checkListed nameNode = pure () :=
  if_pos h

theorem forM_checkListed {names : List Tree} (h : ∀ c ∈ names, d.Knows c.word) :
    names.forM d.checkListed = pure () := by
  induction names with
  | nil => rfl
  | cons c names ih =>
    obtain ⟨hc, hnames⟩ := List.forall_mem_cons.1 h
    have hfirst : (c :: names).forM d.checkListed =
        d.checkListed c >>= fun _ => names.forM d.checkListed := rfl
    rw [hfirst, checkListed_of_knows hc, ih hnames]
    rfl

/-- The declarations among the parts declare the name. -/
def Declares (parts : List Tree) (name : String) : Prop :=
  ∃ declaration ∈ parts, declaration.kind = .portDeclaration ∧
    ∃ nameNode ∈ declaration.childrenOf .simpleIdentifier, nameNode.word = name

/-- What the declarations among the parts of a module declare is known once they have been read. -/
theorem Declares.knows {parts : List Tree} (h : Declares parts name) (d : Draft) :
    ((parts.filter fun c => c.kind == .portDeclaration).foldlM addPorts d).value.Knows name := by
  obtain ⟨declaration, hmem, hkind, nameNode, hname, rfl⟩ := h
  have hmem : declaration ∈ parts.filter fun c => c.kind == .portDeclaration :=
    List.mem_filter.2 ⟨hmem, beq_iff_eq.2 hkind⟩
  exact knows_foldlM_addPorts hmem hname d

/-- A member of a row that does nothing can be left out. -/
theorem forM_append_cons {α : Type} {f : α → Logged PUnit} {x : α} (h : f x = pure ⟨⟩)
    (before after : List α) : (before ++ x :: after).forM f = (before ++ after).forM f := by
  induction before with
  | nil =>
    have hfirst : (x :: after).forM f = f x >>= fun _ => after.forM f := rfl
    rw [List.nil_append, List.nil_append, hfirst, h, pure_bind]
  | cons y before ih => exact congrArg (fun r => f y >>= fun _ => r) ih

section Listed

variable {l : Location} (l' : Location) {list : Tree} (before : List Tree) {after : List Tree}

theorem childrenOf_listed {k : NodeKind} (hlist : list.kind ≠ k) :
    (Tree.node .moduleDeclaration l (before ++ list :: after)).childrenOf k =
      (Tree.node .moduleDeclaration l' (before ++ after)).childrenOf k := by
  simp only [Tree.childrenOf, Tree.children_node, List.filter_append, List.filter_cons,
    beq_false_of_ne hlist, Bool.false_eq_true, if_false]

theorem moduleName_listed (hlist : list.kind ≠ .simpleIdentifier) :
    (Tree.node .moduleDeclaration l (before ++ list :: after)).moduleName =
      (Tree.node .moduleDeclaration l' (before ++ after)).moduleName := by
  simp only [Tree.moduleName, Tree.child?, Tree.children_node, List.find?_append,
    List.find?_cons, beq_false_of_ne hlist]

theorem IsModule.descendants_listed
    (h : (Tree.node .moduleDeclaration l (before ++ list :: after)).IsModule) {k : NodeKind}
    (hk : k.isOuter = true) (hlist : list.kind ≠ k) :
    (Tree.node .moduleDeclaration l (before ++ list :: after)).descendants k =
      (Tree.node .moduleDeclaration l' (before ++ after)).descendants k := by
  have h' : (Tree.node .moduleDeclaration l' (before ++ after)).IsModule := by
    obtain ⟨hparts⟩ := h
    exact .intro fun t ht => hparts t (by grind)
  rw [h.descendants_eq_childrenOf hk, h'.descendants_eq_childrenOf hk]
  exact childrenOf_listed l' before hlist

/-- The names of the list are known when they are looked at. -/
theorem readPorts_listed
    (h : (Tree.node .moduleDeclaration l (before ++ list :: after)).IsModule)
    (hlist : list.kind = .listOfPorts)
    (hdeclared : ∀ c ∈ list.childrenOf .simpleIdentifier, Declares (before ++ after) c.word) :
    d.readPorts (.node .moduleDeclaration l (before ++ list :: after)) =
      d.readPorts (.node .moduleDeclaration l' (before ++ after)) := by
  have hdeclarations : (Tree.node .moduleDeclaration l (before ++ list :: after)).descendants
      .portDeclaration = (before ++ after).filter fun c => c.kind == .portDeclaration := by
    rw [h.descendants_eq_childrenOf rfl]
    exact childrenOf_listed l before (by rw [hlist]; decide)
  have hlists : (Tree.node .moduleDeclaration l (before ++ list :: after)).childrenOf
      .listOfPorts = (before.filter fun c => c.kind == .listOfPorts) ++
        list :: after.filter fun c => c.kind == .listOfPorts := by
    simp [Tree.childrenOf, hlist]
  unfold readPorts
  rw [← IsModule.descendants_listed l' before h rfl (by rw [hlist]; decide), hdeclarations, hlists]
  refine Logged.bind_congr (congrArg (fun r => r >>= fun _ => pure _) ?_)
  have hsilent := forM_checkListed fun c hc => (hdeclared c hc).knows d
  have hskipped := forM_append_cons (f := fun list : Tree => (list.childrenOf .simpleIdentifier).forM _)
    hsilent (before.filter fun c => c.kind == .listOfPorts)
    (after.filter fun c => c.kind == .listOfPorts)
  rw [← List.filter_append] at hskipped
  exact hskipped

/-- A list of ports that are all declared has no say in what the module is. -/
theorem assemble_listed
    (h : (Tree.node .moduleDeclaration l (before ++ list :: after)).IsModule)
    (hlist : list.kind = .listOfPorts)
    (hdeclared : ∀ c ∈ list.childrenOf .simpleIdentifier, Declares (before ++ after) c.word) :
    assemble (.node .moduleDeclaration l (before ++ list :: after)) =
      assemble (.node .moduleDeclaration l' (before ++ after)) := by
  unfold assemble readNets readAssignments
  rw [readPorts_listed l' before h hlist hdeclared, moduleName_listed l' before (by rw [hlist]; decide),
    IsModule.descendants_listed l' before h rfl (by rw [hlist]; decide),
    IsModule.descendants_listed l' before h rfl (by rw [hlist]; decide)]

end Listed

end Draft

end Netlist
