/-
Derivations over tokens that stand elsewhere.

A derivation asks of its tokens only which terminals they are. So tokens that were carried over to
another text are derived as they were (`Derivation.relocate`, `Phrase.relocate`), and the trees of
the derivation are the old ones, carried over.
-/
import Netlist.Proofs.Fidelity
import Netlist.Proofs.RelocatedReaders

set_option autoImplicit false

namespace Netlist.Grammar

variable {source : Source} (g : Relocation)

/-! ## Expressions -/

/-- The token in the place where it has gone. -/
def Lexeme.relocate {x : Terminal} (t : Lexeme x) : Lexeme x :=
  ⟨t.1.relocate g, t.2⟩

/-- The token in the place where it has gone. -/
def SignAmong.relocate {ps : List Punctuation} (t : SignAmong ps) : SignAmong ps :=
  ⟨t.1.relocate g, t.2⟩

/-- The token in the place where it has gone. -/
def KeyAmong.relocate {ks : List Keyword} (t : KeyAmong ks) : KeyAmong ks :=
  ⟨t.1.relocate g, t.2⟩

namespace Derivation

/-- The derivation of the tokens in the places where they have gone. -/
def relocate : {n : Nonterminal} → Derivation n → Derivation n
  | _, expression e => .expression e.relocate
  | _, tighter h e => .tighter h e.relocate
  | _, conditional c q y s n =>
    .conditional c.relocate (Lexeme.relocate g q) y.relocate (Lexeme.relocate g s) n.relocate
  | _, binary l op r => .binary l.relocate (SignAmong.relocate g op) r.relocate
  | _, unary op e => .unary (SignAmong.relocate g op) e.relocate
  | _, number t => .number (Lexeme.relocate g t)
  | _, name t => .name (Lexeme.relocate g t)
  | _, bitSelect t o i c =>
    .bitSelect (Lexeme.relocate g t) (Lexeme.relocate g o) i.relocate (Lexeme.relocate g c)
  | _, rangeSelect t o u s l c =>
    .rangeSelect (Lexeme.relocate g t) (Lexeme.relocate g o) u.relocate (Lexeme.relocate g s)
      l.relocate (Lexeme.relocate g c)
  | _, indexedRangeSelect t o b op w c =>
    .indexedRangeSelect (Lexeme.relocate g t) (Lexeme.relocate g o) b.relocate
      (SignAmong.relocate g op) w.relocate (Lexeme.relocate g c)
  | _, braced e => .braced e.relocate
  | _, replication o n e c =>
    .replication (Lexeme.relocate g o) n.relocate e.relocate (Lexeme.relocate g c)
  | _, parenthesized o e c => .parenthesized (Lexeme.relocate g o) e.relocate (Lexeme.relocate g c)
  | _, concatenation o es c =>
    .concatenation (Lexeme.relocate g o) es.relocate (Lexeme.relocate g c)
  | _, single e => .single e.relocate
  | _, more es s e => .more es.relocate (Lexeme.relocate g s) e.relocate

@[simp] theorem yield_relocate {n : Nonterminal} (d : Derivation n) :
    (d.relocate g).yield = d.yield.map (Token.relocate g) := by
  induction d with
  | _ => simp_all [relocate, Lexeme.relocate, SignAmong.relocate]

/-- The trees are those of the derivation elsewhere. -/
theorem trees_relocate (hsource : source.origin ≠ .unknown) {n : Nonterminal} (d : Derivation n) :
    (d.relocate g).trees g.source = (d.trees source).map (Tree.relocate g) := by
  induction d with
  | expression _ ih | tighter _ _ ih | braced _ ih | single _ ih => exact ih
  | number t => exact congrArg (fun t => [t]) (relocate_tokenNode g hsource .number t.1).symm
  | name t => exact congrArg (fun t => [t]) (relocate_tokenNode g hsource .simpleIdentifier t.1).symm
  | conditional c q y s n ihc ihy ihn =>
    have hne : c.trees source ++ (y.trees source ++ n.trees source) ≠ [] :=
      List.append_ne_nil_of_left_ne_nil (c.trees_nonempty source) _
    simp only [relocate, trees, ihc, ihy, ihn, List.map_cons, List.map_nil,
      Tree.relocate_spanning g _ hne, List.map_append]
  | binary l op r ihl ihr =>
    have hne : l.trees source ++ tokenNode source .binaryOperator op.1 :: r.trees source ≠ [] :=
      List.append_ne_nil_of_left_ne_nil (l.trees_nonempty source) _
    simp only [relocate, trees, ihl, ihr, List.map_cons, List.map_nil,
      Tree.relocate_spanning g _ hne, List.map_append, relocate_tokenNode g hsource]
    rfl
  | unary op e ih =>
    simp only [relocate, trees, ih, List.map_cons, List.map_nil,
      Tree.relocate_spanning g _ (List.cons_ne_nil _ _), relocate_tokenNode g hsource]
    rfl
  | more es s e ihes ih =>
    simp only [relocate, trees, ihes, ih, List.map_append]
  | bitSelect t o i c ih =>
    simp only [relocate, trees, ih, List.map_cons, List.map_nil, relocate_nodeOver g hsource,
      relocate_tokenNode g hsource]
    rfl
  | rangeSelect t o u s l c ihu ihl =>
    simp only [relocate, trees, ihu, ihl, List.map_cons, List.map_nil, List.map_append,
      relocate_nodeOver g hsource, relocate_tokenNode g hsource]
    rfl
  | indexedRangeSelect t o b op w c ihb ihw =>
    simp only [relocate, trees, ihb, ihw, List.map_cons, List.map_nil, List.map_append,
      relocate_nodeOver g hsource, relocate_tokenNode g hsource]
    rfl
  | replication o n e c ihn ihe =>
    simp only [relocate, trees, ihn, ihe, List.map_cons, List.map_nil, List.map_append,
      relocate_nodeOver g hsource]
    rfl
  | parenthesized o e c ih | concatenation o e c ih =>
    simp only [relocate, trees, ih, List.map_cons, List.map_nil, relocate_nodeOver g hsource]
    rfl

end Derivation

/-! ## Phrases -/

namespace Ports

theorem add_relocate (p : Ports) (item : Tree) :
    (p.relocate g).add (item.relocate g) = (p.add item).relocate g := by
  rw [add, add, Tree.kind_relocate]
  split
  · exact addDeclaration_relocate g p item
  · exact addName_relocate g p item

theorem ofItems_relocate (items : List Tree) :
    ofItems (items.map (Tree.relocate g)) = (ofItems items).relocate g := by
  have hfold : ∀ p : Ports, (items.map (Tree.relocate g)).foldl add (p.relocate g) =
      (items.foldl add p).relocate g := by
    induction items with
    | nil => exact fun _ => rfl
    | cons item items ih =>
      intro p
      rw [List.map_cons, List.foldl_cons, List.foldl_cons, add_relocate, ih]
  exact hfold .none

end Ports

theorem assignsNode_relocate (hsource : source.origin ≠ .unknown) (start : Nat)
    (assignments : List Tree) :
    (assignsNode source start assignments).relocate g =
      assignsNode g.source (g.place start) (assignments.map (Tree.relocate g)) := by
  rw [assignsNode, relocate_nodeOver g hsource, assignsNode, List.getLast?_map]
  cases assignments.getLast? <;> simp

namespace Phrase

/-- The phrase of the tokens in the places where they have gone. -/
def relocate : {x : Symbol} → Phrase x → Phrase x
  | _, absent => absent
  | _, present p => present p.relocate
  | _, one p => one p.relocate
  | _, more ps s p => more ps.relocate (Lexeme.relocate g s) p.relocate
  | _, none => none
  | _, snoc ps p => snoc ps.relocate p.relocate
  | _, netType t => netType (KeyAmong.relocate g t)
  | _, range o u s l c =>
    range (Lexeme.relocate g o) (u.relocate g) (Lexeme.relocate g s) (l.relocate g)
      (Lexeme.relocate g c)
  | _, portHead d t r name =>
    portHead (KeyAmong.relocate g d) t.relocate r.relocate (Lexeme.relocate g name)
  | _, port p => port p.relocate
  | _, nextPort p s name => nextPort p.relocate (Lexeme.relocate g s) (Lexeme.relocate g name)
  | _, net name => net (Lexeme.relocate g name)
  | _, definedNet name s e =>
    definedNet (Lexeme.relocate g name) (Lexeme.relocate g s) (e.relocate g)
  | _, netDeclaration t r items => netDeclaration t.relocate r.relocate items.relocate
  | _, assignment target s e =>
    assignment (target.relocate g) (Lexeme.relocate g s) (e.relocate g)
  | _, continuousAssign k items => continuousAssign (Lexeme.relocate g k) items.relocate
  | _, declaredPort p => declaredPort p.relocate
  | _, listedPort name => listedPort (Lexeme.relocate g name)
  | _, noPorts o c => noPorts (Lexeme.relocate g o) (Lexeme.relocate g c)
  | _, ports o items c => ports (Lexeme.relocate g o) items.relocate (Lexeme.relocate g c)
  | _, portsItem p s => portsItem p.relocate (Lexeme.relocate g s)
  | _, netsItem p s => netsItem p.relocate (Lexeme.relocate g s)
  | _, assignsItem p s => assignsItem p.relocate (Lexeme.relocate g s)
  | _, spoiled before refused dropped s =>
    spoiled (before.map (Token.relocate g)) (refused.relocate g)
      (dropped.map (Token.relocate g)) (Lexeme.relocate g s)
  | _, cutShort before s => cutShort (before.map (Token.relocate g)) (Lexeme.relocate g s)
  | _, module k name listed s items e =>
    module (Lexeme.relocate g k) (Lexeme.relocate g name) listed.relocate (Lexeme.relocate g s)
      items.relocate (Lexeme.relocate g e)

@[simp] theorem yield_relocate {x : Symbol} (d : Phrase x) :
    (d.relocate g).yield = d.yield.map (Token.relocate g) := by
  induction d with
  | _ => simp_all [relocate, Lexeme.relocate, KeyAmong.relocate]

theorem netType_trees_ne_nil (source : Source) : (d : Phrase .netType) → d.trees source ≠ []
  | .netType _ => List.cons_ne_nil _ _

/-- The trees are those of the phrase elsewhere. -/
theorem trees_relocate (hsource : source.origin ≠ .unknown) {x : Symbol} (d : Phrase x) :
    (d.relocate g).trees g.source = (d.trees source).map (Tree.relocate g) := by
  induction d with
  | absent | none | noPorts => rfl
  | present _ ih | one _ ih | port _ ih | declaredPort _ ih | portsItem _ _ ih | netsItem _ _ ih
  | assignsItem _ _ ih => exact ih
  | more _ _ _ ihps ih | snoc _ _ ihps ih =>
    simp only [relocate, trees, ihps, ih, List.map_append]
  | netType t => exact congrArg (fun t => [t]) (relocate_tokenNode g hsource .netType t.1).symm
  | listedPort t | net t =>
    exact congrArg (fun t => [t]) (relocate_tokenNode g hsource .simpleIdentifier t.1).symm
  | range o u s l c =>
    simp only [relocate, trees, List.map_cons, List.map_nil, List.map_append,
      Derivation.trees_relocate g hsource, relocate_nodeOver g hsource]
    rfl
  | portHead d t r name iht ihr =>
    simp only [relocate, trees, iht, ihr, List.map_cons, List.map_nil, List.map_append,
      Tree.relocate_spanning g _ (List.cons_ne_nil _ _), relocate_tokenNode g hsource]
    rfl
  | nextPort p s name ih =>
    simp only [relocate, trees, ih, List.map_map]
    refine List.map_congr_left fun t _ => ?_
    rw [Function.comp_apply, Function.comp_apply, Tree.relocate_extend,
      relocate_tokenNode g hsource]
    rfl
  | definedNet name s e =>
    simp only [relocate, trees, Derivation.trees_relocate g hsource, List.map_cons, List.map_nil,
      Tree.relocate_spanning g _ (List.cons_ne_nil _ _), relocate_tokenNode g hsource]
    rfl
  | netDeclaration t r items iht ihr ihitems =>
    have hne : t.trees source ++ (r.trees source ++ items.trees source) ≠ [] :=
      List.append_ne_nil_of_left_ne_nil (t.netType_trees_ne_nil source) _
    simp only [relocate, trees, iht, ihr, ihitems, List.map_cons, List.map_nil, List.map_append,
      Tree.relocate_spanning g _ hne]
  | assignment target s e =>
    have hne : target.trees source ++ e.trees source ≠ [] :=
      List.append_ne_nil_of_left_ne_nil (target.trees_nonempty source) _
    simp only [relocate, trees, Derivation.trees_relocate g hsource, List.map_cons, List.map_nil,
      List.map_append, Tree.relocate_spanning g _ hne]
  | continuousAssign k items ih =>
    simp only [relocate, trees, ih, List.map_cons, List.map_nil, assignsNode_relocate g hsource]
    rfl
  | ports o items c ih =>
    simp only [relocate, trees, ih, Ports.ofItems_relocate, Ports.nodes_relocate]
  | spoiled before refused dropped s =>
    simp only [relocate, trees, List.map_cons, List.map_nil, relocate_nodeOver g hsource,
      List.getLast?_map]
    cases dropped.getLast? <;> rfl
  | cutShort before s =>
    simp only [relocate, trees, List.map_cons, List.map_nil, relocate_nodeOver g hsource]
    rfl
  | module k name listed s items e ihlisted ihitems =>
    simp only [relocate, trees, ihlisted, ihitems, List.map_cons, List.map_nil, List.map_append,
      relocate_nodeOver g hsource, relocate_tokenNode g hsource]
    rfl

end Phrase

end Netlist.Grammar
