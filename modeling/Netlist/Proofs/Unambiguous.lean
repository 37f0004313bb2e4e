/-
Tokens have at most one derivation.

That two derivations of the same tokens build the same trees is no matter of the grammar: both drive
the reader, which can end in one state only. It remains to see that a derivation can be told from
its trees and its tokens. The kind of a node says which production it is of. Where the parts of it
begin and end is found by counting: a node tells how many tokens it has itself and how many its
children have (`Derivation.length_yield`). Operators of different tiers make nodes of one kind, but
the operator is a token, and each sign belongs to one tier.
-/
import Netlist.Proofs.DerivationRuns
import Netlist.Proofs.Shapes

set_option autoImplicit false

namespace Netlist

/-! ## Counting tokens -/

/-- How many tokens a node of the kind has next to those of its children. -/
def NodeKind.ownTokens (children : Nat) : NodeKind → Nat
  | unaryExpression | binaryExpression => 0
  | conditionalExpression | bitSelect | indexedRangeSelect | multipleConcatenation
  | parenthesizedExpression => 2
  | rangeSelect => 3
  | concatenation => children + 1
  | _ => 1

/-- The tier of the expressions of the kind, but for the binary ones, which have several. -/
def NodeKind.tier : NodeKind → Nat
  | conditionalExpression => 0
  | unaryExpression => 11
  | _ => 12

namespace Tree

mutual

/-- How many tokens an expression has. -/
def tokenCount : Tree → Nat
  | node k _ ts => k.ownTokens ts.length + tokenCountIn ts

/-- How many tokens a row of expressions has. -/
def tokenCountIn : List Tree → Nat
  | [] => 0
  | t :: ts => tokenCount t + tokenCountIn ts

end

@[simp] theorem tokenCount_node (k : NodeKind) (l : Location) (ts : List Tree) :
    (node k l ts).tokenCount = k.ownTokens ts.length + tokenCountIn ts := by
  rw [tokenCount]

@[simp] theorem tokenCountIn_nil : tokenCountIn [] = 0 := by
  rw [tokenCountIn]

@[simp] theorem tokenCountIn_cons (t : Tree) (ts : List Tree) :
    tokenCountIn (t :: ts) = t.tokenCount + tokenCountIn ts := by
  rw [tokenCountIn]

@[simp] theorem tokenCountIn_append (ts us : List Tree) :
    tokenCountIn (ts ++ us) = tokenCountIn ts + tokenCountIn us := by
  induction ts with
  | nil => simp
  | cons t ts ih => simp [ih, Nat.add_assoc]

@[simp] theorem tokenCount_spanning (k : NodeKind) (ts : List Tree) :
    (spanning k ts).tokenCount = k.ownTokens ts.length + tokenCountIn ts := by
  obtain ⟨l, hl⟩ := spanning_eq_node k ts
  rw [hl, tokenCount_node]

theorem spanning_inj {k k' : NodeKind} {ts us : List Tree} (h : spanning k ts = spanning k' us) :
    k = k' ∧ ts = us := by
  obtain ⟨l, hl⟩ := spanning_eq_node k ts
  obtain ⟨l', hl'⟩ := spanning_eq_node k' us
  rw [hl, hl'] at h
  cases h
  exact ⟨rfl, rfl⟩

end Tree

namespace Grammar

namespace Derivation

variable {source : Source}

theorem length_trees {n : Nonterminal} (d : Derivation n) (source : Source)
    (hn : n ≠ .expressions) :
    (d.trees source).length = 1 := by
  have h := d.isRead source
  cases n with
  | expressions => exact absurd rfl hn
  | _ =>
    obtain ⟨e, he, -⟩ := h
    rw [he]
    rfl

/-- A derivation has as many tokens as its trees say, and a comma between two trees. -/
theorem length_yield {n : Nonterminal} (d : Derivation n) (source : Source) :
    d.yield.length + 1 = Tree.tokenCountIn (d.trees source) + (d.trees source).length := by
  induction d with
  | expression d ih | tighter _ d ih | braced d ih | single d ih => exact ih
  | number | name => rfl
  | conditional c q y s n ihc ihy ihn =>
    have hc := c.length_trees source nofun
    have hy := y.length_trees source nofun
    have hn := n.length_trees source nofun
    simp [yield, trees, NodeKind.ownTokens]
    omega
  | binary l op r ihl ihr =>
    have hl := l.length_trees source nofun
    have hr := r.length_trees source nofun
    simp [yield, trees, tokenNode, nodeOver, NodeKind.ownTokens]
    omega
  | unary op d ih =>
    have h := d.length_trees source nofun
    simp [yield, trees, tokenNode, nodeOver, NodeKind.ownTokens]
    omega
  | bitSelect t o i c ih =>
    have h := i.length_trees source nofun
    simp [yield, trees, tokenNode, nodeOver, NodeKind.ownTokens]
    omega
  | rangeSelect t o u s l c ihu ihl =>
    have hu := u.length_trees source nofun
    have hl := l.length_trees source nofun
    simp [yield, trees, tokenNode, nodeOver, NodeKind.ownTokens]
    omega
  | indexedRangeSelect t o b op w c ihb ihw =>
    have hb := b.length_trees source nofun
    have hw := w.length_trees source nofun
    simp [yield, trees, tokenNode, nodeOver, NodeKind.ownTokens]
    omega
  | replication o n d c ihn ih =>
    have hn := n.length_trees source nofun
    have hd := d.length_trees source nofun
    simp [yield, trees, nodeOver, NodeKind.ownTokens]
    omega
  | parenthesized o d c ih =>
    have h := d.length_trees source nofun
    simp [yield, trees, nodeOver, NodeKind.ownTokens]
    omega
  | concatenation o ds c ih =>
    simp [yield, trees, nodeOver, NodeKind.ownTokens]
    omega
  | more ds s d ihs ih =>
    have h := d.length_trees source nofun
    simp [yield, trees]
    omega

/-- Derivations of the same trees have equally many tokens, so they can be cut off a row. -/
theorem yield_append_inj {n n' : Nonterminal} {d : Derivation n} {d' : Derivation n'}
    {ts us : List Token} (h : d.yield ++ ts = d'.yield ++ us)
    (htrees : d.trees source = d'.trees source) : d.yield = d'.yield ∧ ts = us := by
  have hd := d.length_yield source
  have hd' := d'.length_yield source
  rw [htrees] at hd
  exact List.append_inj h (by omega)

theorem trees_append_inj {n n' : Nonterminal} {d : Derivation n} {d' : Derivation n'}
    {ts us : List Tree} (h : d.trees source ++ ts = d'.trees source ++ us)
    (hn : n ≠ .expressions) (hn' : n' ≠ .expressions) :
    d.trees source = d'.trees source ∧ ts = us :=
  List.append_inj h (by rw [d.length_trees source hn, d'.length_trees source hn'])

/-! ## The tier of a derivation -/

/-- The tier of the derivation is not just the next one. -/
def IsBare : {n : Nonterminal} → Derivation n → Prop
  | _, tighter _ _ => False
  | _, _ => True

theorem exists_isBare {n : Nat} (d : Derivation (.tier n)) (source : Source) : ∃ m, n ≤ m ∧
    ∃ d' : Derivation (.tier m), d'.IsBare ∧ d'.yield = d.yield ∧
      d'.trees source = d.trees source := by
  generalize hn : Nonterminal.tier n = x at d
  induction d generalizing n with
  | tighter _ d ih =>
    cases hn
    obtain ⟨m, hle, d', hbare, hyield, htrees⟩ := ih rfl
    exact ⟨m, by omega, d', hbare, hyield, htrees⟩
  | expression | concatenation | single | more => cases hn
  | _ =>
    cases hn
    refine ⟨_, Nat.le_refl _, _, ?_, rfl, rfl⟩
    trivial

variable {n m : Nat} {d : Derivation (.tier n)} {d' : Derivation (.tier m)} {e : Tree}

/-- The kind of the tree tells the tier, unless the derivation is one of a binary operator. -/
theorem IsBare.tier_cases (h : d.IsBare) (he : d.trees source = [e]) :
    (∃ l op r, d = .binary l op r) ∨ (e.kind ≠ .binaryExpression ∧ n = e.kind.tier) := by
  cases d with
  | tighter => exact h.elim
  | binary l op r => exact .inl ⟨l, op, r, rfl⟩
  | conditional | unary =>
    obtain ⟨l, hl⟩ := Tree.spanning_eq_node _ _
    rw [trees, hl] at he
    obtain rfl := (List.cons.inj he).1
    exact .inr ⟨nofun, rfl⟩
  | braced d =>
    cases d
    obtain rfl := (List.cons.inj he).1
    exact .inr ⟨nofun, rfl⟩
  | _ =>
    obtain rfl := (List.cons.inj he).1
    exact .inr ⟨nofun, rfl⟩

theorem kind_binary {l : Derivation (.tier n)} {op : SignAmong (binaryOperators n)}
    {r : Derivation (.tier (n + 1))} (he : (binary l op r).trees source = [e]) :
    e.kind = .binaryExpression := by
  obtain ⟨l', hl'⟩ := Tree.spanning_eq_node .binaryExpression
    (l.trees source ++ tokenNode source .binaryOperator op.1 :: r.trees source)
  rw [trees, hl'] at he
  obtain rfl := (List.cons.inj he).1
  rfl

/-- The parts of a binary expression. -/
theorem binary_inj {l : Derivation (.tier n)} {op : SignAmong (binaryOperators n)}
    {r : Derivation (.tier (n + 1))} {l' : Derivation (.tier m)}
    {op' : SignAmong (binaryOperators m)} {r' : Derivation (.tier (m + 1))}
    (hyield : (binary l op r).yield = (binary l' op' r').yield)
    (htrees : (binary l op r).trees source = (binary l' op' r').trees source) :
    (l.yield = l'.yield ∧ l.trees source = l'.trees source) ∧ op.1 = op'.1 ∧
      (r.yield = r'.yield ∧ r.trees source = r'.trees source) := by
  have hparts := (Tree.spanning_inj (List.cons.inj htrees).1).2
  obtain ⟨hltrees, hrest⟩ := trees_append_inj hparts nofun nofun
  obtain ⟨hlyield, hrest'⟩ := yield_append_inj hyield hltrees
  obtain ⟨hop, hryield⟩ := List.cons.inj hrest'
  exact ⟨⟨hlyield, hltrees⟩, hop, hryield, (List.cons.inj hrest).2⟩

/-- A sign belongs to one tier. -/
theorem tier_unique (op : SignAmong (binaryOperators n)) (op' : SignAmong (binaryOperators m))
    (h : op.1 = op'.1) : n = m := by
  obtain ⟨t, p, hmem, hp⟩ := op
  obtain ⟨t', p', hmem', hp'⟩ := op'
  cases h
  rw [hp] at hp'
  cases hp'
  rw [mem_binaryOperators_iff] at hmem hmem'
  exact Option.some.inj (hmem.symm.trans hmem')

/-- Trees and tokens tell the tier. -/
theorem IsBare.tier_eq (h : d.IsBare) (h' : d'.IsBare) (hyield : d.yield = d'.yield)
    (htrees : d.trees source = d'.trees source) : n = m := by
  obtain ⟨e, he⟩ := List.length_eq_one_iff.1 (d.length_trees source nofun)
  have he' := htrees.symm.trans he
  rcases h.tier_cases he with ⟨l, op, r, rfl⟩ | ⟨hkind, htier⟩
  · rcases h'.tier_cases he' with ⟨l', op', r', rfl⟩ | ⟨hkind, -⟩
    · exact tier_unique op op' (binary_inj hyield htrees).2.1
    · exact absurd (kind_binary he) hkind
  · rcases h'.tier_cases he' with ⟨l', op', r', rfl⟩ | ⟨-, htier'⟩
    · exact absurd (kind_binary he') hkind
    · rw [htier, htier']

/-- A derivation at the next tier is told from those that have their own. -/
theorem IsBare.not_tighter {hlt : n < 12} {d : Derivation (.tier (n + 1))}
    {d' : Derivation (.tier n)} (h' : d'.IsBare) (hyield : (tighter hlt d).yield = d'.yield)
    (htrees : (tighter hlt d).trees source = d'.trees source) : False := by
  obtain ⟨m, hle, d'', h'', hyield', htrees'⟩ := d.exists_isBare source
  have hm := h''.tier_eq h' (hyield'.trans hyield) (htrees'.trans htrees)
  omega

/-- The kind of the tree of a primary. -/
def primaryKind : Derivation (.tier 12) → NodeKind
  | number _ => .number
  | name _ => .simpleIdentifier
  | bitSelect _ _ _ _ => .bitSelect
  | rangeSelect _ _ _ _ _ _ => .rangeSelect
  | indexedRangeSelect _ _ _ _ _ _ => .indexedRangeSelect
  | braced _ => .concatenation
  | replication _ _ _ _ => .multipleConcatenation
  | parenthesized _ _ _ => .parenthesizedExpression
  -- a primary has no tighter tier and no operator of its own
  | tighter _ _ => .error
  | binary _ _ _ => .error

theorem map_kind_trees (d : Derivation (.tier 12)) (source : Source) :
    (d.trees source).map Tree.kind = [d.primaryKind] := by
  cases d with
  | tighter hlt => exact absurd hlt (Nat.lt_irrefl 12)
  | binary l op r => exact absurd op.tier_bounds (by decide)
  | braced d =>
    cases d
    rfl
  | _ => rfl

theorem primaryKind_eq {d d' : Derivation (.tier 12)} (h : d.trees source = d'.trees source) :
    d.primaryKind = d'.primaryKind := by
  have hkinds := d.map_kind_trees source
  rw [h, map_kind_trees] at hkinds
  exact (List.cons.inj hkinds).1.symm

theorem single_ne_more {d d' : Derivation .expression} {ds : Derivation .expressions}
    {s : Sign .comma} (h : (single d).trees source = (more ds s d').trees source) : False := by
  have hd := d.length_trees source nofun
  have hd' := d'.length_trees source nofun
  have hlength := congrArg List.length h
  rw [trees, trees, List.length_append, hd, hd'] at hlength
  exact ds.trees_ne_nil source (List.eq_nil_of_length_eq_zero (by omega))

/-! ## Unambiguity -/

/-- A derivation can be told from its tokens and its trees. -/
theorem eq_of_trees_eq {x : Nonterminal} {d d' : Derivation x} (hyield : d.yield = d'.yield)
    (htrees : d.trees source = d'.trees source) : d = d' := by
  induction d with
  | expression d ih =>
    cases d' with
    | expression d' => rw [ih hyield htrees]
  | tighter hlt d ih =>
    cases d' with
    | tighter _ d' => rw [ih hyield htrees]
    | conditional | binary | unary => exact (IsBare.not_tighter (by trivial) hyield htrees).elim
    | _ => exact absurd hlt (Nat.lt_irrefl 12)
  | binary l op r ihl ihr =>
    cases d' with
    | tighter hlt d' => exact (IsBare.not_tighter (by trivial) hyield.symm htrees.symm).elim
    | binary l' op' r' =>
      obtain ⟨⟨hlyield, hltrees⟩, hop, hryield, hrtrees⟩ := binary_inj hyield htrees
      rw [ihl hlyield hltrees, Subtype.ext hop, ihr hryield hrtrees]
    | _ => exact absurd op.tier_bounds (by decide)
  | conditional c q y s n ihc ihy ihn =>
    cases d' with
    | tighter hlt d' => exact (IsBare.not_tighter (by trivial) hyield.symm htrees.symm).elim
    | binary l op r => exact absurd op.tier_bounds (by decide)
    | conditional c' q' y' s' n' =>
      -- the trees of the parts first, since they say how many tokens to cut off
      have hparts := (Tree.spanning_inj (List.cons.inj htrees).1).2
      obtain ⟨hctrees, hparts⟩ := trees_append_inj hparts nofun nofun
      obtain ⟨hytrees, hntrees⟩ := trees_append_inj hparts nofun nofun
      obtain ⟨hcyield, hrest⟩ := yield_append_inj hyield hctrees
      obtain ⟨hq, hrest⟩ := List.cons.inj hrest
      obtain ⟨hyyield, hrest⟩ := yield_append_inj hrest hytrees
      obtain ⟨hs, hnyield⟩ := List.cons.inj hrest
      rw [ihc hcyield hctrees, Subtype.ext hq, ihy hyyield hytrees, Subtype.ext hs,
        ihn hnyield hntrees]
  | unary op d ih =>
    cases d' with
    | tighter hlt d' => exact (IsBare.not_tighter (by trivial) hyield.symm htrees.symm).elim
    | binary l op' r => exact absurd op'.tier_bounds (by decide)
    | unary op' d' =>
      have hparts := (Tree.spanning_inj (List.cons.inj htrees).1).2
      obtain ⟨hop, hdyield⟩ := List.cons.inj hyield
      rw [Subtype.ext hop, ih hdyield (List.cons.inj hparts).2]
  -- primaries are told apart by the kinds of their trees
  | number t =>
    have hkind := primaryKind_eq htrees
    cases d' with
    | number t' => rw [Subtype.ext (List.cons.inj hyield).1]
    | _ => cases hkind
  | name t =>
    have hkind := primaryKind_eq htrees
    cases d' with
    | name t' => rw [Subtype.ext (List.cons.inj hyield).1]
    | _ => cases hkind
  | bitSelect t o i c ih =>
    have hkind := primaryKind_eq htrees
    cases d' with
    | bitSelect t' o' i' c' =>
      have hitrees := (List.cons.inj (Tree.node.inj (List.cons.inj htrees).1).2.2).2
      obtain ⟨ht, hrest⟩ := List.cons.inj hyield
      obtain ⟨ho, hrest⟩ := List.cons.inj hrest
      obtain ⟨hiyield, hrest⟩ := yield_append_inj hrest hitrees
      rw [Subtype.ext ht, Subtype.ext ho, ih hiyield hitrees, Subtype.ext (List.cons.inj hrest).1]
    | _ => cases hkind
  | rangeSelect t o u s l c ihu ihl =>
    have hkind := primaryKind_eq htrees
    cases d' with
    | rangeSelect t' o' u' s' l' c' =>
      have hparts := (List.cons.inj (Tree.node.inj (List.cons.inj htrees).1).2.2).2
      obtain ⟨hutrees, hltrees⟩ := trees_append_inj hparts nofun nofun
      obtain ⟨ht, hrest⟩ := List.cons.inj hyield
      obtain ⟨ho, hrest⟩ := List.cons.inj hrest
      obtain ⟨huyield, hrest⟩ := yield_append_inj hrest hutrees
      obtain ⟨hs, hrest⟩ := List.cons.inj hrest
      obtain ⟨hlyield, hrest⟩ := yield_append_inj hrest hltrees
      rw [Subtype.ext ht, Subtype.ext ho, ihu huyield hutrees, Subtype.ext hs,
        ihl hlyield hltrees, Subtype.ext (List.cons.inj hrest).1]
    | _ => cases hkind
  | indexedRangeSelect t o b op w c ihb ihw =>
    have hkind := primaryKind_eq htrees
    cases d' with
    | indexedRangeSelect t' o' b' op' w' c' =>
      have hparts := (List.cons.inj (Tree.node.inj (List.cons.inj htrees).1).2.2).2
      obtain ⟨hbtrees, hparts⟩ := trees_append_inj hparts nofun nofun
      have hwtrees := (List.cons.inj hparts).2
      obtain ⟨ht, hrest⟩ := List.cons.inj hyield
      obtain ⟨ho, hrest⟩ := List.cons.inj hrest
      obtain ⟨hbyield, hrest⟩ := yield_append_inj hrest hbtrees
      obtain ⟨hop, hrest⟩ := List.cons.inj hrest
      obtain ⟨hwyield, hrest⟩ := yield_append_inj hrest hwtrees
      rw [Subtype.ext ht, Subtype.ext ho, ihb hbyield hbtrees, Subtype.ext hop,
        ihw hwyield hwtrees, Subtype.ext (List.cons.inj hrest).1]
    | _ => cases hkind
  | braced d ih =>
    have hkind := primaryKind_eq htrees
    cases d' with
    | braced d' => rw [ih hyield htrees]
    | _ => cases hkind
  | replication o n d c ihn ih =>
    have hkind := primaryKind_eq htrees
    cases d' with
    | replication o' n' d' c' =>
      have hparts := (Tree.node.inj (List.cons.inj htrees).1).2.2
      obtain ⟨hntrees, hdtrees⟩ := trees_append_inj hparts nofun nofun
      obtain ⟨ho, hrest⟩ := List.cons.inj hyield
      obtain ⟨hnyield, hrest⟩ := yield_append_inj hrest hntrees
      obtain ⟨hdyield, hrest⟩ := yield_append_inj hrest hdtrees
      rw [Subtype.ext ho, ihn hnyield hntrees, ih hdyield hdtrees,
        Subtype.ext (List.cons.inj hrest).1]
    | _ => cases hkind
  | parenthesized o d c ih =>
    have hkind := primaryKind_eq htrees
    cases d' with
    | parenthesized o' d' c' =>
      have hdtrees := (Tree.node.inj (List.cons.inj htrees).1).2.2
      obtain ⟨ho, hrest⟩ := List.cons.inj hyield
      obtain ⟨hdyield, hrest⟩ := yield_append_inj hrest hdtrees
      rw [Subtype.ext ho, ih hdyield hdtrees, Subtype.ext (List.cons.inj hrest).1]
    | _ => cases hkind
  | concatenation o ds c ih =>
    cases d' with
    | concatenation o' ds' c' =>
      have hdtrees := (Tree.node.inj (List.cons.inj htrees).1).2.2
      obtain ⟨ho, hrest⟩ := List.cons.inj hyield
      obtain ⟨hdyield, hrest⟩ := yield_append_inj hrest hdtrees
      rw [Subtype.ext ho, ih hdyield hdtrees, Subtype.ext (List.cons.inj hrest).1]
  | single d ih =>
    cases d' with
    | single d' => rw [ih hyield htrees]
    | more ds' s d' => exact (single_ne_more htrees).elim
  | more ds s d ihs ih =>
    cases d' with
    | single d' => exact (single_ne_more htrees.symm).elim
    | more ds' s' d' =>
      have hd := d.length_trees source nofun
      have hd' := d'.length_trees source nofun
      obtain ⟨hdstrees, hdtrees⟩ := List.append_inj' htrees (hd.trans hd'.symm)
      obtain ⟨hdsyield, hrest⟩ := yield_append_inj hyield hdstrees
      obtain ⟨hs, hdyield⟩ := List.cons.inj hrest
      rw [ihs hdsyield hdstrees, Subtype.ext hs, ih hdyield hdtrees]

/-- Tokens have at most one derivation as an expression: the reader gives its tree. -/
theorem eq_of_yield_eq {d d' : Derivation .expression} (h : d.yield = d'.yield) : d = d' := by
  obtain ⟨e, r, he, hr, hf⟩ := d.exists_run ⟨.unknown, []⟩
  obtain ⟨e', r', he', hr', hf'⟩ := d'.exists_run ⟨.unknown, []⟩
  rw [h] at hr
  obtain rfl := hr.unique hr'
  rw [hf] at hf'
  obtain rfl := Option.some.inj hf'
  exact eq_of_trees_eq h (he.trans he'.symm)

end Derivation

end Grammar

end Netlist
