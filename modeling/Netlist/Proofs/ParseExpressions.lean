/-
Which texts are read as expressions, and as which trees.

A text is read as an expression if it is made of tokens that the grammar derives, and the tree is
that of their only derivation (`parseExpression_eq_ok_iff`). How the operators of an accepted text
group is then a matter of the grammar: every operand is derived at the tier that the production of
its operator asks for, and the tree of a derivation at a tier binds at least as tightly
(`Derivation.le_tier`).
-/
import Netlist.Proofs.Lexing
import Netlist.Proofs.ReadFiles
import Netlist.Proofs.RunDerivations
import Netlist.Proofs.Unambiguous

set_option autoImplicit false

namespace Netlist

/-- The kinds whose operands are told apart by their tiers. -/
def NodeKind.isGrouping : NodeKind → Bool
  | conditionalExpression | unaryExpression | binaryExpression => true
  | _ => false

namespace Tree

/-! ## Tiers -/

/-- How tightly the outermost construct of an expression binds: the operator of a binary
expression says it, and otherwise the kind does. -/
def tier (t : Tree) : Nat :=
  match t.kind, t.children with
  | .binaryExpression, [_, op, _] =>
    ((BinaryOperator.ofText? op.text).map BinaryOperator.tier).getD 0
  | k, _ => k.tier

theorem tier_of_kind_ne {t : Tree} (h : t.kind ≠ .binaryExpression) : t.tier = t.kind.tier := by
  unfold tier
  split
  · next hkind _ => exact absurd hkind h
  · rfl

/-- The operator or the conditional at the root has the operands that its tier asks for. -/
structure Grouped (t : Tree) : Prop where
  binary : t.kind = .binaryExpression → ∃ left op right operator, t.children = [left, op, right] ∧
    BinaryOperator.ofText? op.text = some operator ∧
    operator.tier ≤ left.tier ∧ operator.tier < right.tier
  conditional : t.kind = .conditionalExpression → ∃ condition yes no,
    t.children = [condition, yes, no] ∧ condition.kind ≠ .conditionalExpression
  unary : t.kind = .unaryExpression → ∃ op e, t.children = [op, e] ∧ 11 ≤ e.tier

/-- Only operators and conditionals ask for anything. -/
theorem everywhere_grouped_of_kind {k : NodeKind} {l : Location} {ts : List Tree}
    (hk : k.isGrouping = false) (h : ∀ t ∈ ts, t.Everywhere Grouped) :
    (node k l ts).Everywhere Grouped := by
  refine .intro ⟨?_, ?_, ?_⟩ h
  · rintro rfl
    cases hk
  · rintro rfl
    cases hk
  · rintro rfl
    cases hk

end Tree

namespace Grammar

variable {source : Source} {ts : List Token} {t : Tree}

/-! ## Accepted texts -/

theorem tokens_eq_ok_iff : tokens source = .ok ts ↔ Token.Scans 0 source.contents ts [] := by
  rw [← Token.scan_eq_ok_iff, tokens]
  cases Token.scan source.contents with
  | ok us => simp
  | error offset => simp

theorem expressionOfTokens_eq_ok_iff : expressionOfTokens source ts = .ok t ↔
    ∃ r, Reads (Reader.step source) (.start .any) ts r ∧ r.finish? = some t := by
  simp only [← Reader.run_eq_ok_iff]
  unfold expressionOfTokens
  constructor
  · intro h
    split at h
    · cases h
    · next r hrun =>
      split at h
      · next hfinish =>
        cases h
        exact ⟨r, hrun, hfinish⟩
      · cases h
  · rintro ⟨r, hrun, hfinish⟩
    simp only [hrun, hfinish]

/-- A source is read as an expression if its tokens are derived, and as the tree that is
derived. -/
theorem parseExpression_eq_ok_iff : parseExpression source = .ok t ↔
    ∃ ts, Token.Scans 0 source.contents ts [] ∧
      ∃ d : Derivation .expression, d.yield = ts ∧ d.trees source = [t] := by
  constructor
  · intro h
    obtain ⟨ts, hts, ht⟩ := exists_of_bind_eq_ok h
    obtain ⟨r, hr, hf⟩ := expressionOfTokens_eq_ok_iff.1 ht
    exact ⟨ts, tokens_eq_ok_iff.1 hts, Reader.derives_of_reads hr hf⟩
  · rintro ⟨ts, hts, d, rfl, hd⟩
    obtain ⟨e, r, he, hr, hf⟩ := d.exists_run source
    have ht : expressionOfTokens source d.yield = .ok t := by
      rw [hd] at he
      obtain rfl := (List.cons.inj he).1
      exact expressionOfTokens_eq_ok_iff.2 ⟨r, hr, hf⟩
    rw [parseExpression, tokens_eq_ok_iff.2 hts]
    exact ht

/-! ## Grouping -/

section Grouping

variable {n : Nat} {e : Tree}

theorem ofText?_tokenNode (op : SignAmong (binaryOperators n)) (h : op.1.ReadFrom source.contents) :
    ∃ operator, BinaryOperator.ofText? (tokenNode source .binaryOperator op.1).text =
      some operator ∧ operator.tier = n := by
  obtain ⟨t, p, hmem, hp⟩ := op
  obtain ⟨operator, hoperator, htier⟩ := Option.map_eq_some_iff.1 (mem_binaryOperators_iff.1 hmem)
  have htext : (tokenNode source .binaryOperator t).text = operator.text :=
    (Token.text_of_punctuation h hp).trans (Punctuation.text_of_binary? hoperator)
  refine ⟨operator, ?_, htier⟩
  rw [htext, BinaryOperator.ofText?_text]

theorem everywhere_grouped_tokenNode {k : NodeKind} (hk : k.isGrouping = false) (t : Token) :
    (tokenNode source k t).Everywhere Tree.Grouped :=
  Tree.everywhere_grouped_of_kind hk nofun

namespace Derivation

theorem exists_trees_eq {x : Nonterminal} (d : Derivation x) (source : Source)
    (hx : x ≠ .expressions) : ∃ e, d.trees source = [e] :=
  List.length_eq_one_iff.1 (d.length_trees source hx)

/-- What is derived at a tier binds at least as tightly. -/
theorem le_tier (d : Derivation (.tier n)) (h : ∀ t ∈ d.yield, t.ReadFrom source.contents)
    (he : d.trees source = [e]) : n ≤ e.tier := by
  obtain ⟨m, hle, d', hbare, hyield, htrees⟩ := d.exists_isBare source
  rw [← hyield] at h
  rw [← htrees] at he
  apply Nat.le_trans hle
  rcases hbare.tier_cases he with ⟨l, op, r, rfl⟩ | ⟨hkind, htier⟩
  · obtain ⟨left, hleft⟩ := l.exists_trees_eq source nofun
    obtain ⟨right, hright⟩ := r.exists_trees_eq source nofun
    have hop : op.1.ReadFrom source.contents :=
      h _ (List.mem_append_right _ List.mem_cons_self)
    obtain ⟨operator, hoperator, rfl⟩ := ofText?_tokenNode op hop
    rw [trees, hleft, hright] at he
    obtain rfl := (List.cons.inj he).1
    simp only [Tree.tier, List.singleton_append, Tree.spanning, List.head?_cons,
      List.getLast?_cons_cons, List.getLast?_singleton, Tree.kind_node, Tree.children_node,
      hoperator, Option.map_some, Option.getD_some, Nat.le_refl]
  · rw [Tree.tier_of_kind_ne hkind, htier]

/-- Every tree of a derivation is grouped. -/
theorem grouped {x : Nonterminal} (d : Derivation x)
    (h : ∀ t ∈ d.yield, t.ReadFrom source.contents) :
    ∀ e ∈ d.trees source, e.Everywhere Tree.Grouped := by
  induction d with
  | expression d ih | tighter _ d ih | braced d ih | single d ih => exact ih h
  | number t | name t => exact List.forall_mem_singleton.2 (everywhere_grouped_tokenNode rfl t.1)
  | conditional c q y s n ihc ihy ihn =>
    simp only [yield, List.forall_mem_append, List.forall_mem_cons] at h
    obtain ⟨hc, -, hy, -, hn⟩ := h
    obtain ⟨condition, hcondition⟩ := c.exists_trees_eq source nofun
    obtain ⟨yes, hyes⟩ := y.exists_trees_eq source nofun
    obtain ⟨no, hno⟩ := n.exists_trees_eq source nofun
    have hparts := List.forall_mem_append.2 ⟨ihc hc, List.forall_mem_append.2 ⟨ihy hy, ihn hn⟩⟩
    have htier := c.le_tier hc hcondition
    -- a conditional has tier 0, and the condition is derived at tier 1
    have hkind : condition.kind ≠ .conditionalExpression := by
      intro hkind
      rw [Tree.tier_of_kind_ne (by rw [hkind]; nofun), hkind] at htier
      exact absurd htier (by decide)
    rw [trees]
    rw [hcondition, hyes, hno] at hparts ⊢
    exact List.forall_mem_singleton.2
      (.intro ⟨nofun, fun _ => ⟨condition, yes, no, rfl, hkind⟩, nofun⟩ hparts)
  | binary l op r ihl ihr =>
    simp only [yield, List.forall_mem_append, List.forall_mem_cons] at h
    obtain ⟨hl, hop, hr⟩ := h
    obtain ⟨left, hleft⟩ := l.exists_trees_eq source nofun
    obtain ⟨right, hright⟩ := r.exists_trees_eq source nofun
    have hparts : ∀ e ∈ l.trees source ++ tokenNode source .binaryOperator op.1 :: r.trees source,
        e.Everywhere Tree.Grouped := List.forall_mem_append.2
      ⟨ihl hl, List.forall_mem_cons.2 ⟨everywhere_grouped_tokenNode rfl op.1, ihr hr⟩⟩
    obtain ⟨operator, hoperator, rfl⟩ := ofText?_tokenNode op hop
    rw [trees]
    rw [hleft, hright] at hparts ⊢
    exact List.forall_mem_singleton.2 (.intro ⟨fun _ => ⟨left, _, right, operator, rfl, hoperator,
      l.le_tier hl hleft, r.le_tier hr hright⟩, nofun, nofun⟩ hparts)
  | unary op d ih =>
    simp only [yield, List.forall_mem_cons] at h
    obtain ⟨e, he⟩ := d.exists_trees_eq source nofun
    have hparts : ∀ e ∈ tokenNode source .unaryOperator op.1 :: d.trees source,
        e.Everywhere Tree.Grouped :=
      List.forall_mem_cons.2 ⟨everywhere_grouped_tokenNode rfl op.1, ih h.2⟩
    rw [trees]
    rw [he] at hparts ⊢
    exact List.forall_mem_singleton.2
      (.intro ⟨nofun, nofun, fun _ => ⟨_, e, rfl, d.le_tier h.2 he⟩⟩ hparts)
  | bitSelect t o i c ih =>
    simp only [yield, List.forall_mem_append, List.forall_mem_cons] at h
    rw [trees, List.forall_mem_singleton]
    apply Tree.everywhere_grouped_of_kind rfl
    exact List.forall_mem_cons.2 ⟨everywhere_grouped_tokenNode rfl t.1, ih h.2.2.1⟩
  | rangeSelect t o u s l c ihu ihl =>
    simp only [yield, List.forall_mem_append, List.forall_mem_cons] at h
    rw [trees, List.forall_mem_singleton]
    apply Tree.everywhere_grouped_of_kind rfl
    exact List.forall_mem_cons.2 ⟨everywhere_grouped_tokenNode rfl t.1,
      List.forall_mem_append.2 ⟨ihu h.2.2.1, ihl h.2.2.2.2.1⟩⟩
  | indexedRangeSelect t o b op w c ihb ihw =>
    simp only [yield, List.forall_mem_append, List.forall_mem_cons] at h
    rw [trees, List.forall_mem_singleton]
    apply Tree.everywhere_grouped_of_kind rfl
    exact List.forall_mem_cons.2 ⟨everywhere_grouped_tokenNode rfl t.1,
      List.forall_mem_append.2 ⟨ihb h.2.2.1,
        List.forall_mem_cons.2 ⟨everywhere_grouped_tokenNode rfl op.1, ihw h.2.2.2.2.1⟩⟩⟩
  | replication o n d c ihn ih =>
    simp only [yield, List.forall_mem_append, List.forall_mem_cons] at h
    rw [trees, List.forall_mem_singleton]
    apply Tree.everywhere_grouped_of_kind rfl
    exact List.forall_mem_append.2 ⟨ihn h.2.1, ih h.2.2.1⟩
  | parenthesized o d c ih =>
    simp only [yield, List.forall_mem_append, List.forall_mem_cons] at h
    rw [trees, List.forall_mem_singleton]
    exact Tree.everywhere_grouped_of_kind rfl (ih h.2.1)
  | concatenation o ds c ih =>
    simp only [yield, List.forall_mem_append, List.forall_mem_cons] at h
    rw [trees, List.forall_mem_singleton]
    exact Tree.everywhere_grouped_of_kind rfl (ih h.2.1)
  | more ds s d ihs ih =>
    simp only [yield, List.forall_mem_append, List.forall_mem_cons] at h
    exact List.forall_mem_append.2 ⟨ihs h.1, ih h.2.2⟩

end Derivation

end Grouping

/-- A conditional whose last arm is a conditional. -/
def nestedConditionalText : String :=
  "a ? b : c ? d : e"

theorem exists_nestedConditional :
    ∃ t last, parseExpression (.ofText nestedConditionalText) = .ok t ∧
      t.kind = .conditionalExpression ∧ t.children.getLast? = some last ∧
      last.kind = .conditionalExpression := by
  have hkinds : (parseExpression (.ofText nestedConditionalText)).toOption.map
      (fun t => (t.kind, t.children.getLast?.map Tree.kind)) =
        some (.conditionalExpression, some .conditionalExpression) := by
    decide +kernel
  obtain ⟨t, ht, heq⟩ := Option.map_eq_some_iff.1 hkinds
  obtain ⟨hkind, hlast⟩ := Prod.mk.inj heq
  obtain ⟨last, hlast, hkind'⟩ := Option.map_eq_some_iff.1 hlast
  exact ⟨t, last, of_toOption_eq_some ht, hkind, hlast, hkind'⟩

/-- A text is read as an expression exactly if it is made of tokens that the grammar derives. The
tokens and the derivation are the only ones, the tree is that of the derivation, and in it all
operators and conditionals have operands of the right tiers; the last arm of a conditional may be a
conditional. -/
theorem parseExpression_derivation (source : Source) :
    ((∃ t, parseExpression source = .ok t) ↔
      ∃ ts, Token.Scans 0 source.contents ts [] ∧
        ∃ d : Derivation .expression, d.yield = ts) ∧
    (∀ t, parseExpression source = .ok t →
      (∃ ts, (∀ us, Token.Scans 0 source.contents us [] ↔ us = ts) ∧
        ∃ d : Derivation .expression, d.yield = ts ∧ d.trees source = [t] ∧
          ∀ d' : Derivation .expression, d'.yield = ts → d' = d) ∧
      t.Everywhere Tree.Grouped) ∧
    ∃ source' t last, parseExpression source' = .ok t ∧ t.kind = .conditionalExpression ∧
      t.children.getLast? = some last ∧ last.kind = .conditionalExpression := by
  refine ⟨⟨?_, ?_⟩, ?_, _, exists_nestedConditional⟩
  · rintro ⟨t, ht⟩
    obtain ⟨ts, hts, d, hd, -⟩ := parseExpression_eq_ok_iff.1 ht
    exact ⟨ts, hts, d, hd⟩
  · rintro ⟨ts, hts, d, hd⟩
    obtain ⟨t, ht⟩ := d.exists_trees_eq source nofun
    exact ⟨t, parseExpression_eq_ok_iff.2 ⟨ts, hts, d, hd, ht⟩⟩
  · intro t ht
    obtain ⟨ts, hts, d, rfl, hd⟩ := parseExpression_eq_ok_iff.1 ht
    refine ⟨⟨d.yield, fun us => ⟨fun hus => hus.unique hts, ?_⟩, d, rfl, hd, ?_⟩, ?_⟩
    · rintro rfl
      exact hts
    · intro d' hd'
      exact Derivation.eq_of_yield_eq hd'
    · have hread := Token.readFrom_of_scan (Token.scan_eq_ok_iff.2 hts)
      apply d.grouped hread
      rw [hd]
      exact List.mem_cons_self

end Grammar

end Netlist
