/-
Expressions that come from text.

An expression that a text stands for is more than any expression: its names and numbers are
lexemes, its operators are signs, only names are selected from, and its bounds are numbers that a
constant may be. `Printable` says just this, and every expression that is lowered from a derivation
is printable (`Derivation.printable`), by one case a production.
-/
import Netlist.Proofs.Constants
import Netlist.Proofs.Lowering
import Netlist.Proofs.Numerals
import Netlist.Proofs.ParseExpressions

set_option autoImplicit false

namespace Netlist

/-! ## Bounds -/

/-- The number that a constant stands for is one that a constant may be. -/
theorem Tree.constant?_lt {t : Tree} {n : Int} (h : t.constant? = some n) :
    n < constantLimit := by
  rw [constantLimit_eq]
  exact Int.lt_of_le_sub_one (constant?_bounded h).2

namespace Expr

theorem lt_of_bound {t : Tree} {n : Nat} (h : (bound t).run.value = some n) :
    (n : Int) < constantLimit := by
  unfold bound at h
  split at h
  · next m hm =>
    rw [value_pure_eq_some] at h
    subst h
    unfold Tree.natConstant? at hm
    split at hm
    · next k hk =>
      by_cases hnonneg : 0 ≤ k
      · rw [if_pos hnonneg] at hm
        cases hm
        rw [Int.toNat_of_nonneg hnonneg]
        exact Tree.constant?_lt hk
      · rw [if_neg hnonneg] at hm
        cases hm
    · cases hm
  · exact absurd h value_refuse_ne_some

/-! ## Printable expressions -/

/-- An expression as it comes from text. -/
inductive Printable : Expr → Prop
  | constant {text : String} : Terminal.Claims .number text.toList → Printable (.constant text)
  | signal {name : String} : Terminal.Claims .identifier name.toList → Printable (.signal name)
  | binary {p : Punctuation} {left right : Expr} : p.binary?.isSome → Printable left →
      Printable right → Printable (.binary p.text left right)
  | unary {p : Punctuation} {operand : Expr} : p.unary?.isSome → Printable operand →
      Printable (.unary p.text operand)
  | conditional {condition yes no : Expr} : Printable condition → Printable yes → Printable no →
      Printable (.conditional condition yes no)
  | concat {parts : List Expr} : parts ≠ [] → (∀ e ∈ parts, Printable e) →
      Printable (.concat parts)
  | replicate {body count : Expr} : Printable body → Printable count →
      Printable (.replicate body count)
  | slice {name : String} {start stop : Nat} : Terminal.Claims .identifier name.toList →
      (start : Int) < constantLimit → (stop : Int) < constantLimit →
      Printable (.slice (.signal name) start stop)
  | partSelect {name : String} {base : Expr} {size : Nat} :
      Terminal.Claims .identifier name.toList → Printable base →
      ((size + 1 : Nat) : Int) < constantLimit →
      Printable (.partSelect (.signal name) base (size + 1))
  | select {name : String} {index : Expr} : Terminal.Claims .identifier name.toList →
      Printable index → Printable (.select (.signal name) index)

variable {e body base : Expr} {name : String}

/-- What stands in braces is printable without them. -/
theorem Printable.unwrap (h : e.Printable) : (unwrap e).Printable := by
  unfold Expr.unwrap
  split
  · cases h with
    | concat _ hparts => exact hparts _ List.mem_cons_self
  · exact h

/-- A selection downwards has a subtraction at its base, of a number that reads as it is written. -/
theorem printable_of_partSelectOf {op width : Tree}
    (hname : Terminal.Claims .identifier name.toList) (hbase : base.Printable)
    (h : (partSelectOf (.signal name) base op width).run.value = some e) : e.Printable := by
  rw [Expr.partSelectOf] at h
  obtain ⟨bits, hbits, h⟩ := value_bind_eq_some.1 h
  have hlt := lt_of_bound hbits
  split at h
  · exact absurd h value_refuse_ne_some
  · next size =>
    split at h
    · rw [value_pure_eq_some] at h
      exact h ▸ .partSelect hname hbase hlt
    · rw [value_pure_eq_some] at h
      subst h
      have hsize : (constant (Radix.decimal.numeral size)).Printable :=
        .constant (Radix.claims_numeral size)
      have hminus : (Expr.binary "-" base (.constant (Radix.decimal.numeral size))).Printable :=
        .binary (p := .minus) rfl hbase hsize
      exact .partSelect hname hminus hlt
    · exact absurd h value_refuse_ne_some

end Expr

/-! ## Trees that stand for printable expressions -/

namespace Tree

open Netlist.Expr

/-- What the tree stands for is printable. -/
def IsPrintable (t : Tree) : Prop :=
  ∀ e, (ofTree t).run.value = some e → e.Printable

/-- The tree is a name, and stands for it. -/
def IsNamed (t : Tree) : Prop :=
  ∀ e, (ofTree t).run.value = some e →
    ∃ name, Terminal.Claims .identifier name.toList ∧ e = .signal name

variable {l : Location} {t name op left right condition yes no count inner : Tree}

theorem IsNamed.isPrintable (h : t.IsNamed) : t.IsPrintable := by
  intro e he
  obtain ⟨name, hname, rfl⟩ := h e he
  exact .signal hname

theorem IsPrintable.parenthesized (h : t.IsPrintable) :
    (node .parenthesizedExpression l [t]).IsPrintable := by
  intro e he
  rw [ofTree] at he
  exact h e he

theorem IsPrintable.conditional (hc : condition.IsPrintable) (hy : yes.IsPrintable)
    (hn : no.IsPrintable) :
    (node .conditionalExpression l [condition, yes, no]).IsPrintable := by
  intro e he
  rw [ofTree] at he
  obtain ⟨e₁, h₁, he⟩ := value_bind_eq_some.1 he
  obtain ⟨e₂, h₂, he⟩ := value_bind_eq_some.1 he
  obtain ⟨e₃, h₃, he⟩ := value_bind_eq_some.1 he
  rw [value_pure_eq_some] at he
  exact he ▸ .conditional (hc e₁ h₁) (hy e₂ h₂) (hn e₃ h₃)

theorem IsPrintable.unary {p : Punctuation} (hop : op.text = p.text) (hp : p.unary?.isSome)
    (h : t.IsPrintable) : (node .unaryExpression l [op, t]).IsPrintable := by
  intro e he
  rw [ofTree, hop, p.trim_text] at he
  obtain ⟨e₁, h₁, he⟩ := value_bind_eq_some.1 he
  rw [value_pure_eq_some] at he
  exact he ▸ .unary hp (h e₁ h₁)

theorem IsPrintable.binary {p : Punctuation} (hop : op.text = p.text) (hp : p.binary?.isSome)
    (hl : left.IsPrintable) (hr : right.IsPrintable) :
    (node .binaryExpression l [left, op, right]).IsPrintable := by
  intro e he
  rw [ofTree, hop, p.trim_text] at he
  obtain ⟨e₁, h₁, he⟩ := value_bind_eq_some.1 he
  obtain ⟨e₂, h₂, he⟩ := value_bind_eq_some.1 he
  rw [value_pure_eq_some] at he
  exact he ▸ .binary hp (hl e₁ h₁) (hr e₂ h₂)

theorem IsPrintable.concatenation {ts : List Tree} (hne : ts ≠ [])
    (h : ∀ t ∈ ts, t.IsPrintable) : (node .concatenation l ts).IsPrintable := by
  obtain ⟨first, rest, rfl⟩ := List.exists_cons_of_ne_nil hne
  intro e he
  rw [ofTree] at he
  obtain ⟨e₁, h₁, he⟩ := value_bind_eq_some.1 he
  obtain ⟨es, hes, he⟩ := value_bind_eq_some.1 he
  rw [value_pure_eq_some] at he
  refine he ▸ .concat (List.cons_ne_nil _ _) (List.forall_mem_cons.2 ⟨?_, ?_⟩)
  · exact h first List.mem_cons_self e₁ h₁
  · intro e₂ he₂
    obtain ⟨t, ht, h₂⟩ := exists_of_ofTrees hes e₂ he₂
    exact h t (List.mem_cons_of_mem _ ht) e₂ h₂

theorem IsPrintable.replication (hc : count.IsPrintable) (hi : inner.IsPrintable) :
    (node .multipleConcatenation l [count, inner]).IsPrintable := by
  intro e he
  rw [ofTree] at he
  obtain ⟨e₁, h₁, he⟩ := value_bind_eq_some.1 he
  obtain ⟨e₂, h₂, he⟩ := value_bind_eq_some.1 he
  rw [value_pure_eq_some] at he
  exact he ▸ .replicate (hi e₂ h₂).unwrap (hc e₁ h₁)

theorem IsNamed.bitSelect (hname : name.IsNamed) (h : t.IsPrintable) :
    (node .bitSelect l [name, t]).IsPrintable := by
  intro e he
  rw [ofTree] at he
  obtain ⟨e₁, h₁, he⟩ := value_bind_eq_some.1 he
  obtain ⟨e₂, h₂, he⟩ := value_bind_eq_some.1 he
  rw [value_pure_eq_some] at he
  obtain ⟨s, hs, rfl⟩ := hname e₁ h₁
  exact he ▸ .select hs (h e₂ h₂)

/-- Whatever trees the bounds of a range are, they are numbers by now. -/
theorem IsNamed.rangeSelect (hname : name.IsNamed) (upper lower : Tree) :
    (node .rangeSelect l [name, upper, lower]).IsPrintable := by
  intro e he
  rw [ofTree] at he
  obtain ⟨e₁, h₁, he⟩ := value_bind_eq_some.1 he
  obtain ⟨stop, hstop, he⟩ := value_bind_eq_some.1 he
  obtain ⟨start, hstart, he⟩ := value_bind_eq_some.1 he
  rw [value_pure_eq_some] at he
  obtain ⟨s, hs, rfl⟩ := hname e₁ h₁
  exact he ▸ .slice hs (lt_of_bound hstart) (lt_of_bound hstop)

theorem IsNamed.indexedRangeSelect (hname : name.IsNamed) (h : t.IsPrintable) (op width : Tree) :
    (node .indexedRangeSelect l [name, t, op, width]).IsPrintable := by
  intro e he
  rw [ofTree] at he
  obtain ⟨e₁, h₁, he⟩ := value_bind_eq_some.1 he
  obtain ⟨e₂, h₂, he⟩ := value_bind_eq_some.1 he
  obtain ⟨s, hs, rfl⟩ := hname e₁ h₁
  exact printable_of_partSelectOf hs (h e₂ h₂) he

theorem isPrintable_spanning {k : NodeKind} {ts : List Tree}
    (h : ∀ l, (node k l ts).IsPrintable) : (spanning k ts).IsPrintable := by
  obtain ⟨l, hl⟩ := spanning_eq_node k ts
  rw [hl]
  exact h l

end Tree

/-! ## What derivations stand for -/

namespace Grammar

variable {source : Source} {t : Token} {x : Terminal}

/-- What a token covers is a lexeme of its terminal. -/
theorem claims_of_readFrom (h : t.ReadFrom source.contents) (hx : t.terminal = x)
    (k : NodeKind) : x.Claims (tokenNode source k t).text.toList := by
  obtain ⟨_, lexeme, _, -, -, -, hleads, htext⟩ := h.exists_lexeme
  have hnode : (tokenNode source k t).text = String.ofList lexeme := htext
  rw [hnode, String.toList_ofList, ← hx]
  exact hleads.claims

theorem isNamed_tokenNode (h : t.ReadFrom source.contents) (ht : t.terminal = .identifier) :
    (tokenNode source .simpleIdentifier t).IsNamed := by
  have hclaims := claims_of_readFrom h ht .simpleIdentifier
  intro e he
  rw [tokenNode, nodeOver, Expr.ofTree, Expr.value_pure_eq_some] at he
  refine ⟨_, hclaims, ?_⟩
  rw [← he]
  exact congrArg Expr.signal (hclaims.trim_eq_self rfl)

theorem isPrintable_number (h : t.ReadFrom source.contents) (ht : t.terminal = .number) :
    (tokenNode source .number t).IsPrintable := by
  have hclaims := claims_of_readFrom h ht .number
  intro e he
  rw [tokenNode, nodeOver, Expr.ofTree, Expr.value_pure_eq_some] at he
  have htext : Text.trim (tokenNode source .number t).text = _ := hclaims.trim_eq_self rfl
  rw [← htext] at hclaims
  exact he ▸ .constant hclaims

namespace Derivation

theorem exists_printable_tree {y : Nonterminal} (d : Derivation y)
    (h : ∀ t ∈ d.trees source, t.IsPrintable) (hy : y ≠ .expressions) :
    ∃ t, d.trees source = [t] ∧ t.IsPrintable := by
  obtain ⟨t, ht⟩ := d.exists_trees_eq source hy
  rw [ht, List.forall_mem_singleton] at h
  exact ⟨t, ht, h⟩

/-- What a derivation stands for is printable. -/
theorem printable {y : Nonterminal} (d : Derivation y)
    (h : ∀ t ∈ d.yield, t.ReadFrom source.contents) : ∀ t ∈ d.trees source, t.IsPrintable := by
  induction d with
  | expression d ih | tighter _ d ih | braced d ih | single d ih => exact ih h
  | number t => exact List.forall_mem_singleton.2 (isPrintable_number (h _ List.mem_cons_self) t.2)
  | name t =>
    exact List.forall_mem_singleton.2 (isNamed_tokenNode (h _ List.mem_cons_self) t.2).isPrintable
  | conditional c q y s n ihc ihy ihn =>
    simp only [yield, List.forall_mem_append, List.forall_mem_cons] at h
    obtain ⟨hc, -, hy, -, hn⟩ := h
    obtain ⟨condition, hcondition, hc⟩ := c.exists_printable_tree (ihc hc) nofun
    obtain ⟨yes, hyes, hy⟩ := y.exists_printable_tree (ihy hy) nofun
    obtain ⟨no, hno, hn⟩ := n.exists_printable_tree (ihn hn) nofun
    rw [trees, hcondition, hyes, hno]
    exact List.forall_mem_singleton.2
      (Tree.isPrintable_spanning fun _ => hc.conditional hy hn)
  | binary l op r ihl ihr =>
    simp only [yield, List.forall_mem_append, List.forall_mem_cons] at h
    obtain ⟨hl, hop, hr⟩ := h
    obtain ⟨left, hleft, hl⟩ := l.exists_printable_tree (ihl hl) nofun
    obtain ⟨right, hright, hr⟩ := r.exists_printable_tree (ihr hr) nofun
    obtain ⟨t, p, hmem, hp⟩ := op
    have htext : (tokenNode source .binaryOperator t).text = p.text :=
      Token.text_of_punctuation hop hp
    have hbinary : p.binary?.isSome := by
      obtain ⟨operator, hoperator, -⟩ := Option.map_eq_some_iff.1 (mem_binaryOperators_iff.1 hmem)
      rw [hoperator]
      rfl
    rw [trees, hleft, hright]
    exact List.forall_mem_singleton.2
      (Tree.isPrintable_spanning fun _ => hl.binary htext hbinary hr)
  | unary op d ih =>
    simp only [yield, List.forall_mem_cons] at h
    obtain ⟨operand, hoperand, hd⟩ := d.exists_printable_tree (ih h.2) nofun
    obtain ⟨t, p, hmem, hp⟩ := op
    have htext : (tokenNode source .unaryOperator t).text = p.text :=
      Token.text_of_punctuation h.1 hp
    rw [trees, hoperand]
    exact List.forall_mem_singleton.2
      (Tree.isPrintable_spanning fun _ => hd.unary htext (mem_unaryOperators_iff.1 hmem))
  | bitSelect t o i c ih =>
    simp only [yield, List.forall_mem_append, List.forall_mem_cons] at h
    obtain ⟨ht, -, hi, -⟩ := h
    obtain ⟨index, hindex, hi⟩ := i.exists_printable_tree (ih hi) nofun
    rw [trees, hindex]
    exact List.forall_mem_singleton.2 ((isNamed_tokenNode ht t.2).bitSelect hi)
  | rangeSelect t o u s l c ihu ihl =>
    simp only [yield, List.forall_mem_append, List.forall_mem_cons] at h
    obtain ⟨upper, hupper⟩ := u.exists_trees_eq source nofun
    obtain ⟨lower, hlower⟩ := l.exists_trees_eq source nofun
    rw [trees, hupper, hlower]
    exact List.forall_mem_singleton.2 ((isNamed_tokenNode h.1 t.2).rangeSelect upper lower)
  | indexedRangeSelect t o b op w c ihb ihw =>
    simp only [yield, List.forall_mem_append, List.forall_mem_cons] at h
    obtain ⟨ht, -, hb, -⟩ := h
    obtain ⟨base, hbase, hb⟩ := b.exists_printable_tree (ihb hb) nofun
    obtain ⟨width, hwidth⟩ := w.exists_trees_eq source nofun
    rw [trees, hbase, hwidth]
    exact List.forall_mem_singleton.2
      ((isNamed_tokenNode ht t.2).indexedRangeSelect hb _ width)
  | replication o n d c ihn ih =>
    simp only [yield, List.forall_mem_append, List.forall_mem_cons] at h
    obtain ⟨-, hn, hd, -⟩ := h
    obtain ⟨count, hcount, hn⟩ := n.exists_printable_tree (ihn hn) nofun
    obtain ⟨inner, hinner, hd⟩ := d.exists_printable_tree (ih hd) nofun
    rw [trees, hcount, hinner]
    exact List.forall_mem_singleton.2 (hn.replication hd)
  | parenthesized o d c ih =>
    simp only [yield, List.forall_mem_append, List.forall_mem_cons] at h
    obtain ⟨inner, hinner, hd⟩ := d.exists_printable_tree (ih h.2.1) nofun
    rw [trees, hinner]
    exact List.forall_mem_singleton.2 hd.parenthesized
  | concatenation o ds c ih =>
    simp only [yield, List.forall_mem_append, List.forall_mem_cons] at h
    exact List.forall_mem_singleton.2 (.concatenation (ds.trees_ne_nil source) (ih h.2.1))
  | more ds s d ihs ih =>
    simp only [yield, List.forall_mem_append, List.forall_mem_cons] at h
    exact List.forall_mem_append.2 ⟨ihs h.1, ih h.2.2⟩

end Derivation

end Grammar

end Netlist
