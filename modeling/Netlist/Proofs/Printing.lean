/-
What is printed is read back.

The text of an expression is put together of lexemes, blanks and the texts of its parts. Wherever
the text of a printable expression stands, and no word goes on behind it, it is derived as a unary
operation or a primary, and the tree means the expression again (`Readable`): parentheses stand
around everything that binds less tightly. One lemma for each constructor, and an induction on
`Printable` puts them together (`Printable.readable`). Only unary operators stand side by side with
nothing between them, and there the signs must not fuse into a longer one (`KeepsApart`).
-/
import Mathlib.Data.List.Forall2
import Mathlib.Data.List.Induction
import Netlist.Proofs.Printable

set_option autoImplicit false

namespace Netlist

open Token (Stretch Ends)

/-! ## Operators side by side -/

namespace Expr

/-- Unary operators that are read as one sign when the second stands right behind the first. -/
def fusing : List (String × String) :=
  [("~", "&"), ("~", "|"), ("~", "^"), ("&", "&"), ("|", "|")]

/-- The expression is a unary operator on top of another one, and both are read as one sign. -/
def fuses : Expr → Bool
  | unary outer (unary inner _) => fusing.contains (outer, inner)
  | _ => false

/-- Nowhere in the expression two unary operators are read as one sign. -/
def KeepsApart (e : Expr) : Prop :=
  ∀ part ∈ e.subexprs, part.fuses = false

instance (e : Expr) : Decidable e.KeepsApart :=
  inferInstanceAs (Decidable (∀ part ∈ e.subexprs, part.fuses = false))

theorem KeepsApart.part {e part : Expr} (h : e.KeepsApart) (hpart : part ∈ e.parts) :
    part.KeepsApart := by
  intro s hs
  exact h s (mem_subexprs_of_mem_parts hpart hs)

end Expr

namespace Punctuation

theorem not_mem_continuations_of_isWordPart {c : Char} (p : Punctuation)
    (h : Token.isWordPart c) : c ∉ p.continuations := by
  have hall : ∀ q ∈ longestFirst, (q.continuations.all fun d => !Token.isWordPart d) = true := by
    decide +kernel
  intro hc
  have hnot := List.all_eq_true.1 (hall p p.mem_longestFirst) c hc
  rw [h] at hnot
  cases hnot

/-- Signs of unary operators are apart unless they fuse. -/
theorem not_mem_continuations_of_unary {p q : Punctuation} (hp : p.unary?.isSome)
    (hq : q.unary?.isSome) (h : Expr.fusing.contains (p.text, q.text) = false) :
    ∀ c ∈ q.text.toList.head?, c ∉ p.continuations := by
  have hall : ∀ p ∈ Grammar.unaryOperators, ∀ q ∈ Grammar.unaryOperators,
      Expr.fusing.contains (p.text, q.text) = false →
        (q.text.toList.head?.all fun c => !p.continuations.contains c) = true := by
    decide +kernel
  have htest := (Option.all_eq_true _ _).1
    (hall p (Grammar.mem_unaryOperators_iff.2 hp) q (Grammar.mem_unaryOperators_iff.2 hq) h)
  intro c hc
  have hnot := htest c hc
  rwa [Bool.not_eq_true', List.contains_eq_mem, decide_eq_false_iff_not] at hnot

end Punctuation

/-! ## What trees mean -/

namespace Tree

open Netlist.Expr

/-- The tree stands for the expression, and nothing is wrong with it. -/
def Means (t : Tree) (e : Expr) : Prop :=
  ofTree t = pure e

variable {l : Location} {t name op left right condition yes no count inner width : Tree}
  {e a b c : Expr}

theorem Means.conditional (hc : condition.Means c) (hy : yes.Means a) (hn : no.Means b) :
    (spanning .conditionalExpression [condition, yes, no]).Means (.conditional c a b) := by
  obtain ⟨l, hl⟩ := spanning_eq_node .conditionalExpression [condition, yes, no]
  rw [Means, hl, ofTree, hc, hy, hn]
  simp only [pure_bind]

theorem Means.unary {p : Punctuation} (hop : op.text = p.text) (h : t.Means e) :
    (spanning .unaryExpression [op, t]).Means (.unary p.text e) := by
  obtain ⟨l, hl⟩ := spanning_eq_node .unaryExpression [op, t]
  rw [Means, hl, ofTree, h, hop, p.trim_text]
  simp only [pure_bind]

theorem Means.binary {p : Punctuation} (hop : op.text = p.text) (hl : left.Means a)
    (hr : right.Means b) :
    (spanning .binaryExpression [left, op, right]).Means (.binary p.text a b) := by
  obtain ⟨l, hnode⟩ := spanning_eq_node .binaryExpression [left, op, right]
  rw [Means, hnode, ofTree, hl, hr, hop, p.trim_text]
  simp only [pure_bind]

theorem Means.parenthesized (h : t.Means e) :
    (node .parenthesizedExpression l [t]).Means e := by
  rw [Means, ofTree]
  exact h

theorem ofTrees_of_means {ts : List Tree} {es : List Expr} (h : List.Forall₂ Means ts es) :
    ofTrees ts = pure es := by
  induction h with
  | nil => rw [ofTrees]
  | cons ht _ ih =>
    rw [ofTrees, ht, ih]
    simp only [pure_bind]

theorem means_concatenation {ts : List Tree} {es : List Expr} (h : List.Forall₂ Means ts es)
    (hne : es ≠ []) : (node .concatenation l ts).Means (.concat es) := by
  cases h with
  | nil => exact absurd rfl hne
  | cons ht hts =>
    rw [Means, ofTree, ht, ofTrees_of_means hts]
    simp only [pure_bind]

/-- The inner braces of a replication vanish if they hold one item, as those that are printed do. -/
theorem Means.replication (hc : count.Means c) (hi : inner.Means (.concat [e])) :
    (node .multipleConcatenation l [count, inner]).Means (.replicate e c) := by
  rw [Means, ofTree, hc, hi]
  simp only [pure_bind, unwrap]

theorem Means.bitSelect (hname : name.Means a) (h : t.Means e) :
    (node .bitSelect l [name, t]).Means (.select a e) := by
  rw [Means, ofTree, hname, h]
  simp only [pure_bind]

theorem Means.rangeSelect {start stop : Nat} (hname : name.Means a)
    (hupper : bound left = pure stop) (hlower : bound right = pure start) :
    (node .rangeSelect l [name, left, right]).Means (.slice a start stop) := by
  rw [Means, ofTree, hname, hupper, hlower]
  simp only [pure_bind]

theorem Means.indexedRangeSelect {size : Nat} (hname : name.Means a) (h : t.Means e)
    (hop : op.text = Punctuation.plusColon.text) (hwidth : bound width = pure (size + 1)) :
    (node .indexedRangeSelect l [name, t, op, width]).Means (.partSelect a e (size + 1)) := by
  rw [Means, ofTree, hname, h]
  simp only [pure_bind]
  rw [partSelectOf, hwidth, hop, Punctuation.trim_text]
  simp only [pure_bind]
  rfl

/-- A numeral is a bound, unless it is too large for a constant. -/
theorem bound_numeral {ts : List Tree} {n : Nat} (htext : l.text = Radix.decimal.numeral n)
    (hn : (n : Int) < constantLimit) : bound (node .number l ts) = pure n := by
  have hlow : -constantLimit ≤ (n : Int) := by
    have hlimit : (0 : Int) ≤ constantLimit := by decide
    omega
  have hconstant : (node .number l ts).constant? = some (n : Int) := by
    rw [constant?, htext, Literal.read_numeral]
    dsimp only
    rw [Literal.bits_bareWidth]
    exact if_pos ⟨hlow, hn⟩
  have hnat : (node .number l ts).natConstant? = some n := by
    rw [natConstant?, hconstant]
    exact if_pos (Int.natCast_nonneg n)
  rw [bound, hnat]

end Tree

/-! ## Derivations of stretches -/

namespace Grammar

variable {source : Source} {cs middle middle' rest lexeme : List Char} {e a b c : Expr}
  {x : Nonterminal}

theorem exists_lexeme {y : Terminal} (h : lexeme ++ rest <:+ source.contents)
    (hy : y.Leads lexeme rest) :
    ∃ t : Lexeme y, Stretch source (lexeme ++ rest) [t.1] rest ∧
      ∀ k, (tokenNode source k t.1).text = String.ofList lexeme := by
  obtain ⟨t, ht, hstretch, htext⟩ := Stretch.exists_token h hy
  exact ⟨⟨t, ht⟩, hstretch, fun _ => htext⟩

theorem exists_sign {p : Punctuation} (hp : p.continuations = [])
    (h : p.text.toList ++ rest <:+ source.contents) :
    ∃ t : Sign p, Stretch source (p.text.toList ++ rest) [t.1] rest := by
  obtain ⟨t, ht, -⟩ := exists_lexeme h (p.leads_of_continuations_eq_nil hp rest)
  exact ⟨t, ht⟩

/-- A sign with a blank before and behind it. -/
theorem exists_spaced_sign (p : Punctuation)
    (h : ' ' :: (p.text.toList ++ ' ' :: rest) <:+ source.contents) :
    ∃ t : Sign p, Stretch source (' ' :: (p.text.toList ++ ' ' :: rest)) [t.1] rest ∧
      ∀ k, (tokenNode source k t.1).text = p.text := by
  have hbefore := Stretch.blank h rfl
  obtain ⟨t, ht, htext⟩ := exists_lexeme hbefore.suffix (p.leads_before_blank rest)
  have hbehind := Stretch.blank ht.suffix rfl
  rw [String.ofList_toList] at htext
  exact ⟨t, hbefore.append (ht.append hbehind), htext⟩

/-- The derivation is that of a stretch of the source, and its tree means the expression. -/
structure Derivation.Writes (d : Derivation x) (source : Source) (cs rest : List Char) (e : Expr) :
    Prop where
  stretch : Stretch source cs d.yield rest
  tree : ∃ t, d.trees source = [t] ∧ t.Means e

/-- What is derived at a tier is derived at every looser one. -/
theorem Derivation.exists_looser {m n : Nat} (d : Derivation (.tier n)) (hle : m ≤ n)
    (hn : n ≤ 12) : ∃ d' : Derivation (.tier m), d'.yield = d.yield ∧
      ∀ source, d'.trees source = d.trees source := by
  obtain ⟨k, rfl⟩ := Nat.exists_eq_add_of_le hle
  induction k with
  | zero => exact ⟨d, rfl, fun _ => rfl⟩
  | succ k ih => exact ih (.tighter (by omega) d) (by omega) (by omega)

theorem Derivation.Writes.looser {m n : Nat} {d : Derivation (.tier n)}
    (h : d.Writes source cs rest e) (hle : m ≤ n) (hn : n ≤ 12) :
    ∃ d' : Derivation (.tier m), d'.Writes source cs rest e := by
  obtain ⟨hstretch, t, ht, hmeans⟩ := h
  obtain ⟨d', hyield, htrees⟩ := d.exists_looser hle hn
  rw [← hyield] at hstretch
  rw [← htrees] at ht
  exact ⟨d', hstretch, t, ht, hmeans⟩

theorem Derivation.Writes.binary {p : Punctuation} {n : Nat} {l : Derivation (.tier n)}
    {r : Derivation (.tier (n + 1))} {s : Sign p} (hmem : p ∈ binaryOperators n)
    (hl : l.Writes source cs middle a) (hs : Stretch source middle [s.1] middle')
    (htext : (tokenNode source .binaryOperator s.1).text = p.text)
    (hr : r.Writes source middle' rest b) :
    (Derivation.binary l ⟨s.1, p, hmem, s.2⟩ r).Writes source cs rest (.binary p.text a b) := by
  obtain ⟨hl, left, hleft, hmeansl⟩ := hl
  obtain ⟨hr, right, hright, hmeansr⟩ := hr
  refine ⟨hl.append (hs.append hr), _, rfl, ?_⟩
  rw [hleft, hright]
  exact hmeansl.binary htext hmeansr

theorem Derivation.Writes.expression {n : Nat} {d : Derivation (.tier n)}
    (h : d.Writes source cs rest e) (hn : n ≤ 12) :
    ∃ d' : Derivation .expression, d'.Writes source cs rest e := by
  obtain ⟨d', hstretch, htree⟩ := h.looser (Nat.zero_le n) hn
  exact ⟨.expression d', hstretch, htree⟩

end Grammar

/-! ## Readable expressions -/

namespace Expr

open Grammar

attribute [local simp] text

/-- Wherever the text of the expression stands, and no word goes on behind it, it is derived as a
unary operation or a primary that means the expression. -/
def Readable (e : Expr) : Prop :=
  ∀ (source : Source) (rest : List Char), e.text.toList ++ rest <:+ source.contents → Ends rest →
    ∃ d : Derivation (.tier 11), d.Writes source (e.text.toList ++ rest) rest e

variable {e a b c : Expr} {source : Source} {rest : List Char}

theorem Readable.expression (h : e.Readable) (hsuffix : e.text.toList ++ rest <:+ source.contents)
    (hrest : Ends rest) :
    ∃ d : Derivation .expression, d.Writes source (e.text.toList ++ rest) rest e := by
  obtain ⟨d, hd⟩ := h source rest hsuffix hrest
  exact hd.expression (by decide)

/-- It is enough that the text is derived as a primary. -/
theorem readable_of_primary
    (h : ∀ (source : Source) (rest : List Char), e.text.toList ++ rest <:+ source.contents →
      Ends rest → ∃ d : Derivation (.tier 12), d.Writes source (e.text.toList ++ rest) rest e) :
    e.Readable := by
  intro source rest hsuffix hrest
  obtain ⟨d, hd⟩ := h source rest hsuffix hrest
  exact hd.looser (by decide) (by decide)

theorem readable_constant {s : String} (h : Terminal.Claims .number s.toList) :
    (constant s).Readable := by
  apply readable_of_primary
  intro source rest hsuffix hrest
  obtain ⟨t, hstretch, htext⟩ := exists_lexeme hsuffix (h.leads rfl hrest)
  refine ⟨.number t, hstretch, _, rfl, ?_⟩
  have hnumber : (tokenNode source .number t.1).text = s := by
    rw [htext, text, String.ofList_toList]
  have htrim : Text.trim (tokenNode source .number t.1).text = s := by
    rw [hnumber, h.trim_eq_self rfl]
  rw [Tree.Means, tokenNode, nodeOver, ofTree]
  exact congrArg (fun s => pure (constant s)) htrim

/-- A name is read wherever it stands in front of something that is no part of it. -/
theorem exists_name {s : String} (h : Terminal.Claims .identifier s.toList)
    (hsuffix : s.toList ++ rest <:+ source.contents) (hrest : Ends rest) :
    ∃ t : Lexeme .identifier, Stretch source (s.toList ++ rest) [t.1] rest ∧
      (tokenNode source .simpleIdentifier t.1).Means (signal s) := by
  obtain ⟨t, hstretch, htext⟩ := exists_lexeme hsuffix (h.leads rfl hrest)
  refine ⟨t, hstretch, ?_⟩
  have htrim : Text.trim (tokenNode source .simpleIdentifier t.1).text = s := by
    rw [htext, String.ofList_toList, h.trim_eq_self rfl]
  rw [Tree.Means, tokenNode, nodeOver, ofTree]
  exact congrArg (fun s => pure (signal s)) htrim

theorem readable_signal {s : String} (h : Terminal.Claims .identifier s.toList) :
    (signal s).Readable := by
  apply readable_of_primary
  intro source rest hsuffix hrest
  obtain ⟨t, hstretch, hmeans⟩ := exists_name h hsuffix hrest
  exact ⟨.name t, hstretch, _, rfl, hmeans⟩

/-- Parentheses around anything that is derived. -/
theorem exists_parenthesized {cs : List Char}
    (hsuffix : Punctuation.openParen.text.toList ++ cs <:+ source.contents)
    (h : cs <:+ source.contents → ∃ d : Derivation .expression,
      d.Writes source cs (Punctuation.closeParen.text.toList ++ rest) e) :
    ∃ d : Derivation (.tier 12),
      d.Writes source (Punctuation.openParen.text.toList ++ cs) rest e := by
  obtain ⟨o, ho⟩ := exists_sign (by decide) hsuffix
  obtain ⟨d, hd, t, ht, hmeans⟩ := h ho.suffix
  obtain ⟨c, hc⟩ := exists_sign (by decide) hd.suffix
  refine ⟨.parenthesized o d c, ho.append (hd.append hc), _, rfl, ?_⟩
  rw [ht]
  exact hmeans.parenthesized

theorem Readable.binary {p : Punctuation} (hp : p.binary?.isSome) (ha : a.Readable)
    (hb : b.Readable) : (binary p.text a b).Readable := by
  obtain ⟨op, hop⟩ := Option.isSome_iff_exists.1 hp
  have hmem : p ∈ binaryOperators op.tier := by
    rw [mem_binaryOperators_iff, hop]
    rfl
  apply readable_of_primary
  intro source rest hsuffix hrest
  have htext : (Expr.binary p.text a b).text.toList ++ rest =
      Punctuation.openParen.text.toList ++ (a.text.toList ++ ' ' :: (p.text.toList ++
        ' ' :: (b.text.toList ++ (Punctuation.closeParen.text.toList ++ rest)))) := by
    simp [Punctuation.text]
  rw [htext] at hsuffix ⊢
  apply exists_parenthesized hsuffix
  intro hsuffix
  obtain ⟨dl, hl⟩ := ha source _ hsuffix (Token.ends_cons (by decide))
  obtain ⟨s, hs, hstext⟩ := exists_spaced_sign p hl.stretch.suffix
  obtain ⟨dr, hr⟩ := hb source _ hs.suffix (Token.ends_cons (by decide))
  -- what is derived as a unary operation is tight enough for either side of any operator
  have htier := SignAmong.tier_bounds (⟨s.1, p, hmem, s.2⟩ : SignAmong (binaryOperators op.tier))
  have hle : op.tier ≤ 11 := by omega
  have hle' : op.tier + 1 ≤ 11 := by omega
  obtain ⟨dl, hl⟩ := hl.looser hle (by decide)
  obtain ⟨dr, hr⟩ := hr.looser hle' (by decide)
  exact (hl.binary hmem hs (hstext _) hr).expression (by omega)

theorem Readable.conditional (hc : c.Readable) (ha : a.Readable) (hb : b.Readable) :
    (conditional c a b).Readable := by
  apply readable_of_primary
  intro source rest hsuffix hrest
  have htext : (Expr.conditional c a b).text.toList ++ rest =
      Punctuation.openParen.text.toList ++ (c.text.toList ++
        ' ' :: (Punctuation.question.text.toList ++ ' ' :: (a.text.toList ++
          ' ' :: (Punctuation.colon.text.toList ++ ' ' :: (b.text.toList ++
            (Punctuation.closeParen.text.toList ++ rest)))))) := by
    simp [Punctuation.text]
  rw [htext] at hsuffix ⊢
  apply exists_parenthesized hsuffix
  intro hsuffix
  obtain ⟨dc, hc⟩ := hc source _ hsuffix (Token.ends_cons (by decide))
  obtain ⟨q, hq, -⟩ := exists_spaced_sign .question hc.stretch.suffix
  obtain ⟨dy, hy⟩ := ha.expression hq.suffix (Token.ends_cons (by decide))
  obtain ⟨s, hs, -⟩ := exists_spaced_sign .colon hy.stretch.suffix
  obtain ⟨dn, hn⟩ := hb source _ hs.suffix (Token.ends_cons (by decide))
  obtain ⟨dc, hc, condition, hcondition, hmeansc⟩ := hc.looser (m := 1) (by decide) (by decide)
  obtain ⟨hy, yes, hyes, hmeansy⟩ := hy
  obtain ⟨dn, hn, no, hno, hmeansn⟩ := hn.looser (m := 0) (by decide) (by decide)
  refine ⟨.expression (.conditional dc q dy s dn),
    hc.append (hq.append (hy.append (hs.append hn))), _, rfl, ?_⟩
  rw [hcondition, hyes, hno]
  exact hmeansc.conditional hmeansy hmeansn

/-- A unary operator stands right in front of its operand. -/
theorem Readable.unary {p : Punctuation} (hp : p.unary?.isSome) (he : e.Readable)
    (hapart : ∃ c, [c] <+: e.text.toList ∧ c ∉ p.continuations) :
    (unary p.text e).Readable := by
  intro source rest hsuffix hrest
  have htext : (Expr.unary p.text e).text.toList ++ rest =
      p.text.toList ++ (e.text.toList ++ rest) := by
    simp
  have hleads : Terminal.Leads (.punctuation p) p.text.toList (e.text.toList ++ rest) := by
    obtain ⟨c, ⟨cs, hcs⟩, hnot⟩ := hapart
    apply p.leads
    rw [← hcs]
    intro d hd
    cases hd
    exact hnot
  rw [htext] at hsuffix ⊢
  obtain ⟨s, hs, hstext⟩ := exists_lexeme hsuffix hleads
  obtain ⟨d, hd, t, ht, hmeans⟩ := he source rest hs.suffix hrest
  refine ⟨.unary ⟨s.1, p, mem_unaryOperators_iff.2 hp, s.2⟩ d, hs.append hd, _, rfl, ?_⟩
  rw [ht]
  refine hmeans.unary ?_
  rw [hstext, String.ofList_toList]

/-! ### Braces -/

/-- The texts of a row of expressions with commas between them. -/
def rowText (es : List Expr) : String :=
  String.intercalate ", " (texts es)

theorem texts_eq_map (es : List Expr) : texts es = es.map text := by
  induction es with
  | nil => rfl
  | cons e es ih => rw [texts, ih, List.map_cons]

theorem rowText_singleton (e : Expr) : rowText [e] = e.text :=
  String.intercalate_singleton

theorem rowText_concat {es : List Expr} (h : es ≠ []) (e : Expr) :
    rowText (es ++ [e]) = rowText es ++ ", " ++ e.text := by
  have hne : texts es ≠ [] := by
    rw [texts_eq_map]
    exact List.map_eq_nil_iff.not.2 h
  have hsplit : texts (es ++ [e]) = texts es ++ [e.text] := by
    rw [texts_eq_map, texts_eq_map, List.map_append, List.map_singleton]
  rw [rowText, hsplit, String.intercalate_append_of_ne_nil hne (List.cons_ne_nil _ _),
    String.intercalate_singleton]
  rfl

/-- A row of readable expressions is derived. The grammar of rows is recursive on the left, so the
induction takes expressions from the end. -/
theorem exists_row {es : List Expr} (hne : es ≠ []) (hes : ∀ e ∈ es, e.Readable) (rest : List Char)
    (hsuffix : (rowText es).toList ++ rest <:+ source.contents) (hrest : Ends rest) :
    ∃ ds : Derivation .expressions, Stretch source ((rowText es).toList ++ rest) ds.yield rest ∧
      List.Forall₂ Tree.Means (ds.trees source) es := by
  induction es using List.reverseRecOn generalizing rest with
  | nil => exact absurd rfl hne
  | append_singleton es e ih =>
    rw [List.forall_mem_append, List.forall_mem_singleton] at hes
    by_cases hnil : es = []
    · subst hnil
      rw [List.nil_append, rowText_singleton] at hsuffix ⊢
      obtain ⟨d, hd, t, ht, hmeans⟩ := hes.2.expression hsuffix hrest
      refine ⟨.single d, hd, ?_⟩
      rw [Derivation.trees, ht]
      exact .cons hmeans .nil
    · have htext : (rowText (es ++ [e])).toList ++ rest = (rowText es).toList ++
          (Punctuation.comma.text.toList ++ ' ' :: (e.text.toList ++ rest)) := by
        simp [rowText_concat hnil, Punctuation.text]
      rw [htext] at hsuffix ⊢
      obtain ⟨ds, hds, hmeans⟩ := ih hnil hes.1 _ hsuffix (Token.ends_cons (by decide))
      obtain ⟨s, hs⟩ := exists_sign (by decide) hds.suffix
      have hblank := Stretch.blank hs.suffix rfl
      obtain ⟨d, hd, t, ht, hmeans'⟩ := hes.2.expression hblank.suffix hrest
      refine ⟨.more ds s d, hds.append (hs.append (hblank.append hd)), ?_⟩
      rw [Derivation.trees, ht]
      exact List.rel_append hmeans (.cons hmeans' .nil)

/-- A row of readable expressions in braces is derived. -/
theorem exists_concatenation {es : List Expr} (hne : es ≠ []) (hes : ∀ e ∈ es, e.Readable)
    (hsuffix : Punctuation.openBrace.text.toList ++ ((rowText es).toList ++
      (Punctuation.closeBrace.text.toList ++ rest)) <:+ source.contents) :
    ∃ d : Derivation .concatenation, d.Writes source (Punctuation.openBrace.text.toList ++
      ((rowText es).toList ++ (Punctuation.closeBrace.text.toList ++ rest))) rest (.concat es) := by
  obtain ⟨o, ho⟩ := exists_sign (by decide) hsuffix
  obtain ⟨ds, hds, hmeans⟩ := exists_row hne hes _ ho.suffix (Token.ends_cons (by decide))
  obtain ⟨c, hc⟩ := exists_sign (by decide) hds.suffix
  exact ⟨.concatenation o ds c, ho.append (hds.append hc), _, rfl,
    Tree.means_concatenation hmeans hne⟩

theorem readable_concat {es : List Expr} (hne : es ≠ []) (hes : ∀ e ∈ es, e.Readable) :
    (concat es).Readable := by
  apply readable_of_primary
  intro source rest hsuffix hrest
  have htext : (concat es).text.toList ++ rest = Punctuation.openBrace.text.toList ++
      ((rowText es).toList ++ (Punctuation.closeBrace.text.toList ++ rest)) := by
    simp [rowText, Punctuation.text]
  rw [htext] at hsuffix ⊢
  obtain ⟨d, hd⟩ := exists_concatenation hne hes hsuffix
  exact ⟨.braced d, hd.stretch, hd.tree⟩

/-- The body of a replication is printed in braces of its own, and loses them when it is read. -/
theorem Readable.replicate (he : e.Readable) (hc : c.Readable) : (replicate e c).Readable := by
  apply readable_of_primary
  intro source rest hsuffix hrest
  have htext : (Expr.replicate e c).text.toList ++ rest =
      Punctuation.openBrace.text.toList ++ (c.text.toList ++ (Punctuation.openBrace.text.toList ++
        ((rowText [e]).toList ++ (Punctuation.closeBrace.text.toList ++
          (Punctuation.closeBrace.text.toList ++ rest))))) := by
    simp [rowText_singleton, Punctuation.text]
  rw [htext] at hsuffix ⊢
  obtain ⟨o, ho⟩ := exists_sign (by decide) hsuffix
  obtain ⟨dn, hn, count, hcount, hmeansn⟩ := hc.expression ho.suffix (Token.ends_cons (by decide))
  obtain ⟨d, hd, inner, hinner, hmeans⟩ := exists_concatenation (List.cons_ne_nil e [])
    (List.forall_mem_singleton.2 he) hn.suffix
  obtain ⟨z, hz⟩ := exists_sign (by decide) hd.suffix
  refine ⟨.replication o dn d z, ho.append (hn.append (hd.append hz)), _, rfl, ?_⟩
  rw [hcount, hinner]
  exact hmeansn.replication hmeans

/-! ### Selections -/

/-- A numeral is derived, and is the bound that it is printed for. -/
theorem exists_bound {n : Nat} (hn : (n : Int) < constantLimit)
    (hsuffix : (Radix.decimal.numeral n).toList ++ rest <:+ source.contents) (hrest : Ends rest) :
    ∃ d : Derivation .expression,
      Stretch source ((Radix.decimal.numeral n).toList ++ rest) d.yield rest ∧
        ∃ t, d.trees source = [t] ∧ bound t = pure n := by
  obtain ⟨t, hstretch, htext⟩ := exists_lexeme hsuffix ((Radix.claims_numeral n).leads rfl hrest)
  obtain ⟨d, hyield, htrees⟩ := (Derivation.number t).exists_looser (Nat.zero_le 12) (by decide)
  have hnumeral := htext .number
  rw [String.ofList_toList] at hnumeral
  refine ⟨.expression d, ?_, _, htrees source, Tree.bound_numeral hnumeral hn⟩
  rw [Derivation.yield, hyield]
  exact hstretch

theorem readable_slice {s : String} {start stop : Nat} (h : Terminal.Claims .identifier s.toList)
    (hstart : (start : Int) < constantLimit) (hstop : (stop : Int) < constantLimit) :
    (slice (signal s) start stop).Readable := by
  apply readable_of_primary
  intro source rest hsuffix hrest
  have htext : (slice (signal s) start stop).text.toList ++ rest =
      s.toList ++ (Punctuation.openBracket.text.toList ++ ((Radix.decimal.numeral stop).toList ++
        (Punctuation.colon.text.toList ++ ((Radix.decimal.numeral start).toList ++
          (Punctuation.closeBracket.text.toList ++ rest))))) := by
    simp [Punctuation.text]
  rw [htext] at hsuffix ⊢
  obtain ⟨t, ht, hname⟩ := exists_name h hsuffix (Token.ends_cons (by decide))
  obtain ⟨o, ho⟩ := exists_sign (by decide) ht.suffix
  obtain ⟨du, hu, upper, hupper, hboundu⟩ :=
    exists_bound hstop ho.suffix (Token.ends_cons (by decide))
  obtain ⟨m, hm⟩ := exists_sign (by decide) hu.suffix
  obtain ⟨dl, hl, lower, hlower, hboundl⟩ :=
    exists_bound hstart hm.suffix (Token.ends_cons (by decide))
  obtain ⟨z, hz⟩ := exists_sign (by decide) hl.suffix
  refine ⟨.rangeSelect t o du m dl z,
    ht.append (ho.append (hu.append (hm.append (hl.append hz)))), _, rfl, ?_⟩
  rw [hupper, hlower]
  exact hname.rangeSelect hboundu hboundl

theorem Readable.partSelect {s : String} {size : Nat} (h : Terminal.Claims .identifier s.toList)
    (he : e.Readable) (hsize : ((size + 1 : Nat) : Int) < constantLimit) :
    (partSelect (signal s) e (size + 1)).Readable := by
  apply readable_of_primary
  intro source rest hsuffix hrest
  have htext : (Expr.partSelect (signal s) e (size + 1)).text.toList ++ rest =
      s.toList ++ (Punctuation.openBracket.text.toList ++ (e.text.toList ++
        ' ' :: (Punctuation.plusColon.text.toList ++ ' ' ::
          ((Radix.decimal.numeral (size + 1)).toList ++
            (Punctuation.closeBracket.text.toList ++ rest))))) := by
    simp [Punctuation.text]
  rw [htext] at hsuffix ⊢
  obtain ⟨t, ht, hname⟩ := exists_name h hsuffix (Token.ends_cons (by decide))
  obtain ⟨o, ho⟩ := exists_sign (by decide) ht.suffix
  obtain ⟨db, hb, base, hbase, hmeans⟩ := he.expression ho.suffix (Token.ends_cons (by decide))
  obtain ⟨p, hp, hptext⟩ := exists_spaced_sign .plusColon hb.suffix
  obtain ⟨dw, hw, width, hwidth, hbound⟩ :=
    exists_bound hsize hp.suffix (Token.ends_cons (by decide))
  obtain ⟨z, hz⟩ := exists_sign (by decide) hw.suffix
  refine ⟨.indexedRangeSelect t o db ⟨p.1, .plusColon, List.mem_cons_self, p.2⟩ dw z,
    ht.append (ho.append (hb.append (hp.append (hw.append hz)))), _, rfl, ?_⟩
  rw [hbase, hwidth]
  exact hname.indexedRangeSelect hmeans (hptext _) hbound

theorem Readable.select {s : String} (h : Terminal.Claims .identifier s.toList)
    (he : e.Readable) : (select (signal s) e).Readable := by
  apply readable_of_primary
  intro source rest hsuffix hrest
  have htext : (Expr.select (signal s) e).text.toList ++ rest =
      s.toList ++ (Punctuation.openBracket.text.toList ++ (e.text.toList ++
        (Punctuation.closeBracket.text.toList ++ rest))) := by
    simp [Punctuation.text]
  rw [htext] at hsuffix ⊢
  obtain ⟨t, ht, hname⟩ := exists_name h hsuffix (Token.ends_cons (by decide))
  obtain ⟨o, ho⟩ := exists_sign (by decide) ht.suffix
  obtain ⟨di, hi, index, hindex, hmeans⟩ := he.expression ho.suffix (Token.ends_cons (by decide))
  obtain ⟨z, hz⟩ := exists_sign (by decide) hi.suffix
  refine ⟨.bitSelect t o di z, ht.append (ho.append (hi.append hz)), _, rfl, ?_⟩
  rw [hindex]
  exact hname.bitSelect hmeans

/-! ### All printable expressions -/

/-- What a unary operator is printed in front of does not make its sign a longer one, unless it is
another operator that fuses with it. -/
theorem Printable.exists_first {p : Punctuation} (h : e.Printable) (hp : p.unary?.isSome)
    (hapart : (Expr.unary p.text e).fuses = false) :
    ∃ c, [c] <+: e.text.toList ∧ c ∉ p.continuations := by
  have hword : ∀ {x : Terminal} {s : String} (more : List Char), x.isWord → x.Claims s.toList →
      ∃ c, [c] <+: s.toList ++ more ∧ c ∉ p.continuations := by
    intro x s more hx hs
    obtain ⟨c, cs, hcs⟩ := List.exists_cons_of_ne_nil hs.spells.ne_nil
    have hpart := hs.spells.isWordPart hx
    rw [hcs] at hpart ⊢
    exact ⟨c, ⟨cs ++ more, rfl⟩,
      p.not_mem_continuations_of_isWordPart (hpart c List.mem_cons_self)⟩
  have hparen : '(' ∉ p.continuations := by
    cases p <;> decide
  have hbrace : '\x7b' ∉ p.continuations := by
    cases p <;> decide
  cases h with
  | constant h => simpa using hword [] rfl h
  | signal h => simpa using hword [] rfl h
  | binary | conditional => exact ⟨'(', by simp, hparen⟩
  | concat | replicate => exact ⟨'\x7b', by simp, hbrace⟩
  -- the only case in which operators stand side by side
  | @unary q operand hq _ =>
    obtain ⟨c, cs, hcs, -⟩ := q.exists_first
    refine ⟨c, ?_, ?_⟩
    · simp [hcs]
    · apply Punctuation.not_mem_continuations_of_unary hp hq hapart
      rw [hcs]
      rfl
  | slice h | partSelect h | select h => simpa using hword _ rfl h

/-- Every printable expression whose operators keep apart is readable. -/
theorem Printable.readable (h : e.Printable) (hapart : e.KeepsApart) : e.Readable := by
  induction h with
  | constant h => exact readable_constant h
  | signal h => exact readable_signal h
  | binary hp _ _ ihl ihr =>
    exact (ihl (hapart.part (by simp [parts]))).binary hp (ihr (hapart.part (by simp [parts])))
  | unary hp h ih =>
    exact (ih (hapart.part (by simp [parts]))).unary hp
      (h.exists_first hp (hapart _ (mem_subexprs_self _)))
  | conditional _ _ _ ihc iha ihb =>
    exact (ihc (hapart.part (by simp [parts]))).conditional (iha (hapart.part (by simp [parts])))
      (ihb (hapart.part (by simp [parts])))
  | concat hne _ ih => exact readable_concat hne fun e he => ih e he (hapart.part he)
  | replicate _ _ ihe ihc =>
    exact (ihe (hapart.part (by simp [parts]))).replicate (ihc (hapart.part (by simp [parts])))
  | slice h hstart hstop => exact readable_slice h hstart hstop
  | partSelect h _ hsize ih => exact (ih (hapart.part (by simp [parts]))).partSelect h hsize
  | select h _ ih => exact (ih (hapart.part (by simp [parts]))).select h

/-- An expression that comes from text is read back from its printed form, with nothing to be said
about it, unless the signs of two unary operators in it fuse. -/
theorem parseExpression_text {source : Source} {t : Tree} {e : Expr}
    (hparse : parseExpression source = .ok t) (hlower : (ofTree t).run.value = some e)
    (hapart : e.KeepsApart) : ∃ t', parseExpression (.ofText e.text) = .ok t' ∧
      (ofTree t').run = ⟨some e, []⟩ := by
  obtain ⟨ts, hts, d, rfl, htree⟩ := parseExpression_eq_ok_iff.1 hparse
  have hread := Token.readFrom_of_scan (Token.scan_eq_ok_iff.2 hts)
  have hprintable : e.Printable := by
    have htrees := d.printable hread
    rw [htree, List.forall_mem_singleton] at htrees
    exact htrees e hlower
  have hsuffix : e.text.toList ++ [] <:+ (Source.ofText e.text).contents := by
    rw [List.append_nil]
    exact List.suffix_rfl
  obtain ⟨d', hd', t', htree', hmeans⟩ :=
    (hprintable.readable hapart).expression hsuffix Token.ends_nil
  rw [List.append_nil] at hd'
  refine ⟨t', parseExpression_eq_ok_iff.2 ⟨_, hd'.scans, d', rfl, htree'⟩, ?_⟩
  rw [hmeans]
  rfl

/-- A text with a selection that runs downwards, a replication and two unary operators. -/
def mixedText : String :=
  "s ? \x7b2\x7ba[i -: 4]\x7d\x7d : -~b[2*4 - 1:0]"

/-- What the text stands for. -/
def mixed : Expr :=
  .conditional (.signal "s")
    (.replicate (.partSelect (.signal "a") (.binary "-" (.signal "i") (.constant "3")) 4)
      (.constant "2"))
    (.unary "-" (.unary "~" (.slice (.signal "b") 0 7)))

theorem parseExpression_text_mixed :
    (∃ t, parseExpression (.ofText mixedText) = .ok t ∧ (ofTree t).run.value = some mixed) ∧
    mixed.text = "(s ? \x7b2\x7ba[(i - 3) +: 4]\x7d\x7d : -~b[7:0])" ∧
    ∃ t, parseExpression (.ofText mixed.text) = .ok t ∧ (ofTree t).run = ⟨some mixed, []⟩ := by
  have hread : ((parseExpression (.ofText mixedText)).toOption.bind fun t =>
      (ofTree t).run.value) = some mixed := by
    decide +kernel
  obtain ⟨t, ht, hlower⟩ := Option.bind_eq_some_iff.1 hread
  have hparse := of_toOption_eq_some ht
  exact ⟨⟨t, hparse, hlower⟩, by decide +kernel,
    parseExpression_text hparse hlower (by decide +kernel)⟩

end Expr

end Netlist
