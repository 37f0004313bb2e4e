/-
What constants stand for.

A constant is worked out with checked operations: whenever a number leaves the range, nothing is known
of it any more. What the tree amounts to by itself is said here over all whole numbers and without a
range (`Tree.AmountsTo`). The two agree as far as they can (`Tree.constant?_eq_some_iff`): the checked
operations yield just what the tree amounts to, and they yield it if the tree and each of its terms
stay in the range. So the width of a declaration is the exact distance between its bounds, both
included, unless it is one more than the largest width.
-/
import Mathlib.Algebra.Group.Nat.Defs
import Mathlib.Algebra.Order.Group.Unbundled.Int
import Mathlib.Tactic.Zify
import Netlist.Module.OfTree

set_option autoImplicit false

namespace Netlist

/-! ## The range -/

/-- A number that a constant may be. -/
def IsBounded (n : ℤ) : Prop :=
  -2 ^ 63 ≤ n ∧ n ≤ 2 ^ 63 - 1

theorem constantLimit_eq : constantLimit = 2 ^ 63 := by
  decide

theorem bounded_eq_some_iff {m n : ℤ} : bounded m = some n ↔ m = n ∧ IsBounded n := by
  have hrange : IsBounded m ↔ -constantLimit ≤ m ∧ m < constantLimit := by
    rw [IsBounded, constantLimit_eq, Int.le_sub_one_iff]
  constructor
  · intro h
    unfold bounded at h
    split at h
    · next hm =>
      cases h
      exact ⟨rfl, hrange.2 hm⟩
    · cases h
  · rintro ⟨rfl, hn⟩
    exact if_pos (hrange.1 hn)

theorem bind_bounded_eq_some_iff {x : Option ℤ} {n : ℤ} :
    x.bind bounded = some n ↔ x = some n ∧ IsBounded n := by
  simp [Option.bind_eq_some_iff, bounded_eq_some_iff, ← and_assoc]

/-! ## Operators -/

/-- Only exclusive nor has two spellings. -/
theorem UnaryOperator.eq_text_of_ofText? {s : String} {op : UnaryOperator} (h : ofText? s = some op)
    (hop : op ≠ .xnorAll) : s = op.text := by
  unfold ofText? at h
  split at h <;> cases h <;> first | rfl | exact absurd rfl hop

theorem BinaryOperator.ofText?_eq_some_iff {s : String} {op : BinaryOperator} :
    ofText? s = some op ↔ s = op.text := by
  constructor
  · intro h
    unfold ofText? at h
    split at h <;> cases h <;> rfl
  · rintro rfl
    exact ofText?_text op

/-! ## Whole numbers -/

namespace Whole

/-- The number behind a sign. -/
def signed? : String → ℤ → Option ℤ
  | "+", n => some n
  | "-", n => some (-n)
  | _, _ => none

/-- The number that an operation yields. A quotient is rounded toward zero, and there is none over
zero. -/
def operation? : String → ℤ → ℤ → Option ℤ
  | "+", m, n => some (m + n)
  | "-", m, n => some (m - n)
  | "*", m, n => some (m * n)
  | "/", m, n => if n = 0 then none else some (m.tdiv n)
  | _, _, _ => none

end Whole

namespace Tree

/-- The tree is made of numerals, parentheses, signs and the four operations, and this is the number
that it amounts to. -/
inductive AmountsTo : Tree → ℤ → Prop
  | numeral {l : Location} {ts : List Tree} {w : Word} :
      Literal.read l.text = .ok w → AmountsTo (node .number l ts) w.bits
  | parenthesized {l : Location} {e : Tree} {n : ℤ} :
      AmountsTo e n → AmountsTo (node .parenthesizedExpression l [e]) n
  | sign {l : Location} {op e : Tree} {n k : ℤ} :
      AmountsTo e n → Whole.signed? op.word n = some k →
      AmountsTo (node .unaryExpression l [op, e]) k
  | operation {l : Location} {left op right : Tree} {m n k : ℤ} :
      AmountsTo left m → AmountsTo right n → Whole.operation? op.word m n = some k →
      AmountsTo (node .binaryExpression l [left, op, right]) k

/-- The tree and, at any depth, what stands in its parentheses, behind its signs and on both sides of
its operators. -/
def terms : Tree → List Tree
  | node .parenthesizedExpression l [e] => node .parenthesizedExpression l [e] :: terms e
  | node .unaryExpression l [op, e] => node .unaryExpression l [op, e] :: terms e
  | node .binaryExpression l [left, op, right] =>
    node .binaryExpression l [left, op, right] :: (terms left ++ terms right)
  | t => [t]

/-- No term of the tree amounts to a number out of the range. -/
def StaysBounded (t : Tree) : Prop :=
  ∀ s ∈ t.terms, ∀ n, s.AmountsTo n → IsBounded n

variable {t e op left right : Tree} {l : Location} {ts : List Tree} {m n k : ℤ}

/-! ### Amounts -/

/-- A tree amounts to one number. -/
theorem AmountsTo.unique (h : t.AmountsTo n) (h' : t.AmountsTo m) : n = m := by
  induction h generalizing m with
  | numeral hw =>
    cases h' with
    | numeral hw' =>
      rw [hw] at hw'
      cases hw'
      rfl
  | parenthesized _ ih =>
    cases h' with
    | parenthesized h' => exact ih h'
  | sign _ hsign ih =>
    cases h' with
    | sign h' hsign' =>
      rw [ih h', hsign'] at hsign
      exact (Option.some_inj.1 hsign).symm
  | operation _ _ hop ihl ihr =>
    cases h' with
    | operation hl hr hop' =>
      rw [ihl hl, ihr hr, hop'] at hop
      exact (Option.some_inj.1 hop).symm

/-- If one number that the tree amounts to is in the range, each is, as there is no other. -/
theorem AmountsTo.forall_isBounded (h : t.AmountsTo n) (hn : IsBounded n) :
    ∀ m, t.AmountsTo m → IsBounded m := by
  intro m hm
  rwa [hm.unique h]

theorem amountsTo_parenthesized_iff :
    (node .parenthesizedExpression l [e]).AmountsTo n ↔ e.AmountsTo n := by
  constructor
  · rintro ⟨⟩
    assumption
  · exact .parenthesized

/-! ### Terms -/

theorem terms_parenthesized : (node .parenthesizedExpression l [e]).terms =
    node .parenthesizedExpression l [e] :: e.terms := rfl

theorem terms_unary : (node .unaryExpression l [op, e]).terms =
    node .unaryExpression l [op, e] :: e.terms := rfl

theorem terms_binary : (node .binaryExpression l [left, op, right]).terms =
    node .binaryExpression l [left, op, right] :: (left.terms ++ right.terms) := rfl

theorem mem_terms_self (t : Tree) : t ∈ t.terms := by
  unfold terms
  split <;> exact List.mem_cons_self

theorem StaysBounded.isBounded (h : t.StaysBounded) (ht : t.AmountsTo n) : IsBounded n :=
  h t t.mem_terms_self n ht

theorem staysBounded_parenthesized_iff :
    (node .parenthesizedExpression l [e]).StaysBounded ↔ e.StaysBounded := by
  rw [StaysBounded, terms_parenthesized, List.forall_mem_cons]
  refine and_iff_right_of_imp fun h n hn => ?_
  exact StaysBounded.isBounded h (amountsTo_parenthesized_iff.1 hn)

theorem staysBounded_unary_iff : (node .unaryExpression l [op, e]).StaysBounded ↔
    (∀ n, (node .unaryExpression l [op, e]).AmountsTo n → IsBounded n) ∧ e.StaysBounded := by
  rw [StaysBounded, terms_unary, List.forall_mem_cons]
  exact Iff.rfl

theorem staysBounded_binary_iff : (node .binaryExpression l [left, op, right]).StaysBounded ↔
    (∀ n, (node .binaryExpression l [left, op, right]).AmountsTo n → IsBounded n) ∧
      left.StaysBounded ∧ right.StaysBounded := by
  rw [StaysBounded, terms_binary, List.forall_mem_cons, List.forall_mem_append]
  exact Iff.rfl

/-! ## Constants -/

theorem constant?_bounded (h : t.constant? = some n) : IsBounded n := by
  fun_induction Tree.constant? t generalizing n with
  | case1 | case6 | case8 | case9 | case10 | case12 => exact (bounded_eq_some_iff.1 h).2
  | case3 _ e ih => exact ih h
  | case5 _ op e m hm _ ih =>
    -- a plus leaves the number as it is
    cases h
    exact ih hm
  | _ => cases h

theorem constant?_number {w : Word} (h : Literal.read l.text = .ok w) :
    (node .number l ts).constant? = bounded w.bits := by
  rw [constant?, h]

theorem constant?_parenthesized :
    (node .parenthesizedExpression l [e]).constant? = e.constant? := rfl

/-- A sign is worked out on whole numbers, and checked. -/
theorem constant?_unary : (node .unaryExpression l [op, e]).constant? =
    e.constant?.bind fun n => (Whole.signed? op.word n).bind bounded := by
  rw [constant?]
  cases hn : e.constant? with
  | none => rfl
  | some n =>
    rw [← word, Option.bind_some]
    symm
    unfold Whole.signed?
    split
    -- a plus is not checked, as the number is in the range already
    · next hop =>
      rw [hop]
      exact bounded_eq_some_iff.2 ⟨rfl, constant?_bounded hn⟩
    · next hop =>
      rw [hop]
      rfl
    -- no other text spells one of the signs
    · next hplus hminus =>
      dsimp only
      split
      · next hop => exact (hplus (UnaryOperator.eq_text_of_ofText? hop (by decide))).elim
      · next hop => exact (hminus (UnaryOperator.eq_text_of_ofText? hop (by decide))).elim
      · rfl

theorem constant?_unary_iff : (node .unaryExpression l [op, e]).constant? = some k ↔
    ∃ n, e.constant? = some n ∧ Whole.signed? op.word n = some k ∧ IsBounded k := by
  rw [constant?_unary, Option.bind_eq_some_iff]
  simp only [bind_bounded_eq_some_iff]

/-- An operation is worked out on whole numbers, and checked. -/
theorem constant?_binary : (node .binaryExpression l [left, op, right]).constant? =
    left.constant?.bind fun m => right.constant?.bind fun n =>
      (Whole.operation? op.word m n).bind bounded := by
  rw [constant?]
  cases left.constant? with
  | none => rfl
  | some m =>
    cases right.constant? with
    | none => rfl
    | some n =>
      rw [← word, Option.bind_some, Option.bind_some]
      dsimp only
      symm
      unfold Whole.operation?
      split
      · next hop =>
        rw [hop]
        rfl
      · next hop =>
        rw [hop]
        rfl
      · next hop =>
        rw [hop]
        rfl
      · next hop =>
        rw [hop]
        split <;> rfl
      -- no other text spells one of the four operators
      · next hadd hsub hmul hdiv =>
        split
        · next hop => exact (hadd (BinaryOperator.ofText?_eq_some_iff.1 hop)).elim
        · next hop => exact (hsub (BinaryOperator.ofText?_eq_some_iff.1 hop)).elim
        · next hop => exact (hmul (BinaryOperator.ofText?_eq_some_iff.1 hop)).elim
        · next hop => exact (hdiv (BinaryOperator.ofText?_eq_some_iff.1 hop)).elim
        · rfl

theorem constant?_binary_iff : (node .binaryExpression l [left, op, right]).constant? = some k ↔
    ∃ m n, left.constant? = some m ∧ right.constant? = some n ∧
      Whole.operation? op.word m n = some k ∧ IsBounded k := by
  rw [constant?_binary, Option.bind_eq_some_iff]
  refine exists_congr fun m => ?_
  rw [Option.bind_eq_some_iff]
  simp only [bind_bounded_eq_some_iff, exists_and_left]

/-- What the checked operations yield is what the tree amounts to, and nothing on the way leaves the
range. -/
theorem amountsTo_of_constant? (h : t.constant? = some n) : t.AmountsTo n ∧ t.StaysBounded := by
  fun_induction Tree.terms t generalizing n with
  | case1 l e ih =>
    rw [constant?_parenthesized] at h
    rw [amountsTo_parenthesized_iff, staysBounded_parenthesized_iff]
    exact ih h
  | case2 l op e ih =>
    obtain ⟨m, hm, hsign, hn⟩ := constant?_unary_iff.1 h
    obtain ⟨he, hstays⟩ := ih hm
    have hamount : (node .unaryExpression l [op, e]).AmountsTo n := .sign he hsign
    exact ⟨hamount, staysBounded_unary_iff.2 ⟨hamount.forall_isBounded hn, hstays⟩⟩
  | case3 l left op right ihl ihr =>
    obtain ⟨i, j, hi, hj, hop, hn⟩ := constant?_binary_iff.1 h
    obtain ⟨hleft, hstaysl⟩ := ihl hi
    obtain ⟨hright, hstaysr⟩ := ihr hj
    have hamount : (node .binaryExpression l [left, op, right]).AmountsTo n :=
      .operation hleft hright hop
    exact ⟨hamount, staysBounded_binary_iff.2
      ⟨hamount.forall_isBounded hn, hstaysl, hstaysr⟩⟩
  | case4 t hparen hunary hbinary =>
    -- of all other trees only numerals are constants
    unfold Tree.constant? at h
    split at h
    · next l ts =>
      split at h
      · next w hw =>
        obtain ⟨rfl, hn⟩ := bounded_eq_some_iff.1 h
        -- a numeral is its only term
        have hamount : (node .number l ts).AmountsTo w.bits := .numeral hw
        exact ⟨hamount, List.forall_mem_singleton.2 (hamount.forall_isBounded hn)⟩
      · cases h
    · exact (hparen _ _ rfl).elim
    · exact (hunary _ _ _ rfl).elim
    · exact (hbinary _ _ _ _ rfl).elim
    · cases h

/-- The checked operations yield what the tree amounts to if nothing leaves the range. -/
theorem AmountsTo.constant? (h : t.AmountsTo n) (hstays : t.StaysBounded) :
    t.constant? = some n := by
  induction h with
  | numeral hw =>
    rw [constant?_number hw]
    exact bounded_eq_some_iff.2 ⟨rfl, hstays.isBounded (.numeral hw)⟩
  | parenthesized _ ih =>
    rw [constant?_parenthesized]
    exact ih (staysBounded_parenthesized_iff.1 hstays)
  | sign h hsign ih =>
    obtain ⟨hself, he⟩ := staysBounded_unary_iff.1 hstays
    exact constant?_unary_iff.2 ⟨_, ih he, hsign, hself _ (.sign h hsign)⟩
  | operation hl hr hop ihl ihr =>
    obtain ⟨hself, hleft, hright⟩ := staysBounded_binary_iff.1 hstays
    exact constant?_binary_iff.2 ⟨_, _, ihl hleft, ihr hright, hop, hself _ (.operation hl hr hop)⟩

theorem constant?_eq_some_iff : t.constant? = some n ↔ t.AmountsTo n ∧ t.StaysBounded :=
  ⟨amountsTo_of_constant?, fun h => h.1.constant? h.2⟩

/-! ## Widths -/

/-- The width between two bounds fits into a word unless it is one more than the largest. -/
theorem distance_lt_limit_iff (hm : IsBounded m) (hn : IsBounded n) :
    (m - n).natAbs + 1 < Count.limit ↔ |m - n| + 1 ≠ 2 ^ 64 := by
  have hlimit : Count.limit = 2 ^ 64 := by decide
  obtain ⟨hm, hm'⟩ := hm
  obtain ⟨hn, hn'⟩ := hn
  rw [hlimit, Int.abs_eq_natAbs]
  omega

variable {declaration range upper lower : Tree}

theorem declaredWidth_of_bounds (hrange : declaration.child? .packedDimension = some range)
    (hbounds : range.children = [upper, lower]) (hm : upper.constant? = some m)
    (hn : lower.constant? = some n) (hfits : |m - n| + 1 ≠ 2 ^ 64) :
    declaration.declaredWidth = ⟨(m - n).natAbs + 1, []⟩ := by
  have hlt := (distance_lt_limit_iff (constant?_bounded hm) (constant?_bounded hn)).2 hfits
  simp only [declaredWidth, hrange, hbounds, hm, hn, if_pos hlt]
  rfl

theorem declaredWidth_of_unusable (hrange : declaration.child? .packedDimension = some range)
    (hunusable : ∀ upper lower m n, range.children = [upper, lower] → upper.constant? = some m →
      lower.constant? = some n → |m - n| + 1 = 2 ^ 64) :
    declaration.declaredWidth =
      ⟨1, [⟨.warning, range.location?, .unusableRange range.text⟩]⟩ := by
  unfold declaredWidth
  rw [hrange]
  dsimp only
  split
  · next width hwidth =>
    exfalso
    split at hwidth
    · next upper lower hbounds =>
      split at hwidth
      · next m n hm hn =>
        have hlt := distance_lt_limit_iff (constant?_bounded hm) (constant?_bounded hn)
        rw [if_neg (fun h => hlt.1 h (hunusable _ _ _ _ hbounds hm hn))] at hwidth
        cases hwidth
      · cases hwidth
    · cases hwidth
  · rfl

/-! ## Exact numbers or none -/

/-- A constant is the number that its tree amounts to over all whole numbers, with quotients rounded
toward zero, and a tree is a constant just if it amounts to a number and neither that number nor one
on the way leaves the range. A declaration with a range has the exact number of bits between the
bounds of the range, both included, and nothing is recorded. Only where a bound is no constant, where
there are not two bounds, and where they are as far apart as they can be, it has one bit, and that is
recorded once. -/
theorem constants_and_widths_are_exact :
    (∀ (t : Tree) (n : ℤ), t.constant? = some n ↔
      t.AmountsTo n ∧ ∀ s ∈ t.terms, ∀ k, s.AmountsTo k → -2 ^ 63 ≤ k ∧ k ≤ 2 ^ 63 - 1) ∧
    ∀ declaration range : Tree, declaration.child? .packedDimension = some range →
      (∀ upper lower m n, range.children = [upper, lower] → upper.constant? = some m →
        lower.constant? = some n → |m - n| + 1 ≠ 2 ^ 64 →
        ∃ width : ℕ, (width : ℤ) = |m - n| + 1 ∧ declaration.declaredWidth = ⟨width, []⟩) ∧
      ((∀ upper lower m n, range.children = [upper, lower] → upper.constant? = some m →
        lower.constant? = some n → |m - n| + 1 = 2 ^ 64) →
        declaration.declaredWidth =
          ⟨1, [⟨.warning, range.location?, .unusableRange range.text⟩]⟩) := by
  refine ⟨fun t n => constant?_eq_some_iff, fun declaration range hrange =>
    ⟨fun upper lower m n hbounds hm hn hfits => ?_, declaredWidth_of_unusable hrange⟩⟩
  refine ⟨(m - n).natAbs + 1, ?_, declaredWidth_of_bounds hrange hbounds hm hn hfits⟩
  rw [Int.natCast_add, Int.natCast_natAbs, Int.natCast_one]

/-- The largest constant. -/
def largest : Tree :=
  leaf .number "9223372036854775807"

/-- The same number below zero. -/
def minusLargest : Tree :=
  branch .unaryExpression [leaf .unaryOperator "-", largest]

/-- The least constant, which is no numeral behind a minus. -/
def least : Tree :=
  branch .binaryExpression [minusLargest, leaf .binaryOperator "-", leaf .number "1"]

/-- A port with the given bounds. -/
def portBetween (upper lower : Tree) : Tree :=
  branch .portDeclaration [branch .packedDimension [upper, lower]]

/-- Bounds that are as far apart as they can be are too far apart by one. -/
theorem constants_and_widths_are_exact_extremes :
    largest.constant? = some (2 ^ 63 - 1) ∧ minusLargest.constant? = some (-2 ^ 63 + 1) ∧
    least.constant? = some (-2 ^ 63) ∧
    (portBetween largest minusLargest).declaredWidth = ⟨2 ^ 64 - 1, []⟩ ∧
    (portBetween largest least).declaredWidth = ⟨1, [⟨.warning, none, .unusableRange ""⟩]⟩ := by
  have hlargest : largest.constant? = some (2 ^ 63 - 1) := by decide +kernel
  have hminus : minusLargest.constant? = some (-2 ^ 63 + 1) := by decide +kernel
  have hleast : least.constant? = some (-2 ^ 63) := by decide +kernel
  have hwidths (lower : Tree) := constants_and_widths_are_exact.2 (portBetween largest lower)
    (branch .packedDimension [largest, lower]) rfl
  refine ⟨hlargest, hminus, hleast, ?_, ?_⟩
  · obtain ⟨width, hwidth, hdeclared⟩ :=
      (hwidths minusLargest).1 _ _ _ _ rfl hlargest hminus (by decide)
    have heq : width = 2 ^ 64 - 1 := by
      zify
      rw [hwidth]
      decide
    rw [hdeclared, heq]
  · refine (hwidths least).2 fun upper lower m n hbounds hm hn => ?_
    cases hbounds
    rw [hlargest] at hm
    rw [hleast] at hn
    cases hm
    cases hn
    decide

end Tree

end Netlist
