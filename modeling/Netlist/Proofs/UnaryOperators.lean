/-
What the unary operators compute.

The operators in front of an operand are built from the number of all set bits, from exclusive or and
from a walk over the digits. What they are meant to yield is said here of the number and of the bits
(`UnaryOperator.Yields`): the negative number modulo the number of words of the width, what is missing
to the largest word, and whether no bit, each bit, some bit or an odd number of bits is set. All of
them yield this at every width, also where there are no bits at all (`unary_operators_yield`). So minus
is the complement and one more, both undo themselves, and a reduction with a tilde in its sign is the
complement of the one without.
-/
import Mathlib
import Netlist.Proofs.Evaluation
import Netlist.Proofs.Slices

set_option autoImplicit false

namespace Netlist

namespace Word

variable {a : Word}

/-! ## Set bits -/

/-- The positions of the bits that are set. -/
def setBits (a : Word) : Finset ℕ :=
  (Finset.range a.width).filter fun i => a.bit i = true

@[simp] theorem mem_setBits {i : ℕ} : i ∈ a.setBits ↔ a.bit i = true := by
  rw [setBits, Finset.mem_filter, Finset.mem_range]
  exact and_iff_right_of_imp lt_width_of_bit

/-- The walk over the digits finds as many ones as there are. The induction is on a bound of the number
of digits, and the lowest digit is the one that the walk looks at first. -/
theorem oddOnes_eq (width n : ℕ) (seen : Bool) (h : n < 2 ^ width) :
    oddOnes n seen =
      (seen ^^ decide (Odd (∑ i ∈ Finset.range width, if n.testBit i then 1 else 0))) := by
  induction width generalizing n seen with
  | zero =>
    obtain rfl : n = 0 := by omega
    rw [oddOnes]
    simp
  | succ width ih =>
    have hwalk : oddOnes n seen = oddOnes (n / 2) (seen != (n % 2 == 1)) := by
      rcases Nat.eq_zero_or_pos n with rfl | hpos
      · simp [oddOnes]
      · rw [oddOnes, if_neg hpos.ne']
    rw [hwalk, ih (n / 2) _ (by omega), Finset.sum_range_succ']
    simp only [Nat.testBit_succ, Nat.testBit_zero]
    rcases Nat.mod_two_eq_zero_or_one n with hdigit | hdigit
    · simp [hdigit]
    · cases seen <;> simp [hdigit, Nat.odd_add_one, -Nat.not_odd_iff_even]

theorem parity_iff : a.parity = true ↔ Odd a.setBits.card := by
  rw [parity, oddOnes_eq a.width a.bits false a.bits_lt_two_pow, setBits, Finset.card_filter,
    Bool.false_xor, decide_eq_true_iff]
  exact Iff.rfl

/-- The largest word has all bits set, and no other word has. -/
theorem allSet_iff : a.allSet = true ↔ ∀ i < a.width, a.bit i = true := by
  rw [allSet, beq_iff_eq, modulus_eq_two_pow]
  constructor
  · intro h i hi
    rw [bit, h, Nat.testBit_two_pow_sub_one, decide_eq_true hi]
  · intro h
    apply Nat.eq_of_testBit_eq
    intro i
    rw [Nat.testBit_two_pow_sub_one]
    rcases Nat.lt_or_ge i a.width with hi | hi
    · rw [decide_eq_true hi]
      exact h i hi
    · rw [decide_eq_false (Nat.not_lt.2 hi)]
      exact a.bit_of_width_le hi

theorem not_isZero_iff : a.isZero = false ↔ ∃ i < a.width, a.bit i = true := by
  rw [isZero_eq_false_iff]
  constructor
  · intro h
    obtain ⟨i, hi⟩ := Nat.exists_testBit_of_ne_zero h
    exact ⟨i, lt_width_of_bit hi, hi⟩
  · rintro ⟨i, -, hi⟩ hzero
    rw [bit, hzero, Nat.zero_testBit] at hi
    cases hi

/-! ## Minus and complement -/

@[simp] theorem width_neg (a : Word) : a.neg.width = a.width := rfl

@[simp] theorem width_complement (a : Word) : a.complement.width = a.width := rfl

theorem bits_le (a : Word) : a.bits ≤ 2 ^ a.width - 1 :=
  Nat.le_sub_one_of_lt a.bits_lt_two_pow

/-- Turning all bits over takes the number from the largest one. -/
theorem bits_complement (a : Word) : a.complement.bits = 2 ^ a.width - 1 - a.bits := by
  have hlt : 2 ^ a.width - (a.bits + 1) < 2 ^ a.width :=
    Nat.sub_lt (Nat.two_pow_pos _) (Nat.succ_pos _)
  have hxor : (2 ^ a.width - 1) ^^^ a.bits = 2 ^ a.width - (a.bits + 1) := by
    apply Nat.eq_of_testBit_eq
    intro i
    rw [Nat.testBit_xor, Nat.testBit_two_pow_sub_one,
      Nat.testBit_two_pow_sub_succ a.bits_lt_two_pow]
    rcases Nat.lt_or_ge i a.width with hi | hi
    · simp [hi]
    · simpa [Nat.not_lt.2 hi, bit] using a.bit_of_width_le hi
  rw [complement, bits_ofNat, modulus_eq_two_pow, hxor, Nat.mod_eq_of_lt hlt, Nat.sub_sub,
    Nat.add_comm 1]

theorem bits_neg_eq (a : Word) : (a.neg.bits : ℤ) = -(a.bits : ℤ) % 2 ^ a.width := by
  have hle : a.bits ≤ 2 ^ a.width := a.bits_lt_two_pow.le
  rw [neg, bits_ofNat, modulus_eq_two_pow]
  push_cast [hle]
  rw [sub_eq_add_neg, Int.add_emod_left]

/-- Minus is the complement and one more. -/
theorem neg_eq_complement_add_one (a : Word) : a.neg = a.complement.add (ofNat a.width 1) := by
  have hle := a.bits_le
  have hpos := Nat.two_pow_pos a.width
  have hsum : 2 ^ a.width - a.bits = 2 ^ a.width - 1 - a.bits + 1 := by omega
  apply Word.ext
  · rfl
  · rw [neg, add, bits_ofNat, bits_ofNat, bits_ofNat, width_complement, bits_complement,
      modulus_eq_two_pow, hsum, Nat.add_mod_mod]

theorem neg_neg (a : Word) : a.neg.neg = a := by
  have hlt : (a.bits : ℤ) < 2 ^ a.width := mod_cast a.bits_lt_two_pow
  apply Word.ext
  · rfl
  · have hbits : (a.neg.neg.bits : ℤ) = a.bits := by
      rw [bits_neg_eq a.neg, bits_neg_eq a, width_neg, ← Int.zero_sub (_ % _), Int.sub_emod_emod,
        Int.zero_sub, Int.neg_neg, Int.emod_eq_of_lt (Int.natCast_nonneg _) hlt]
    exact_mod_cast hbits

theorem complement_complement (a : Word) : a.complement.complement = a := by
  have hle := a.bits_le
  apply Word.ext
  · rfl
  · rw [bits_complement a.complement, bits_complement a, width_complement, Nat.sub_sub_self hle]

theorem complement_ofBool (b : Bool) : (ofBool b).complement = ofBool (!b) := by
  cases b <;> decide

end Word

/-! ## All operators -/

namespace UnaryOperator

variable {p : Prop}

/-- The operator tells whether something holds of the bits. -/
def decides : UnaryOperator → Bool
  | plus | minus | complement => false
  | _ => true

/-- The number that the operator is meant to yield. -/
def YieldsBits (op : UnaryOperator) (a : Word) (bits : ℕ) : Prop :=
  match op with
  | plus => bits = a.bits
  | minus => (bits : ℤ) = -(a.bits : ℤ) % 2 ^ a.width
  | complement => (bits : ℤ) = 2 ^ a.width - 1 - a.bits
  | logicalNot => bits = if a.bits = 0 then 1 else 0
  | andAll => bits = if ∀ i < a.width, a.bit i = true then 1 else 0
  | orAll => bits = if ∃ i < a.width, a.bit i = true then 1 else 0
  | xorAll => bits = if Odd a.setBits.card then 1 else 0
  | nandAll => bits = if ∀ i < a.width, a.bit i = true then 0 else 1
  | norAll => bits = if ∃ i < a.width, a.bit i = true then 0 else 1
  | xnorAll => bits = if Odd a.setBits.card then 0 else 1

/-- What the operator is meant to yield: a truth value as one bit, and any other number at the width
of the operand. -/
structure Yields (op : UnaryOperator) (a v : Word) : Prop where
  width : v.width = if op.decides then 1 else a.width
  bits : op.YieldsBits a v.bits

theorem bits_ofBool_of_iff [Decidable p] {b : Bool} (h : b = true ↔ p) :
    (Word.ofBool b).bits = if p then 1 else 0 := by
  rw [Word.bits_ofBool]
  by_cases hp : p
  · rw [if_pos hp, h.2 hp, Bool.toNat_true]
  · rw [if_neg hp, Bool.eq_false_iff.2 (mt h.1 hp), Bool.toNat_false]

theorem bits_ofBool_not_of_iff [Decidable p] {b : Bool} (h : b = true ↔ p) :
    (Word.ofBool (!b)).bits = if p then 0 else 1 := by
  rw [← ite_not]
  exact bits_ofBool_of_iff (by rw [Bool.not_eq_true', Bool.eq_false_iff, ne_eq, h])

theorem yieldsBits_apply (op : UnaryOperator) (a : Word) : op.YieldsBits a (op.apply a).bits := by
  have hsome : (!a.isZero) = true ↔ ∃ i < a.width, a.bit i = true := by
    rw [Bool.not_eq_true', Word.not_isZero_iff]
  cases op with
  | plus => exact rfl
  | minus => exact a.bits_neg_eq
  | complement =>
    have hle := a.bits_le
    show (a.complement.bits : ℤ) = 2 ^ a.width - 1 - a.bits
    rw [a.bits_complement]
    push_cast [hle, Nat.one_le_two_pow]
    rfl
  | logicalNot => exact bits_ofBool_of_iff a.isZero_iff
  | andAll => exact bits_ofBool_of_iff Word.allSet_iff
  | orAll => exact bits_ofBool_of_iff hsome
  | xorAll => exact bits_ofBool_of_iff Word.parity_iff
  | nandAll => exact bits_ofBool_not_of_iff Word.allSet_iff
  | norAll =>
    have hnone := bits_ofBool_not_of_iff hsome
    rwa [Bool.not_not] at hnone
  | xnorAll => exact bits_ofBool_not_of_iff Word.parity_iff

theorem yields_apply (op : UnaryOperator) (a : Word) : op.Yields a (op.apply a) where
  width := by cases op <;> rfl
  bits := op.yieldsBits_apply a

/-- A reduction with a tilde in its sign is the complement of the one without. -/
theorem apply_complement_apply (a : Word) :
    complement.apply (andAll.apply a) = nandAll.apply a ∧
    complement.apply (orAll.apply a) = norAll.apply a ∧
    complement.apply (xorAll.apply a) = xnorAll.apply a := by
  refine ⟨Word.complement_ofBool _, ?_, Word.complement_ofBool _⟩
  exact (Word.complement_ofBool _).trans (by rw [Bool.not_not]; rfl)

end UnaryOperator

/-! ## In expressions -/

namespace Expr

variable {env : Env} {op : UnaryOperator} {text : String}

theorem eval_unary_of_known (h : UnaryOperator.ofText? text = some op) (e : Expr) :
    (unary text e).eval env = do return op.apply (← e.eval env) := by
  rw [eval_unary, h]

/-- Operators that stand one in front of the other may be taken together. -/
theorem eval_unary_unary {inner outer : UnaryOperator} {innerText outerText : String}
    (hinner : UnaryOperator.ofText? innerText = some inner)
    (houter : UnaryOperator.ofText? outerText = some outer)
    (h : UnaryOperator.ofText? text = some op)
    (happly : ∀ a, outer.apply (inner.apply a) = op.apply a) (e : Expr) :
    (unary outerText (unary innerText e)).eval env = (unary text e).eval env := by
  rw [eval_unary_of_known houter, eval_unary_of_known hinner, eval_unary_of_known h]
  simp only [bind_assoc, pure_bind, happly]

end Expr

open UnaryOperator in
/-- The unary operators yield what they are meant to yield, at every width, and evaluating one records
nothing of its own. Minus is the complement and one more; both undo themselves. Exclusive nor has two
signs, and a tilde may stand apart from the reduction that it turns over. -/
theorem unary_operators_yield :
    (∀ (op : UnaryOperator) (a : Word), op.Yields a (op.apply a)) ∧
    (∀ a : Word, minus.apply a = (complement.apply a).add (.ofNat a.width 1) ∧
      minus.apply (minus.apply a) = a ∧ complement.apply (complement.apply a) = a ∧
      complement.apply (andAll.apply a) = nandAll.apply a ∧
      complement.apply (orAll.apply a) = norAll.apply a ∧
      complement.apply (xorAll.apply a) = xnorAll.apply a) ∧
    ∀ (env : Env) (e : Expr),
      (∀ op : UnaryOperator,
        (Expr.unary op.text e).eval env = do return op.apply (← e.eval env)) ∧
      (Expr.unary "^~" e).eval env = (Expr.unary "~^" e).eval env ∧
      (Expr.unary "~" (.unary "&" e)).eval env = (Expr.unary "~&" e).eval env ∧
      (Expr.unary "~" (.unary "|" e)).eval env = (Expr.unary "~|" e).eval env ∧
      (Expr.unary "~" (.unary "^" e)).eval env = (Expr.unary "~^" e).eval env := by
  refine ⟨yields_apply, fun a => ⟨a.neg_eq_complement_add_one, a.neg_neg, a.complement_complement,
    apply_complement_apply a⟩, fun env e => ?_⟩
  refine ⟨fun op => Expr.eval_unary_of_known (ofText?_text op) e, ?_, ?_, ?_, ?_⟩
  · exact (Expr.eval_unary_of_known rfl e).trans (Expr.eval_unary_of_known rfl e).symm
  · exact Expr.eval_unary_unary rfl rfl rfl (fun a => (apply_complement_apply a).1) e
  · exact Expr.eval_unary_unary rfl rfl rfl (fun a => (apply_complement_apply a).2.1) e
  · exact Expr.eval_unary_unary rfl rfl rfl (fun a => (apply_complement_apply a).2.2) e

end Netlist
