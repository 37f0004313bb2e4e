/-
What the binary operators compute.

The operators are built from shifts, masks and numbers that are kept above zero. What they are meant to
yield is said here in arithmetic (`BinaryOperator.Yields`): sums, differences and products modulo the
number of words of a width, quotients and remainders rounded down, shifts as products and
quotients by powers of two. A shift that copies the top bit is a quotient of the number that the word
stands for if its top bit counts downwards (`Word.signed`). All operators yield what they are meant to
yield, at all widths of both operands, and only a division by zero is recorded (`run_evalBinary_yields`).
-/
import Mathlib
import Netlist.Proofs.ConstantIndex

set_option autoImplicit false

namespace Netlist

namespace Word

/-- The number that the word stands for if its top bit counts downwards. -/
def signed (a : Word) : ℤ :=
  if 2 * a.bits < 2 ^ a.width then a.bits else a.bits - 2 ^ a.width

variable {a b : Word}

/-! ## Differences -/

/-- A difference does not go below zero before it is reduced, and it is reduced as a whole number
is. -/
theorem bits_sub_eq (a b : Word) :
    ((a.sub b).bits : ℤ) = ((a.bits : ℤ) - b.bits) % 2 ^ a.width := by
  have hle : b.bits % 2 ^ a.width ≤ 2 ^ a.width + a.bits :=
    Nat.le_add_right_of_le (Nat.mod_lt _ (Nat.two_pow_pos _)).le
  rw [sub, bits_ofNat, truncate_eq_mod, modulus_eq_two_pow]
  push_cast [hle]
  rw [add_sub_assoc, Int.add_emod_left, Int.sub_emod_emod]

/-! ## Shifts -/

/-- A shift by the width or more leaves nothing. -/
theorem mul_two_pow_mod_of_le {width amount : Nat} (h : width ≤ amount) (n : Nat) :
    n * 2 ^ amount % 2 ^ width = 0 :=
  Nat.mod_eq_zero_of_dvd (Dvd.dvd.mul_left (Nat.pow_dvd_pow 2 h) n)

theorem bits_shiftLeft (a b : Word) :
    (a.shiftLeft b).bits = a.bits * 2 ^ b.bits % 2 ^ a.width := by
  unfold shiftLeft
  split
  · next h => rw [bits_zero, mul_two_pow_mod_of_le h]
  · rw [bits_ofNat, modulus_eq_two_pow, Nat.shiftLeft_eq]

theorem width_shiftLeft (a b : Word) : (a.shiftLeft b).width = a.width := by
  unfold shiftLeft
  split <;> rfl

theorem width_shiftRight (a b : Word) : (a.shiftRight b).width = a.width := by
  unfold shiftRight
  split <;> rfl

theorem width_arithmeticShiftRight (a b : Word) :
    (a.arithmeticShiftRight b).width = a.width := by
  unfold arithmeticShiftRight
  dsimp only
  split <;> rfl

theorem bits_shiftRight (a b : Word) : (a.shiftRight b).bits = a.bits / 2 ^ b.bits := by
  have hlt := a.bits_lt_two_pow
  unfold shiftRight
  split
  · next h =>
    rw [bits_zero, Nat.div_eq_of_lt (hlt.trans_le (Nat.pow_le_pow_right two_pos h))]
  · rw [bits_ofNat, modulus_eq_two_pow, Nat.shiftRight_eq_div_pow,
      Nat.mod_eq_of_lt ((Nat.div_le_self _ _).trans_lt hlt)]

/-- The top bit is set just when the number lies in the upper half. -/
theorem signBit_iff (a : Word) : a.signBit = true ↔ 2 ^ a.width ≤ 2 * a.bits := by
  have hlt := a.bits_lt_two_pow
  rw [signBit, bit, Bool.and_eq_true, decide_eq_true_iff]
  rcases Nat.eq_zero_or_pos a.width with hzero | hpos
  · rw [hzero] at hlt ⊢
    omega
  · obtain ⟨w, hw⟩ := Nat.exists_eq_succ_of_ne_zero hpos.ne'
    rw [hw, Nat.pow_succ] at hlt ⊢
    have hquotient : a.bits / 2 ^ w < 2 := Nat.div_lt_of_lt_mul hlt
    have hpositive : 1 ≤ a.bits / 2 ^ w ↔ 2 ^ w ≤ a.bits := by
      rw [Nat.le_div_iff_mul_le (Nat.two_pow_pos w), Nat.one_mul]
    rw [Nat.succ_sub_one, Nat.testBit_eq_decide_div_mod_eq, decide_eq_true_iff,
      Nat.mod_eq_of_lt hquotient]
    omega

theorem signed_of_signBit (h : a.signBit = true) : a.signed = a.bits - 2 ^ a.width := by
  rw [signed, if_neg (Nat.not_lt.2 (a.signBit_iff.1 h))]

theorem signed_of_not_signBit (h : ¬a.signBit = true) : a.signed = a.bits := by
  rw [signed, if_pos (Nat.not_le.1 (mt a.signBit_iff.2 h))]

/-- Shifts by more than the width leave what the shift by the width leaves: copies of the top
bit. -/
theorem signed_ediv_min (a : Word) (amount : Nat) :
    a.signed / 2 ^ min amount a.width = a.signed / 2 ^ amount := by
  have hlt : (a.bits : ℤ) < 2 ^ a.width := mod_cast a.bits_lt_two_pow
  rcases Nat.le_total amount a.width with hle | hge
  · rw [Nat.min_eq_left hle]
  have hpow : (2 : ℤ) ^ a.width ≤ 2 ^ amount := pow_le_pow_right₀ (by decide) hge
  -- from the width on the quotient is that of the top bit alone: minus one or zero
  rw [Nat.min_eq_right hge]
  by_cases hsign : a.signBit = true
  · rw [signed_of_signBit hsign, Int.ediv_eq_neg_one_of_neg_of_le (by omega) (by omega),
      Int.ediv_eq_neg_one_of_neg_of_le (by omega) (by omega)]
  · rw [signed_of_not_signBit hsign, Int.ediv_eq_zero_of_lt (by omega) hlt,
      Int.ediv_eq_zero_of_lt (by omega) (by omega)]

/-- What is left of the bits when they move down lies below the copies of the top bit. -/
theorem moved_lt {bits width amount : Nat} (hbits : bits < 2 ^ width) (hamount : amount ≤ width) :
    bits / 2 ^ amount < 2 ^ (width - amount) := by
  refine Nat.div_lt_of_lt_mul ?_
  rwa [← Nat.pow_add, Nat.add_sub_cancel' hamount]

/-- The bits moved down and the copies above them do not meet. -/
theorem moved_or_fill {bits width amount : Nat} (hbits : bits < 2 ^ width)
    (hamount : amount ≤ width) :
    bits >>> amount ||| (modulus amount - 1) <<< (width - amount)
      = bits / 2 ^ amount + (2 ^ width - 2 ^ (width - amount)) := by
  rw [Nat.shiftRight_eq_div_pow, Nat.or_comm,
    ← Nat.shiftLeft_add_eq_or_of_lt (moved_lt hbits hamount), Nat.shiftLeft_eq,
    modulus_eq_two_pow, Nat.sub_mul, Nat.one_mul, ← Nat.pow_add, Nat.add_sub_cancel' hamount,
    Nat.add_comm]

/-- The copies make up for what is taken off where the top bit counts downwards. -/
theorem ediv_add_two_pow {width amount : Nat} (bits : Nat) (hamount : amount ≤ width) :
    ((bits : ℤ) - 2 ^ width) / 2 ^ amount + 2 ^ width
      = ((bits / 2 ^ amount + (2 ^ width - 2 ^ (width - amount)) : ℕ) : ℤ) := by
  have hsplit : (2 : ℤ) ^ width = 2 ^ (width - amount) * 2 ^ amount := by
    rw [← pow_add, Nat.sub_add_cancel hamount]
  have hpow : 2 ^ (width - amount) ≤ 2 ^ width := Nat.pow_le_pow_right two_pos (Nat.sub_le _ _)
  rw [hsplit, Int.sub_mul_ediv_right _ _ (by positivity), ← hsplit]
  push_cast [hpow]
  ring

/-- A shift that copies the top bit divides the number that the top bit counts downwards in. -/
theorem bits_arithmeticShiftRight (a b : Word) :
    ((a.arithmeticShiftRight b).bits : ℤ) = a.signed / 2 ^ b.bits % 2 ^ a.width := by
  rw [← signed_ediv_min]
  unfold arithmeticShiftRight
  rw [← Nat.min_def]
  have hamount : min b.bits a.width ≤ a.width := Nat.min_le_right _ _
  -- only that the amount is at most the width is used from here on
  generalize min b.bits a.width = amount at hamount ⊢
  by_cases hsign : a.signBit = true
  · rw [if_pos hsign, signed_of_signBit hsign, bits_ofNat,
      moved_or_fill a.bits_lt_two_pow hamount, modulus_eq_two_pow, ← Int.add_emod_right,
      ediv_add_two_pow a.bits hamount]
    push_cast
    rfl
  · rw [if_neg hsign, signed_of_not_signBit hsign, bits_ofNat, modulus_eq_two_pow,
      Nat.shiftRight_eq_div_pow]
    push_cast
    rfl

-- an amount that no machine word holds
example : ((ofNat 4 9).arithmeticShiftRight (ofNat 66 (2 ^ 65))).bits = 15 := by decide +kernel

/-! ## Bit by bit -/

/-- Only the low bits of the right operand meet bits of the left one. -/
theorem bits_and (a b : Word) : (a.and b).bits = a.bits &&& b.bits % 2 ^ a.width := by
  rw [and, bits_ofNat, modulus_eq_two_pow, Nat.and_mod_two_pow, Nat.mod_eq_of_lt a.bits_lt_two_pow]

theorem bits_or (a b : Word) : (a.or b).bits = a.bits ||| b.bits % 2 ^ a.width := by
  rw [or, bits_ofNat, modulus_eq_two_pow, Nat.or_mod_two_pow, Nat.mod_eq_of_lt a.bits_lt_two_pow]

theorem bits_xor (a b : Word) : (a.xor b).bits = a.bits ^^^ b.bits % 2 ^ a.width := by
  rw [xor, bits_ofNat, modulus_eq_two_pow, Nat.xor_mod_two_pow, Nat.mod_eq_of_lt a.bits_lt_two_pow]

/-! ## Quotients -/

theorem isZero_iff (a : Word) : a.isZero = true ↔ a.bits = 0 :=
  beq_iff_eq

theorem isZero_eq_false_iff (a : Word) : a.isZero = false ↔ a.bits ≠ 0 :=
  beq_eq_false_iff_ne

theorem width_rem (a b : Word) : (a.rem b).width = a.width := by
  unfold rem
  split <;> rfl

theorem bits_rem (h : b.isZero = false) : (a.rem b).bits = a.bits % b.bits := by
  rw [rem, h, if_neg Bool.false_ne_true, bits_ofNat,
    Nat.mod_eq_of_lt ((Nat.mod_le _ _).trans_lt a.bits_lt)]

/-- Over zero both the quotient and the remainder are zero. -/
theorem bits_div_zero (h : b.bits = 0) : (a.div b).bits = 0 := by
  rw [div, if_pos (b.isZero_iff.2 h), bits_zero]

theorem bits_rem_zero (h : b.bits = 0) : (a.rem b).bits = 0 := by
  rw [rem, if_pos (b.isZero_iff.2 h), bits_zero]

/-- Over any other number they are what is taken out of the left operand and what stays. -/
theorem exists_remainder (h : b.bits ≠ 0) :
    ∃ r < b.bits, a.bits = (a.div b).bits * b.bits + r := by
  refine ⟨a.bits % b.bits, Nat.mod_lt _ (Nat.pos_of_ne_zero h), ?_⟩
  rw [bits_div (b.isZero_eq_false_iff.2 h), Nat.div_add_mod']

theorem exists_quotient (h : b.bits ≠ 0) :
    (a.rem b).bits < b.bits ∧ ∃ q, a.bits = q * b.bits + (a.rem b).bits := by
  rw [bits_rem (b.isZero_eq_false_iff.2 h)]
  exact ⟨Nat.mod_lt _ (Nat.pos_of_ne_zero h), a.bits / b.bits, (Nat.div_add_mod' _ _).symm⟩

/-! ## Truth values -/

theorem bits_ofBool_decide (p : Prop) [Decidable p] :
    (ofBool (decide p)).bits = if p then 1 else 0 := by
  rw [bits_ofBool]
  split <;> simp [*]

end Word

/-! ## All operators -/

namespace BinaryOperator

/-- The operator tells whether something holds. -/
def decides : BinaryOperator → Bool
  | lt | gt | le | ge | eq | ne | logicalAnd | logicalOr => true
  | _ => false

/-- The number that the operator is meant to yield, for operands of any widths. -/
def YieldsBits (op : BinaryOperator) (a b : Word) (bits : Nat) : Prop :=
  match op with
  | add => bits = (a.bits + b.bits) % 2 ^ a.width
  | sub => (bits : ℤ) = ((a.bits : ℤ) - b.bits) % 2 ^ a.width
  | mul => bits = a.bits * b.bits % 2 ^ a.width
  | div => if b.bits = 0 then bits = 0 else ∃ r < b.bits, a.bits = bits * b.bits + r
  | rem => if b.bits = 0 then bits = 0 else bits < b.bits ∧ ∃ q, a.bits = q * b.bits + bits
  | and => bits = a.bits &&& b.bits % 2 ^ a.width
  | or => bits = a.bits ||| b.bits % 2 ^ a.width
  | xor => bits = a.bits ^^^ b.bits % 2 ^ a.width
  | shiftLeft => bits = a.bits * 2 ^ b.bits % 2 ^ a.width
  | shiftRight => bits = a.bits / 2 ^ b.bits
  | arithmeticShiftRight => (bits : ℤ) = a.signed / 2 ^ b.bits % 2 ^ a.width
  | lt => bits = if a.bits < b.bits then 1 else 0
  | gt => bits = if b.bits < a.bits then 1 else 0
  | le => bits = if a.bits ≤ b.bits then 1 else 0
  | ge => bits = if b.bits ≤ a.bits then 1 else 0
  | eq => bits = if a.bits = b.bits then 1 else 0
  | ne => bits = if a.bits = b.bits then 0 else 1
  | logicalAnd => bits = if a.bits = 0 ∨ b.bits = 0 then 0 else 1
  | logicalOr => bits = if a.bits = 0 ∧ b.bits = 0 then 0 else 1

/-- What the operator is meant to yield: a truth value as one bit, and any other number at the width
of the left operand. -/
structure Yields (op : BinaryOperator) (a b v : Word) : Prop where
  width : v.width = if op.decides then 1 else a.width
  bits : op.YieldsBits a b v.bits

theorem width_apply (op : BinaryOperator) (a b : Word) :
    (op.apply a b).width = if op.decides then 1 else a.width := by
  cases op with
  | div => exact Word.width_div a b
  | rem => exact Word.width_rem a b
  | shiftLeft => exact Word.width_shiftLeft a b
  | shiftRight => exact Word.width_shiftRight a b
  | arithmeticShiftRight => exact Word.width_arithmeticShiftRight a b
  | _ => rfl

theorem yieldsBits_apply (op : BinaryOperator) (a b : Word) :
    op.YieldsBits a b (op.apply a b).bits := by
  cases op with
  | add => exact (Word.bits_ofNat _ _).trans (by rw [modulus_eq_two_pow])
  | sub => exact a.bits_sub_eq b
  | mul => exact (Word.bits_ofNat _ _).trans (by rw [modulus_eq_two_pow])
  | div =>
    show if b.bits = 0 then _ else _
    split
    · next hzero => exact Word.bits_div_zero hzero
    · next hne => exact Word.exists_remainder hne
  | rem =>
    show if b.bits = 0 then _ else _
    split
    · next hzero => exact Word.bits_rem_zero hzero
    · next hne => exact Word.exists_quotient hne
  | and => exact a.bits_and b
  | or => exact a.bits_or b
  | xor => exact a.bits_xor b
  | shiftLeft => exact a.bits_shiftLeft b
  | shiftRight => exact a.bits_shiftRight b
  | arithmeticShiftRight => exact a.bits_arithmeticShiftRight b
  | lt | gt | le | ge => exact Word.bits_ofBool_decide _
  | eq =>
    show (Word.ofBool (a.bits == b.bits)).bits = if a.bits = b.bits then 1 else 0
    by_cases h : a.bits = b.bits <;> simp [h]
  | ne =>
    show (Word.ofBool (a.bits != b.bits)).bits = if a.bits = b.bits then 0 else 1
    by_cases h : a.bits = b.bits <;> simp [h]
  | logicalAnd =>
    show (Word.ofBool (!(a.bits == 0) && !(b.bits == 0))).bits = _
    by_cases ha : a.bits = 0 <;> by_cases hb : b.bits = 0 <;> simp [ha, hb]
  | logicalOr =>
    show (Word.ofBool (!(a.bits == 0) || !(b.bits == 0))).bits = _
    by_cases ha : a.bits = 0 <;> by_cases hb : b.bits = 0 <;> simp [ha, hb]

theorem divides_iff (op : BinaryOperator) : op.divides = true ↔ op = div ∨ op = rem := by
  cases op <;> decide

/-- Every operator yields what it is meant to yield. Only a division by zero is recorded, and it is
recorded once. -/
theorem run_evalBinary_yields (op : BinaryOperator) (a b : Word) :
    ∃ v, (Expr.evalBinary op a b).run =
        ⟨.ok v, if (op = div ∨ op = rem) ∧ b.bits = 0 then
          [⟨.warning, none, .divisionByZero a op b⟩] else []⟩ ∧
      op.Yields a b v := by
  refine ⟨op.apply a b, ?_, width_apply op a b, yieldsBits_apply op a b⟩
  rw [Tree.run_evalBinary]
  simp only [Tree.divisionLog, Bool.and_eq_true, divides_iff, Word.isZero_iff]

end BinaryOperator

end Netlist
