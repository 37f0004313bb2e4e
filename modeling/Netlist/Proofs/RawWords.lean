/-
Words whose bound nobody keeps.

The bound on the number of a word is a field of the type, and a difference of natural numbers stops at
zero. So the definitions of the operators do not show what a program has to see to that stores a width
and a number side by side: that every number it stores fits its width, and that nothing is ever taken
from a smaller number. Here are the same words and the same operators for such a program. A raw word is
any width with any number, and `checkedSub` fails where a difference would be negative.

Whatever is built from nothing by the operations on raw words fits (`RawWord.Construction.fits_rawWord`).
The operators may fail on raw words in general. On those that fit they do not, and what they yield is
what the operators on words yield (`RawWord.applyBinary_raw`, `RawWord.applyUnary_raw`).
-/
import Mathlib.Algebra.Group.Nat.Defs
import Mathlib.Data.List.Induction
import Mathlib.Order.Nat
import Mathlib.Tactic.Lift
import Netlist.Expr.Eval

set_option autoImplicit false

namespace Netlist

/-! ## Subtraction -/

/-- Why a computation with raw words has no result. -/
inductive RawError where
  /-- Evaluation gives up. -/
  | evaluation (e : EvalError)
  /-- Something is taken from a smaller number. -/
  | underflow (minuend subtrahend : Nat)
deriving DecidableEq

/-- The difference, if it is not negative. -/
def checkedSub (a b : Nat) : Except RawError Nat :=
  if b ≤ a then .ok (a - b) else .error (.underflow a b)

theorem checkedSub_of_le {a b : Nat} (h : b ≤ a) : checkedSub a b = .ok (a - b) :=
  if_pos h

/-- What follows a subtraction that does not go below zero gets the difference. -/
theorem checkedSub_bind {α : Type} {a b : Nat} (h : b ≤ a) (f : Nat → Except RawError α) :
    checkedSub a b >>= f = f (a - b) := by
  rw [checkedSub_of_le h]
  rfl

/-! ## The type -/

/-- A width and a number that nothing ties to it. -/
@[ext]
structure RawWord where
  width : Nat
  bits : Nat
deriving DecidableEq

/-- The word without what is known of it. -/
def Word.raw (w : Word) : RawWord :=
  ⟨w.width, w.bits⟩

namespace RawWord

/-- The number is one of those of its width. -/
def Fits (v : RawWord) : Prop :=
  v.bits < 2 ^ v.width

theorem fits_iff {v : RawWord} : v.Fits ↔ v.bits < modulus v.width := by
  rw [Fits, modulus, Nat.one_shiftLeft]

theorem fits_raw (w : Word) : w.raw.Fits :=
  fits_iff.2 w.bits_lt

theorem raw_ofNat_of_fits {v : RawWord} (h : v.Fits) : (Word.ofNat v.width v.bits).raw = v := by
  ext
  · rfl
  · show (Word.ofNat v.width v.bits).bits = v.bits
    rw [Word.bits_ofNat, Nat.mod_eq_of_lt (fits_iff.1 h)]

instance : CanLift RawWord Word Word.raw Fits where
  prf v h := ⟨.ofNat v.width v.bits, raw_ofNat_of_fits h⟩

/-! ## Operations -/

/-- The low bits of a number. -/
def ofNat (width n : Nat) : RawWord :=
  ⟨width, truncate width n⟩

/-- No bit set; nothing is masked. -/
def zero (width : Nat) : RawWord :=
  ⟨width, 0⟩

/-- A truth value as one bit. -/
def ofBool (b : Bool) : RawWord :=
  ofNat 1 b.toNat

/-- The same number at another width. -/
def resize (v : RawWord) (width : Nat) : RawWord :=
  ofNat width v.bits

/-- The `width` bits from bit `base` upwards. -/
def extract (v : RawWord) (base width : Nat) : RawWord :=
  ofNat width (v.bits >>> base)

/-- The bits of `high` above those of `low`. The sum of the widths wraps around. -/
def append (high low : RawWord) : RawWord :=
  ofNat (Count.wrap (high.width + low.width)) (high.bits <<< low.width ||| low.bits)

/-- A row of words side by side. -/
def concat (vs : List RawWord) : RawWord :=
  vs.foldl append (zero 0)

/-- Puts `n` copies of a word below what is there already. -/
def replicateBelow (n : Nat) (copies there : RawWord) : RawWord :=
  if n = 0 then there
  else
    let there := if n % 2 = 1 then there.append copies else there
    let half := n / 2
    replicateBelow half (if half = 0 then copies else copies.append copies) there
termination_by n
decreasing_by exact Nat.div_lt_self (by omega) (by decide)

/-- `n` copies of a word side by side. -/
def replicate (n : Nat) (v : RawWord) : RawWord :=
  replicateBelow n v (zero 0)

/-- No bit is set. -/
def isZero (v : RawWord) : Bool :=
  v.bits == 0

/-- The top bit, if there is one. -/
def signBit (v : RawWord) : Except RawError Bool := do
  if 0 < v.width then return v.bits.testBit (← checkedSub v.width 1) else return false

/-- The word read as a count, if it is one. -/
def count? (v : RawWord) : Option Nat :=
  if v.bits < Count.limit then some v.bits else none

/-- A row of operations that builds a word from nothing. -/
inductive Construction where
  /-- From a number of any size, be it one machine word or more. -/
  | ofNat (width n : Nat)
  | zero (width : Nat)
  | ofBool (b : Bool)
  | resize (c : Construction) (width : Nat)
  | extract (c : Construction) (base width : Nat)
  | append (high low : Construction)

/-- The word that is built. -/
def Construction.word : Construction → Word
  | ofNat width n => .ofNat width n
  | zero width => .zero width
  | ofBool b => .ofBool b
  | resize c width => c.word.resize width
  | extract c base width => c.word.extract base width
  | append high low => high.word.append low.word

/-- The raw word that is built. -/
def Construction.rawWord : Construction → RawWord
  | ofNat width n => .ofNat width n
  | zero width => .zero width
  | ofBool b => .ofBool b
  | resize c width => c.rawWord.resize width
  | extract c base width => c.rawWord.extract base width
  | append high low => high.rawWord.append low.rawWord

/-- Each operation masks what it makes, or makes zero, whatever it is given. -/
theorem Construction.fits_rawWord (c : Construction) : c.rawWord.Fits := by
  cases c with
  | zero width => exact Nat.two_pow_pos width
  | ofNat | ofBool | resize | extract | append => exact fits_iff.2 (truncate_lt _ _)

/-! ## The operators -/

/-- The difference, with the modulus added first. -/
def sub (a b : RawWord) : Except RawError RawWord := do
  let difference ← checkedSub (modulus a.width + a.bits) (truncate a.width b.bits)
  return ofNat a.width difference

/-- All bits moved down, copies of the top bit above. -/
def arithmeticShiftRight (a b : RawWord) : Except RawError RawWord := do
  let amount := if b.bits ≤ a.width then b.bits else a.width
  let moved := a.bits >>> amount
  if ← a.signBit then
    let copies ← checkedSub (modulus amount) 1
    let place ← checkedSub a.width amount
    return ofNat a.width (moved ||| copies <<< place)
  else
    return ofNat a.width moved

/-- The number whose sum with `a` is zero at this width. -/
def neg (a : RawWord) : Except RawError RawWord := do
  let difference ← checkedSub (modulus a.width) a.bits
  return ofNat a.width difference

/-- The value of a binary operator. -/
def applyBinary (op : BinaryOperator) (a b : RawWord) : Except RawError RawWord :=
  match op with
  | .add => return ofNat a.width (a.bits + b.bits)
  | .sub => a.sub b
  | .mul => return ofNat a.width (a.bits * b.bits)
  | .div => return if b.isZero then zero a.width else ofNat a.width (a.bits / b.bits)
  | .rem => return if b.isZero then zero a.width else ofNat a.width (a.bits % b.bits)
  | .and => return ofNat a.width (a.bits &&& b.bits)
  | .or => return ofNat a.width (a.bits ||| b.bits)
  | .xor => return ofNat a.width (a.bits ^^^ b.bits)
  | .shiftLeft =>
    return if a.width ≤ b.bits then zero a.width else ofNat a.width (a.bits <<< b.bits)
  | .shiftRight =>
    return if a.width ≤ b.bits then zero a.width else ofNat a.width (a.bits >>> b.bits)
  | .arithmeticShiftRight => a.arithmeticShiftRight b
  | .lt => return ofBool (a.bits < b.bits)
  | .gt => return ofBool (a.bits > b.bits)
  | .le => return ofBool (a.bits ≤ b.bits)
  | .ge => return ofBool (a.bits ≥ b.bits)
  | .eq => return ofBool (a.bits == b.bits)
  | .ne => return ofBool (a.bits != b.bits)
  | .logicalAnd => return ofBool (!a.isZero && !b.isZero)
  | .logicalOr => return ofBool (!a.isZero || !b.isZero)

/-- The value of a unary operator. The word with all bits set is made for every one of them. -/
def applyUnary (op : UnaryOperator) (a : RawWord) : Except RawError RawWord := do
  let ones ← checkedSub (modulus a.width) 1
  match op with
  | .plus => return a
  | .minus => a.neg
  | .complement => return ofNat a.width (ones ^^^ a.bits)
  | .logicalNot => return ofBool a.isZero
  | .andAll => return ofBool (a.bits == ones)
  | .orAll => return ofBool (!a.isZero)
  | .xorAll => return ofBool (Word.oddOnes a.bits false)
  | .nandAll => return ofBool (!(a.bits == ones))
  | .norAll => return ofBool a.isZero
  | .xnorAll => return ofBool (!Word.oddOnes a.bits false)

/-! ## Raw words that fit -/

section Raw

variable (a b : Word)

theorem raw_append (high low : Word) : (high.append low).raw = high.raw.append low.raw := rfl

theorem Construction.raw_word (c : Construction) : c.word.raw = c.rawWord := by
  induction c with
  | ofNat | zero | ofBool => rfl
  | resize c width ih | extract c base width ih => rw [rawWord, ← ih]; rfl
  | append high low ihh ihl => rw [rawWord, ← ihh, ← ihl]; rfl

theorem raw_concat (ws : List Word) : (Word.concat ws).raw = concat (ws.map Word.raw) := by
  induction ws using List.reverseRecOn with
  | nil => rfl
  | append_singleton ws w ih =>
    rw [Word.concat_append_singleton, raw_append, ih, concat, concat, List.map_append,
      List.foldl_append]
    rfl

theorem raw_replicateBelow (n : Nat) (copies there : Word) :
    (Word.replicateBelow n copies there).raw = replicateBelow n copies.raw there.raw := by
  induction n using Nat.strongRecOn generalizing copies there with
  | ind n ih =>
    rw [Word.replicateBelow_round, replicateBelow]
    by_cases hn : n = 0
    · rw [if_pos hn, if_pos hn]
    · rw [if_neg hn, if_neg hn]
      dsimp only
      rw [ih (n / 2) (Nat.div_lt_self (Nat.pos_of_ne_zero hn) (by decide))]
      congr 1
      · split <;> rfl
      · split <;> rfl

theorem raw_replicate (n : Nat) (w : Word) : (w.replicate n).raw = w.raw.replicate n :=
  raw_replicateBelow n w (.zero 0)

/-- A word without bits has no top bit, so none is looked for below zero. -/
theorem signBit_raw : a.raw.signBit = .ok a.signBit := by
  by_cases h : 0 < a.width
  · rw [Word.signBit, decide_eq_true h, Bool.true_and]
    exact (if_pos h).trans (checkedSub_bind h _)
  · rw [Word.signBit, decide_eq_false h, Bool.false_and]
    exact if_neg h

/-- What is taken away is reduced to the width, so it lies below the modulus. -/
theorem sub_raw : a.raw.sub b.raw = .ok (a.sub b).raw :=
  checkedSub_bind (Nat.le_add_right_of_le (truncate_lt a.width b.bits).le) _

/-- The word has a number below the modulus. -/
theorem neg_raw : a.raw.neg = .ok a.neg.raw :=
  checkedSub_bind a.bits_lt.le _

/-- The amount is cut down to the width, and there is at least one number of any width. -/
theorem arithmeticShiftRight_raw :
    a.raw.arithmeticShiftRight b.raw = .ok (a.arithmeticShiftRight b).raw := by
  have hamount : (if b.bits ≤ a.width then b.bits else a.width) ≤ a.width := by
    split
    · assumption
    · exact le_rfl
  unfold arithmeticShiftRight Word.arithmeticShiftRight
  rw [signBit_raw]
  cases a.signBit with
  | false => rfl
  -- first the pattern of the copies, then the place that they move up to
  | true => exact (checkedSub_bind (modulus_pos _) _).trans (checkedSub_bind hamount _)

/-- The words that are zero in one case and masked in the other. -/
theorem raw_ite (p : Prop) [Decidable p] (width n : Nat) :
    (if p then Word.zero width else Word.ofNat width n).raw =
      if p then zero width else ofNat width n :=
  apply_ite Word.raw p _ _

/-- No operator goes below zero on words that fit, and it yields there what it yields on words. -/
theorem applyBinary_raw (op : BinaryOperator) :
    applyBinary op a.raw b.raw = .ok (op.apply a b).raw := by
  cases op with
  | sub => exact sub_raw a b
  | arithmeticShiftRight => exact arithmeticShiftRight_raw a b
  | div => exact congrArg Except.ok (raw_ite (b.isZero = true) a.width (a.bits / b.bits)).symm
  | rem => exact congrArg Except.ok (raw_ite (b.isZero = true) a.width (a.bits % b.bits)).symm
  | shiftLeft => exact congrArg Except.ok (raw_ite (a.width ≤ b.bits) a.width _).symm
  | shiftRight => exact congrArg Except.ok (raw_ite (a.width ≤ b.bits) a.width _).symm
  | _ => rfl

theorem applyUnary_raw (op : UnaryOperator) : applyUnary op a.raw = .ok (op.apply a).raw := by
  refine (checkedSub_bind (modulus_pos a.width) _).trans ?_
  cases op with
  | minus => exact neg_raw a
  | _ => rfl

end Raw

end RawWord

end Netlist
