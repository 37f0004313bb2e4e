/-
Words: the values that signals take.

A word is an unsigned number together with the number of bits it is stored in. Every
operation either keeps the number below the modulus of its width or reduces it, so the
bound is a field of the type and no reader has to establish it again.

A width may be enormous while the number is small: a port may be declared with `2 ^ 63`
bits. Reduction therefore compares bit lengths first and computes the modulus only for a
number that is really longer. `truncate_eq_mod` says that this is still the remainder.
-/
import Netlist.Count

set_option autoImplicit false

namespace Netlist

/-! ## Reduction modulo a power of two -/

/-- How many numbers fit into `width` bits. -/
def modulus (width : Nat) : Nat :=
  1 <<< width

theorem modulus_pos (width : Nat) : 0 < modulus width := by
  rw [modulus, Nat.one_shiftLeft]
  exact Nat.two_pow_pos width

@[simp] theorem modulus_zero : modulus 0 = 1 := rfl

theorem modulus_succ (width : Nat) : modulus (width + 1) = 2 * modulus width := by
  simp only [modulus, Nat.one_shiftLeft, Nat.pow_succ]
  omega

theorem modulus_add (a b : Nat) : modulus (a + b) = modulus a * modulus b := by
  simp only [modulus, Nat.one_shiftLeft, Nat.pow_add]

theorem shiftLeft_eq_mul_modulus (n width : Nat) : n <<< width = n * modulus width := by
  rw [modulus, Nat.one_shiftLeft, Nat.shiftLeft_eq]

theorem shiftRight_eq_div_modulus (n width : Nat) : n >>> width = n / modulus width := by
  rw [modulus, Nat.one_shiftLeft, Nat.shiftRight_eq_div_pow]

/-- The low `width` bits of `n`. A number whose top bit lies below `width` is its own low
part, which is decided without computing the modulus. -/
def truncate (width n : Nat) : Nat :=
  if n.log2 < width then n else n % modulus width

/-- Truncation is the remainder modulo `2 ^ width`. -/
theorem truncate_eq_mod (width n : Nat) : truncate width n = n % modulus width := by
  unfold truncate
  split
  · next h =>
    have hn : n < 2 ^ width :=
      Nat.lt_of_lt_of_le Nat.lt_log2_self (Nat.pow_le_pow_right (by decide) h)
    rw [modulus, Nat.one_shiftLeft, Nat.mod_eq_of_lt hn]
  · rfl

theorem truncate_lt (width n : Nat) : truncate width n < modulus width := by
  rw [truncate_eq_mod]
  exact Nat.mod_lt _ (modulus_pos width)

/-! ## The type -/

/-- An unsigned number of `width` bits. -/
@[ext]
structure Word where
  width : Nat
  bits : Nat
  bits_lt : bits < modulus width
deriving DecidableEq

namespace Word

/-- The word of the given width that holds the low bits of `n`. -/
def ofNat (width n : Nat) : Word :=
  ⟨width, truncate width n, truncate_lt width n⟩

@[simp] theorem width_ofNat (width n : Nat) : (ofNat width n).width = width := rfl

@[simp] theorem bits_ofNat (width n : Nat) : (ofNat width n).bits = n % modulus width :=
  truncate_eq_mod width n

/-- The word with no bit set. -/
def zero (width : Nat) : Word :=
  ⟨width, 0, modulus_pos width⟩

@[simp] theorem width_zero (width : Nat) : (zero width).width = width := rfl

@[simp] theorem bits_zero (width : Nat) : (zero width).bits = 0 := rfl

/-- A truth value as a word of one bit. -/
def ofBool (b : Bool) : Word :=
  ofNat 1 b.toNat

@[simp] theorem width_ofBool (b : Bool) : (ofBool b).width = 1 := rfl

@[simp] theorem bits_ofBool (b : Bool) : (ofBool b).bits = b.toNat := by
  cases b <;> rfl

/-! ## Questions about a word -/

/-- No bit is set. -/
def isZero (w : Word) : Bool :=
  w.bits == 0

/-- Bit `i`, counted from the low end. Bits past the top read as zero. -/
def bit (w : Word) (i : Nat) : Bool :=
  w.bits.testBit i

/-- The top bit; clear in a word without bits. -/
def signBit (w : Word) : Bool :=
  decide (0 < w.width) && w.bit (w.width - 1)

/-- The word read as a count, if it is one. -/
def count? (w : Word) : Option Nat :=
  if w.bits < Count.limit then some w.bits else none

/-! ## Changing the width, taking apart and putting together -/

/-- The same number at another width, cut off or filled with zeros at the top. -/
def resize (w : Word) (width : Nat) : Word :=
  ofNat width w.bits

/-- The `width` bits from bit `base` upwards. Bits past the top read as zero. -/
def extract (w : Word) (base width : Nat) : Word :=
  ofNat width (w.bits >>> base)

/-- A word made of the bits of `high` above the bits of `low`. The sum of the widths wraps
around if it is no count, and only the low bits are kept then. -/
def append (high low : Word) : Word :=
  ofNat (Count.wrap (high.width + low.width)) (high.bits <<< low.width ||| low.bits)

@[simp] theorem width_resize (w : Word) (width : Nat) : (w.resize width).width = width := rfl

@[simp] theorem bits_resize (w : Word) (width : Nat) :
    (w.resize width).bits = w.bits % modulus width :=
  bits_ofNat width w.bits

@[simp] theorem width_extract (w : Word) (base width : Nat) :
    (w.extract base width).width = width := rfl

theorem bits_extract (w : Word) (base width : Nat) :
    (w.extract base width).bits = w.bits / modulus base % modulus width := by
  rw [extract, bits_ofNat, shiftRight_eq_div_modulus]

@[simp] theorem width_append (high low : Word) :
    (high.append low).width = Count.wrap (high.width + low.width) := rfl

theorem width_append_of_lt {high low : Word} (h : high.width + low.width < Count.limit) :
    (high.append low).width = high.width + low.width :=
  Count.wrap_eq_self h

/-- The number of a word put together is that of its parts, each at its place. -/
theorem bits_append {high low : Word} (h : high.width + low.width < Count.limit) :
    (high.append low).bits = high.bits * modulus low.width + low.bits := by
  have hlow : low.bits < 2 ^ low.width := by
    simpa [modulus, Nat.one_shiftLeft] using low.bits_lt
  have hsum : high.bits <<< low.width ||| low.bits = high.bits * modulus low.width + low.bits := by
    rw [← Nat.shiftLeft_add_eq_or_of_lt hlow, shiftLeft_eq_mul_modulus]
  have hbound : high.bits * modulus low.width + low.bits < modulus (high.width + low.width) := by
    have hle : (high.bits + 1) * modulus low.width ≤ modulus high.width * modulus low.width :=
      Nat.mul_le_mul_right _ high.bits_lt
    have := low.bits_lt
    rw [modulus_add]
    rw [Nat.add_mul, Nat.one_mul] at hle
    omega
  rw [append, bits_ofNat, hsum, Count.wrap_eq_self h, Nat.mod_eq_of_lt hbound]

/-- A word at its own width is itself. -/
@[simp] theorem resize_width (w : Word) : w.resize w.width = w := by
  ext
  · rfl
  · rw [bits_resize, Nat.mod_eq_of_lt w.bits_lt]

end Word

end Netlist
