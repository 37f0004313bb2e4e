/-
Decimal numerals read back.

The decimal digits of a number are digits for every reader: they are a number to the lexer and
a bare literal, and the literal stands for the number (`Literal.read_numeral`), as wide as it needs
to be, so that no bit is lost (`bits_bareWidth`).
-/
import Netlist.Proofs.LiteralReading

set_option autoImplicit false

namespace Netlist

namespace Radix

theorem isDigit_of_mem_digits (n : Nat) : ∀ d ∈ decimal.digits n, d.isDigit := by
  intro d hd
  exact Nat.isDigit_of_mem_toDigits (by decide) (by decide) hd

theorem toList_numeral (n : Nat) : (decimal.numeral n).toList = decimal.digits n := by
  rw [numeral_eq, String.toList_ofList]

/-- A numeral is a number to the lexer. -/
theorem claims_numeral (n : Nat) : Terminal.Claims .number (decimal.numeral n).toList := by
  have hne : decimal.digits n ≠ [] := Nat.toDigits_ne_nil
  have hdigits := isDigit_of_mem_digits n
  rw [toList_numeral]
  refine ⟨.plainNumber hne hdigits, ?_⟩
  intro y hy
  obtain ⟨c, cs, hcs⟩ := List.exists_cons_of_ne_nil hne
  rw [hcs] at hy hdigits
  exact .inl (hy.of_isDigit (.inl (hdigits c List.mem_cons_self)))

end Radix

namespace Literal

/-- A numeral is a bare literal. -/
theorem hasShape_digits (n : Nat) :
    HasShape (Radix.decimal.digits n) (.bare (Radix.decimal.digits n)) := by
  have hne : Radix.decimal.digits n ≠ [] := Nat.toDigits_ne_nil
  have hdigits := Radix.isDigit_of_mem_digits n
  obtain ⟨d, ds, hds⟩ := List.exists_cons_of_ne_nil hne
  rw [hds] at hdigits ⊢
  exact .bare (hdigits d List.mem_cons_self) fun c hc => .inl (hdigits c (List.mem_cons_of_mem d hc))

/-- A numeral is read as the number it is written for. -/
theorem read_numeral (n : Nat) :
    read (Radix.decimal.numeral n) = .ok (.ofNat (bareWidth n) n) := by
  have hshape : HasShape (Radix.decimal.numeral n).toList (.bare (Radix.decimal.digits n)) := by
    rw [Radix.toList_numeral]
    exact hasShape_digits n
  have hplain : plainDigits (Radix.decimal.digits n) = Radix.decimal.digits n := by
    rw [plainDigits, List.filter_eq_self]
    intro d hd
    rw [bne_iff_ne]
    rintro rfl
    exact absurd (Radix.isDigit_of_mem_digits n '_' hd) (by decide)
  have hvalue : Radix.decimal.valueOf (Radix.decimal.digits n) = n :=
    (Radix.isNumeral_digits .decimal n).2
  rw [hshape.read_eq, word_bare _ hshape.isNumeral_bare, hplain, hvalue]

end Literal

end Netlist
