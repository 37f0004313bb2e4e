/-
Written words read back.

The digits of a word are written without a look at what reads them: they are the digits of its number,
with zeros in front of them in binary and hexadecimal. The zeros fill the digits up to the width and take
none away, since the number of the word needs no more digits than its width gives (`Word.length_digits_hex`),
and to the reader they count for nothing. So behind the width and the letter of the base the digits are
read as the word, also with underscores among them and in either case (`Word.read_literal`). Decimal
digits alone do not tell the width. They are read as the same number, at the least width that it has
(`Word.digits_read_back`).
-/
import Mathlib.Algebra.Order.Floor.Div
import Netlist.Proofs.Numerals
import Netlist.Word.Text

set_option autoImplicit false

namespace Netlist

namespace Radix

variable {r : Radix} {length n : Nat}

theorem toList_paddedNumeral (r : Radix) (length n : Nat) :
    (r.paddedNumeral length n).toList =
      List.replicate (length - (r.digits n).length) '0' ++ r.digits n :=
  String.toList_ofList

/-- There are as many digits as asked for if the number needs no more. -/
theorem length_paddedNumeral (hpos : 0 < length) (h : n < r.base ^ length) :
    (r.paddedNumeral length n).length = length := by
  have hle : (r.digits n).length ≤ length := (Nat.length_toDigits_le_iff r.one_lt_base hpos).2 h
  rw [← String.length_toList, toList_paddedNumeral, List.length_append, List.length_replicate]
  exact Nat.sub_add_cancel hle

end Radix

namespace Literal

/-- The same digits, with underscores among them or without, and in either case. -/
def Respells (ds digits : List Char) : Prop :=
  (plainDigits ds).map Char.toLower = digits

instance (ds digits : List Char) : Decidable (Respells ds digits) :=
  inferInstanceAs (Decidable (_ = _))

variable {ds digits : List Char} {r : Radix}

theorem Respells.map_worth (h : Respells ds digits) :
    (plainDigits ds).map Radix.worth = digits.map Radix.worth := by
  have hlower : ∀ c : Char, Radix.worth c.toLower = Radix.worth c := fun c => by
    rw [Radix.worth, Radix.worth, Char.toLower_toLower_eq_toLower]
  rw [← h, List.map_map]
  exact List.map_congr_left fun c _ => (hlower c).symm

/-- Digits that are spelled in another way are a numeral of the same number. -/
theorem Respells.isNumeral (h : Respells ds digits) (hdigits : r.IsNumeral digits) :
    r.IsNumeral (plainDigits ds) := by
  refine ⟨fun hnil => hdigits.1 ?_, fun c hc => ?_⟩
  · rw [← h, hnil, List.map_nil]
  · -- the character need not be a digit of the other row, but one there is worth the same
    have hworth : Radix.worth c ∈ digits.map Radix.worth :=
      h.map_worth ▸ List.mem_map_of_mem hc
    obtain ⟨d, hd, hworth⟩ := List.mem_map.1 hworth
    exact hworth ▸ hdigits.2 d hd

theorem hasShape_sized {width : Nat} {letter : Char} (hletter : letter.toLower = r.letter)
    (hdigits : r.IsNumeral (plainDigits ds)) :
    HasShape (Radix.decimal.digits width ++ mark :: letter :: ds)
      (.sized (Radix.decimal.digits width) letter r ds) := by
  refine .sized Nat.toDigits_ne_nil (Radix.isDigit_of_mem_digits width) hletter fun c hc => ?_
  by_cases hplain : c = '_'
  · exact .inr hplain
  · exact .inl (Nat.lt_of_lt_of_le
      (hdigits.2 c (List.mem_filter.2 ⟨hc, bne_iff_ne.2 hplain⟩)) r.base_le)

end Literal

namespace Word

open Literal

variable {v : Word} {r : Radix} {letter : Char} {ds : List Char}

/-! ## Digits of words -/

/-- There may be zeros in front of the digits of the number. -/
theorem exists_toList_digits (v : Word) (r : Radix) :
    ∃ k, (v.digits r).toList = List.replicate k '0' ++ r.digits v.bits := by
  cases r with
  | binary => exact ⟨_, Radix.toList_paddedNumeral .binary v.width v.bits⟩
  | decimal => exact ⟨0, Radix.toList_numeral v.bits⟩
  | hex => exact ⟨_, Radix.toList_paddedNumeral .hex ((v.width + 3) / 4) v.bits⟩

/-- The digits of a word are a numeral of its number. -/
theorem isNumeral_digits (v : Word) (r : Radix) :
    r.IsNumeral (v.digits r).toList ∧ r.valueOf (v.digits r).toList = v.bits := by
  obtain ⟨k, hk⟩ := v.exists_toList_digits r
  obtain ⟨hnumeral, hvalue⟩ := Radix.isNumeral_digits r v.bits
  rw [hk, Radix.valueOf_zeros_append]
  exact ⟨hnumeral.zeros_append k, hvalue⟩

/-- They are spelled without underscores and in lower case. -/
theorem respells_digits (v : Word) (r : Radix) :
    Respells (v.digits r).toList (v.digits r).toList := by
  have hfigures : ∀ c ∈ (v.digits r).toList, c ∈ Radix.figures := by
    obtain ⟨k, hk⟩ := v.exists_toList_digits r
    rw [hk, List.forall_mem_append]
    refine ⟨fun c hc => ?_, Radix.mem_figures_of_mem_digits r v.bits⟩
    rw [List.eq_of_mem_replicate hc]
    decide
  have hplain : Radix.figures.all (fun c => c != '_' && c.toLower == c) = true := rfl
  have hspelling : ∀ c ∈ (v.digits r).toList, (c != '_') = true ∧ c.toLower = c := fun c hc => by
    have hfigure := List.all_eq_true.1 hplain c (hfigures c hc)
    rwa [Bool.and_eq_true, beq_iff_eq] at hfigure
  rw [Respells, plainDigits, List.filter_eq_self.2 fun c hc => (hspelling c hc).1]
  exact (List.map_congr_left fun c hc => (hspelling c hc).2).trans (List.map_id' _)

theorem length_digits_binary (hpos : 0 < v.width) : (v.digits .binary).length = v.width :=
  Radix.length_paddedNumeral hpos v.bits_lt_two_pow

/-- Four bits are a hexadecimal digit, and what is left over is one more. -/
theorem length_digits_hex (hpos : 0 < v.width) : (v.digits .hex).length = v.width ⌈/⌉ 4 := by
  -- rounded up, the digits have room for all bits
  have hbits : v.bits < 16 ^ ((v.width + 3) / 4) :=
    calc v.bits < 2 ^ v.width := v.bits_lt_two_pow
      _ ≤ 2 ^ (4 * ((v.width + 3) / 4)) := Nat.pow_le_pow_right (by decide) (by omega)
      _ = 16 ^ ((v.width + 3) / 4) := Nat.pow_mul 2 4 _
  rw [Nat.ceilDiv_eq_add_pred_div]
  exact Radix.length_paddedNumeral (by omega) hbits

/-! ## Reading them back -/

/-- The text of a sized literal at the width of the word. -/
def literal (v : Word) (letter : Char) (ds : List Char) : String :=
  Radix.decimal.numeral v.width ++ "'" ++ String.ofList (letter :: ds)

theorem toList_literal (v : Word) (letter : Char) (ds : List Char) :
    (v.literal letter ds).toList = Radix.decimal.digits v.width ++ mark :: letter :: ds := by
  have hmark : "'".toList = [mark] := rfl
  rw [literal, String.toList_append, String.toList_append, hmark, String.toList_ofList,
    Radix.toList_numeral, List.append_assoc]
  rfl

/-- Behind its width and a letter of the base, the digits of a word are read as the word, however they
are spelled. -/
theorem read_literal (hpos : 1 ≤ v.width) (hlt : v.width < 2 ^ 64) (hletter : letter.toLower = r.letter)
    (h : Respells ds (v.digits r).toList) : read (v.literal letter ds) = .ok v := by
  obtain ⟨hnumeral, hvalue⟩ := v.isNumeral_digits r
  have hdigits : r.IsNumeral (plainDigits ds) := h.isNumeral hnumeral
  have hwidth : Radix.decimal.valueOf (Radix.decimal.digits v.width) = v.width :=
    (Radix.isNumeral_digits .decimal v.width).2
  have hshape : HasShape (v.literal letter ds).toList
      (.sized (Radix.decimal.digits v.width) letter r ds) := by
    rw [toList_literal]
    exact hasShape_sized hletter hdigits
  have hbits : v.bits = r.valueOf (plainDigits ds) % 2 ^ v.width := by
    rw [Radix.valueOf_congr h.map_worth, hvalue, Nat.mod_eq_of_lt v.bits_lt_two_pow]
  have houtcome : Outcome (v.literal letter ds) (.ok v) :=
    .sized hshape (by rwa [hwidth]) (by rwa [hwidth]) hdigits hwidth.symm hbits
  -- outcomes are those of the trimmed text, which is the text itself
  rw [← hshape.trim_eq_self] at houtcome
  exact houtcome.read_eq

/-- A written word is read back. Behind the width, the mark and a letter of the base in either case, its
digits are read as the word, as they are and with underscores anywhere among them and digits in upper
case. There are as many binary digits as bits, and a hexadecimal one for each four bits that are begun.
Decimal digits alone are read as the number of the word, at the least width of at least one bit that the
number fits into. -/
theorem digits_read_back (v : Word) (hpos : 1 ≤ v.width) (hlt : v.width < 2 ^ 64) :
    (∀ (r : Radix) (letter : Char), letter.toLower = r.letter →
      read (v.literal letter (v.digits r).toList) = .ok v ∧
      ∀ ds, Respells ds (v.digits r).toList → read (v.literal letter ds) = .ok v) ∧
    (v.digits .binary).length = v.width ∧ (v.digits .hex).length = v.width ⌈/⌉ 4 ∧
    ∃ u, read (v.digits .decimal) = .ok u ∧ u.bits = v.bits ∧
      IsLeast {width | 1 ≤ width ∧ v.bits < 2 ^ width} u.width := by
  refine ⟨fun r letter hletter => ⟨read_literal hpos hlt hletter (v.respells_digits r),
    fun ds => read_literal hpos hlt hletter⟩, length_digits_binary hpos, length_digits_hex hpos,
    _, read_numeral v.bits, bits_bareWidth v.bits, ?_⟩
  exact ⟨bareWidth_le_iff.1 le_rfl, fun width hwidth => bareWidth_le_iff.2 hwidth⟩

/-- Twelve bits with zeros on top are three hexadecimal digits, of which the first is a zero. They are
read back with an underscore among them and one of them in upper case, and also in decimal, and the
number alone has eight bits. -/
theorem digits_read_back_zerosOnTop :
    (ofNat 12 188).literal 'H' "0b_C_".toList = "12'H0b_C_" ∧ read "12'H0b_C_" = .ok (ofNat 12 188) ∧
    read "12'd188" = .ok (ofNat 12 188) ∧
    ((ofNat 12 188).digits .binary).length = 12 ∧ ((ofNat 12 188).digits .hex).length = 3 ∧
    ∃ u, read "188" = .ok u ∧ u.bits = 188 ∧ u.width = 8 := by
  have hhex : ((ofNat 12 188).digits .hex).toList = "0bc".toList := by decide +kernel
  have hdecimal : (ofNat 12 188).digits .decimal = "188" := by decide +kernel
  have htext : (ofNat 12 188).literal 'H' "0b_C_".toList = "12'H0b_C_" := by decide +kernel
  have hplain : (ofNat 12 188).literal 'd' "188".toList = "12'd188" := by decide +kernel
  have hbare : bareWidth 188 = 8 := by rfl
  obtain ⟨hread, hbinary, hlength, u, hu, hbits, hleast⟩ :=
    digits_read_back (ofNat 12 188) (by decide) (by decide)
  obtain ⟨-, hspelled⟩ := hread .hex 'H' (by decide)
  obtain ⟨hback, -⟩ := hread .decimal 'd' (by decide)
  rw [hdecimal] at hu hback
  refine ⟨htext, htext ▸ hspelled _ (by rw [hhex]; decide +kernel), hplain ▸ hback, hbinary,
    hlength, u, hu, hbits, ?_⟩
  exact hleast.unique ⟨by decide, fun width hwidth => hbare ▸ bareWidth_le_iff.2 hwidth⟩

end Word

end Netlist
