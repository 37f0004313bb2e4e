/-
Lines and columns of byte offsets.

An offset gets its line by a walk over lengths that were measured before: each line that lies wholly in
front of it is subtracted, and what is left is the column. The lengths count a line break for every line,
also for the last one, which has none. That this comes to the same as reading the bytes in front of the
offset one by one, and beginning a new line behind each line break (`LineCol.advance`), is shown by an
induction on the bytes (`walkLines_eq_foldl`); characters of several bytes do not matter, since no
byte of theirs is a line break. Counting bytes then says what line and column are.

The walk alone, whatever the lengths, never loses anything: the lines that it subtracts and the column that
it leaves make up the offset (`exists_walkLines`), and more to walk ends further on (`before_walkLines`).
So offsets beyond the end of the text, which use up the last line with the break that it does not
have, still have places of their own.
-/
import Mathlib.Algebra.GroupWithZero.Nat
import Mathlib.Data.List.Count
import Netlist.Text.Lines

set_option autoImplicit false

namespace Netlist.Text

/-! ## Bytes -/

/-- The byte that ends a line. -/
def lineBreak : UInt8 := 10

/-- The bytes of a row of characters in UTF-8. -/
def bytes (cs : List Char) : List UInt8 :=
  (String.ofList cs).toUTF8.data.toList

theorem bytes_eq_flatMap (cs : List Char) : bytes cs = cs.flatMap String.utf8EncodeChar := by
  rw [bytes, String.toUTF8_eq_toByteArray, String.toByteArray_ofList, List.utf8Encode,
    List.toList_data_toByteArray]

theorem bytes_cons (c : Char) (cs : List Char) :
    bytes (c :: cs) = String.utf8EncodeChar c ++ bytes cs := by
  rw [bytes_eq_flatMap, bytes_eq_flatMap, List.flatMap_cons]

theorem length_bytes (cs : List Char) : (bytes cs).length = byteLength cs := by
  induction cs with
  | nil => rfl
  | cons c cs ih =>
    rw [bytes_cons, List.length_append, String.length_utf8EncodeChar, byteLength_cons, ih]

theorem lineBreak_ne_ofNat {n : Nat} (hlow : 128 ≤ n) (hhigh : n < 256) :
    lineBreak ≠ UInt8.ofNat n := by
  intro heq
  have hnat : 10 = n % 256 := by simpa [lineBreak] using congrArg UInt8.toNat heq
  omega

/-- No byte of any other character is a line break: a longer encoding has high bytes only. -/
theorem lineBreak_notMem_utf8EncodeChar {c : Char} (hc : c ≠ '\n') :
    lineBreak ∉ String.utf8EncodeChar c := by
  unfold String.utf8EncodeChar
  dsimp only
  split
  · next hascii =>
    intro hmem
    have hnat : 10 = c.val.toNat % 256 := by
      simpa [lineBreak] using congrArg UInt8.toNat (List.mem_singleton.1 hmem)
    refine hc (Char.ext (UInt32.toNat.inj ?_))
    show c.val.toNat = 10
    omega
  · split
    · simp only [List.mem_cons, List.not_mem_nil, or_false, not_or]
      refine ⟨lineBreak_ne_ofNat ?_ ?_, lineBreak_ne_ofNat ?_ ?_⟩ <;> omega
    · split
      · simp only [List.mem_cons, List.not_mem_nil, or_false, not_or]
        refine ⟨lineBreak_ne_ofNat ?_ ?_, lineBreak_ne_ofNat ?_ ?_, lineBreak_ne_ofNat ?_ ?_⟩ <;>
          omega
      · simp only [List.mem_cons, List.not_mem_nil, or_false, not_or]
        refine ⟨lineBreak_ne_ofNat ?_ ?_, lineBreak_ne_ofNat ?_ ?_, lineBreak_ne_ofNat ?_ ?_,
          lineBreak_ne_ofNat ?_ ?_⟩ <;> omega

/-! ## Lengths of lines -/

variable {as bs : List UInt8} {read line p : Nat}

/-- The lengths of the lines of a row of bytes of which `read` bytes of the first line are behind us. -/
def byteLineLengths (read : Nat) : List UInt8 → List Nat
  | [] => [read + 1]
  | b :: bs =>
    if b = lineBreak then (read + 1) :: byteLineLengths 0 bs else byteLineLengths (read + 1) bs

theorem byteLineLengths_break (read : Nat) (bs : List UInt8) :
    byteLineLengths read (lineBreak :: bs) = (read + 1) :: byteLineLengths 0 bs := by
  rw [byteLineLengths, if_pos rfl]

theorem byteLineLengths_append (h : lineBreak ∉ as) (read : Nat) (bs : List UInt8) :
    byteLineLengths read (as ++ bs) = byteLineLengths (read + as.length) bs := by
  induction as generalizing read with
  | nil => rfl
  | cons a as ih =>
    rw [List.mem_cons, not_or] at h
    rw [List.cons_append, byteLineLengths, if_neg (Ne.symm h.1), ih h.2, List.length_cons]
    congr 1
    omega

/-- Lines may as well be measured byte by byte. -/
theorem lineLengthsFrom_eq (read : Nat) (cs : List Char) :
    lineLengthsFrom read cs = byteLineLengths read (bytes cs) := by
  induction cs generalizing read with
  | nil => rfl
  | cons c cs ih =>
    rw [lineLengthsFrom, bytes_cons]
    by_cases hc : c = '\n'
    · subst hc
      have hbreak : String.utf8EncodeChar '\n' = [lineBreak] := by decide
      rw [if_pos rfl, hbreak, List.singleton_append, byteLineLengths_break, ih]
    · rw [if_neg hc, byteLineLengths_append (lineBreak_notMem_utf8EncodeChar hc),
        String.length_utf8EncodeChar, ih]

/-- There is a line for each line break and one more. -/
theorem length_byteLineLengths (read : Nat) (bs : List UInt8) :
    (byteLineLengths read bs).length = bs.count lineBreak + 1 := by
  induction bs generalizing read with
  | nil => rfl
  | cons b bs ih =>
    rw [byteLineLengths]
    by_cases hb : b = lineBreak
    · rw [if_pos hb, List.length_cons, ih, hb, List.count_cons_self]
    · rw [if_neg hb, ih, List.count_cons_of_ne hb]

/-- Together the lines have all bytes, and the line break that the last of them does not have. -/
theorem sum_byteLineLengths (read : Nat) (bs : List UInt8) :
    (byteLineLengths read bs).sum = read + bs.length + 1 := by
  induction bs generalizing read with
  | nil => rfl
  | cons b bs ih =>
    rw [byteLineLengths, List.length_cons]
    split
    · rw [List.sum_cons, ih]
      omega
    · rw [ih]
      omega

/-- The first line is longer than what is behind us. -/
theorem exists_byteLineLengths_eq_cons (read : Nat) (bs : List UInt8) :
    ∃ length rest, byteLineLengths read bs = length :: rest ∧ read < length := by
  induction bs generalizing read with
  | nil => exact ⟨_, _, rfl, read.lt_succ_self⟩
  | cons b bs ih =>
    rw [byteLineLengths]
    split
    · exact ⟨_, _, rfl, read.lt_succ_self⟩
    · obtain ⟨length, rest, heq, hlt⟩ := ih (read + 1)
      exact ⟨length, rest, heq, by omega⟩

/-! ## Reading one byte after the other -/

/-- Where one stands after one more byte. -/
def LineCol.advance (place : LineCol) (b : UInt8) : LineCol :=
  if b = lineBreak then ⟨place.line + 1, 0⟩ else ⟨place.line, place.column + 1⟩

/-- Walking down the lines leads to where one stands after as many bytes. -/
theorem walkLines_eq_foldl (h : p ≤ bs.length) :
    walkLines (byteLineLengths read bs) line (read + p) =
      (bs.take p).foldl LineCol.advance ⟨line, read⟩ := by
  induction bs generalizing read line p with
  | nil =>
    obtain rfl : p = 0 := Nat.le_zero.1 h
    rw [byteLineLengths, walkLines, if_neg (by omega)]
    rfl
  | cons b bs ih =>
    cases p with
    | zero =>
      obtain ⟨length, rest, heq, hlt⟩ := exists_byteLineLengths_eq_cons read (b :: bs)
      rw [heq, walkLines, if_neg (by omega)]
      rfl
    | succ p =>
      rw [List.length_cons, Nat.add_le_add_iff_right] at h
      rw [byteLineLengths, List.take_succ_cons, List.foldl_cons, LineCol.advance]
      by_cases hb : b = lineBreak
      -- behind a line break the walk has used up the line, and begins anew with the next one
      · have hsub : read + (p + 1) - (read + 1) = 0 + p := by omega
        rw [if_pos hb, if_pos hb, walkLines, if_pos (by omega), hsub, ih h]
      · have hadd : read + (p + 1) = read + 1 + p := by omega
        rw [if_neg hb, if_neg hb, hadd, ih h]

/-- The line of byte `p` begins at `start`, behind a line break or with the text, and goes on to there. -/
structure BeginsLineOf (bs : List UInt8) (p start : Nat) : Prop where
  le : start ≤ p
  behind_break : start = 0 ∨ bs[start - 1]? = some lineBreak
  unbroken : ∀ q, start ≤ q → q < p → bs[q]? ≠ some lineBreak

/-- Reading bytes counts the line breaks among them, and the bytes behind the last of these. -/
theorem exists_foldl_advance (h : p ≤ bs.length) :
    ∃ start, BeginsLineOf bs p start ∧ (bs.take p).foldl LineCol.advance ⟨0, 0⟩ =
      ⟨(bs.take p).count lineBreak, p - start⟩ := by
  induction p with
  | zero => exact ⟨0, ⟨Nat.le_refl _, .inl rfl, fun q _ hq => absurd hq q.not_lt_zero⟩, rfl⟩
  | succ p ih =>
    have hp : p < bs.length := h
    have hbyte : bs[p]? = some bs[p] := List.getElem?_eq_getElem hp
    obtain ⟨start, hstart, heq⟩ := ih (Nat.le_of_lt hp)
    rw [List.take_succ_eq_append_getElem hp, List.foldl_append, heq, List.count_append,
      List.foldl_cons, List.foldl_nil, LineCol.advance]
    by_cases hb : bs[p] = lineBreak
    · refine ⟨p + 1, ⟨Nat.le_refl _, .inr ?_, fun q hle hlt => by omega⟩, ?_⟩
      · rw [Nat.add_sub_cancel, hbyte, hb]
      · rw [if_pos hb, hb, List.count_singleton_self, Nat.sub_self]
    · have hle := hstart.le
      refine ⟨start, ⟨by omega, hstart.behind_break, fun q hge hlt => ?_⟩, ?_⟩
      · rcases Nat.lt_succ_iff_lt_or_eq.1 hlt with hlt | rfl
        · exact hstart.unbroken q hge hlt
        · rw [hbyte]
          exact fun heq => hb (Option.some.inj heq)
      · have hsub : p - start + 1 = p + 1 - start := by omega
        have hcount : [bs[p]].count lineBreak = 0 := by rw [List.count_cons_of_ne hb, List.count_nil]
        rw [if_neg hb, hsub, hcount]
        rfl

/-! ## Walking on -/

/-- The lines that were walked down and what is left of the way make up the way. -/
theorem exists_walkLines (lengths : List Nat) (line column : Nat) :
    ∃ n, (walkLines lengths line column).line = line + n ∧
      (lengths.take n).sum + (walkLines lengths line column).column = column := by
  induction lengths generalizing line column with
  | nil => exact ⟨0, rfl, Nat.zero_add _⟩
  | cons length rest ih =>
    rw [walkLines]
    by_cases h : length ≤ column
    · obtain ⟨n, hline, hsum⟩ := ih (line + 1) (column - length)
      refine ⟨n + 1, ?_, ?_⟩
      · rw [if_pos h, hline]
        omega
      · rw [if_pos h, List.take_succ_cons, List.sum_cons]
        omega
    · exact ⟨0, by rw [if_neg h]; rfl, by rw [if_neg h]; exact Nat.zero_add _⟩

/-- One place is above another, or to its left in the same line. -/
def LineCol.Before (a b : LineCol) : Prop :=
  a.line < b.line ∨ a.line = b.line ∧ a.column < b.column

/-- A longer way leads further. -/
theorem before_walkLines (lengths : List Nat) (line : Nat) {p q : Nat} (h : p < q) :
    (walkLines lengths line p).Before (walkLines lengths line q) := by
  induction lengths generalizing line p q with
  | nil => exact .inr ⟨rfl, h⟩
  | cons length rest ih =>
    rw [walkLines, walkLines]
    by_cases hp : length ≤ p
    · rw [if_pos hp, if_pos (by omega)]
      exact ih (line + 1) (by omega)
    · rw [if_neg hp]
      by_cases hq : length ≤ q
      · obtain ⟨n, hline, -⟩ := exists_walkLines rest (line + 1) (q - length)
        rw [if_pos hq]
        refine .inl ?_
        show line < _
        omega
      · rw [if_neg hq]
        exact .inr ⟨rfl, h⟩

/-- A way beyond all lines leads below them. -/
theorem walkLines_of_sum_le (lengths : List Nat) (line : Nat) {column : Nat}
    (h : lengths.sum ≤ column) :
    walkLines lengths line column = ⟨line + lengths.length, column - lengths.sum⟩ := by
  induction lengths generalizing line column with
  | nil => rfl
  | cons length rest ih =>
    rw [List.sum_cons] at h
    rw [walkLines, if_pos (by omega), ih (line + 1) (by omega), List.sum_cons, List.length_cons]
    congr 1 <;> omega

/-! ## Places in a text -/

/-- The offset of a place in a text. -/
def offsetOf (cs : List Char) (place : LineCol) : Nat :=
  ((lineLengths cs).take place.line).sum + place.column

/-- The line of an offset counts the line breaks in front of it, and the column the bytes from where its line
begins; people see both one higher. Offsets further on have places further on, so no two have the same
place. Beyond the end the line is one more than there are lines, and the column goes on. From a place in a
text one always gets the offset back. -/
theorem lineCol_exact (cs : List Char) :
    (∀ p ≤ byteLength cs, ∃ start, BeginsLineOf (bytes cs) p start ∧
      lineCol cs p = ⟨((bytes cs).take p).count lineBreak, p - start⟩ ∧
      toString (lineCol cs p) = s!"{((bytes cs).take p).count lineBreak + 1}:{p - start + 1}") ∧
    (∀ p q, p < q → (lineCol cs p).Before (lineCol cs q)) ∧
    Function.Injective (lineCol cs) ∧
    (∀ p, byteLength cs < p →
      lineCol cs p = ⟨(bytes cs).count lineBreak + 1, p - (byteLength cs + 1)⟩) ∧
    ∀ p, offsetOf cs (lineCol cs p) = p := by
  have hlengths : lineLengths cs = byteLineLengths 0 (bytes cs) := lineLengthsFrom_eq 0 cs
  have hoffset : ∀ p, offsetOf cs (lineCol cs p) = p := by
    intro p
    obtain ⟨n, hline, hsum⟩ := exists_walkLines (lineLengths cs) 0 p
    rw [Nat.zero_add] at hline
    rw [offsetOf, lineCol, hline, hsum]
  refine ⟨fun p hp => ?_, fun p q => before_walkLines _ 0, Function.LeftInverse.injective hoffset,
    fun p hp => ?_, hoffset⟩
  · rw [← length_bytes] at hp
    have hwalk : walkLines (byteLineLengths 0 (bytes cs)) 0 p =
        ((bytes cs).take p).foldl LineCol.advance ⟨0, 0⟩ := by
      rw [← walkLines_eq_foldl hp, Nat.zero_add]
    obtain ⟨start, hstart, hread⟩ := exists_foldl_advance hp
    have hplace : lineCol cs p = ⟨((bytes cs).take p).count lineBreak, p - start⟩ := by
      rw [lineCol, hlengths, hwalk, hread]
    refine ⟨start, hstart, hplace, ?_⟩
    rw [hplace]
    rfl
  · have hsum := sum_byteLineLengths 0 (bytes cs)
    rw [length_bytes, Nat.zero_add] at hsum
    rw [lineCol, hlengths, walkLines_of_sum_le _ 0 (by omega), length_byteLineLengths, hsum,
      Nat.zero_add]

-- a line break stands in the line that it ends, and the last place is below the three lines
example : (List.range 6).map (lineCol "a\n\nb".toList) =
    [⟨0, 0⟩, ⟨0, 1⟩, ⟨1, 0⟩, ⟨2, 0⟩, ⟨2, 1⟩, ⟨3, 0⟩] := by decide

end Netlist.Text
