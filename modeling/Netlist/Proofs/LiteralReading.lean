/-
What literals are read as.

A literal is read in steps: the blanks around it go, its shape is found from the left, its width is
looked at, and then its digits are. What comes out is said here without the steps. A text has one of two
shapes or none (`Literal.HasShape`), and the reader finds the shape that it has
(`Literal.ofChars?_eq_some_iff`). From the shape and from what its rows of digits stand for follows what
the text is read as (`Literal.Outcome`): a word, or one of three errors. There is always one such outcome
and never a second, and it is the one that the reader reports (`Literal.read_eq_iff`).
-/
import Netlist.Proofs.Digits
import Netlist.Proofs.Stretches
import Netlist.Proofs.Trimming

set_option autoImplicit false

namespace Netlist

/-! ## Widths and letters -/

theorem modulus_eq_two_pow (width : Nat) : modulus width = 2 ^ width := by
  rw [modulus, Nat.one_shiftLeft]

theorem Word.bits_lt_two_pow (w : Word) : w.bits < 2 ^ w.width :=
  modulus_eq_two_pow w.width ▸ w.bits_lt

/-- The letter that names the radix, in lower case. -/
def Radix.letter : Radix → Char
  | binary => 'b'
  | decimal => 'd'
  | hex => 'h'

namespace Literal

variable {cs digits rest size : List Char} {letter : Char} {radix : Radix} {l : Literal}
  {s text : String} {w : Word} {n : Nat} {result : Except LiteralError Word}

/-! ## Characters of literals -/

theorem isDecimalDigit_iff {c : Char} : isDecimalDigit c ↔ c.isDigit ∨ c = '_' := by
  rw [isDecimalDigit, Bool.or_eq_true, beq_iff_eq]

theorem isBasedDigit_iff {c : Char} : isBasedDigit c ↔ Radix.worth c < 16 ∨ c = '_' := by
  rw [isBasedDigit, Bool.or_eq_true, beq_iff_eq, Radix.digitValue?_eq]
  split <;> simp [*]

theorem radixOfLetter?_eq_some_iff :
    radixOfLetter? letter = some radix ↔ letter.toLower = radix.letter := by
  refine Radix.forall_char (P := fun c => radixOfLetter? c = some radix ↔ c.toLower = radix.letter)
    (by cases radix <;> decide +kernel) (fun c hc => ?_) letter
  have hne : ∀ d : Char, d.toNat < 128 → c ≠ d := by
    rintro d hd rfl
    omega
  rw [Radix.toLower_of_beyond hc]
  refine iff_of_false (fun h => ?_) (hne _ (by cases radix <;> decide))
  -- the letters that are looked for are all in the table
  unfold radixOfLetter? at h
  split at h
  · exact hne 'b' (by decide) rfl
  · exact hne 'B' (by decide) rfl
  · exact hne 'd' (by decide) rfl
  · exact hne 'D' (by decide) rfl
  · exact hne 'h' (by decide) rfl
  · exact hne 'H' (by decide) rfl
  · cases h

/-! ## Shapes -/

/-- The characters are a literal by their looks. -/
inductive HasShape : List Char → Literal → Prop
  /-- A digit, followed by digits and underscores. -/
  | bare {digit : Char} {rest : List Char} :
      digit.isDigit → (∀ c ∈ rest, c.isDigit ∨ c = '_') →
      HasShape (digit :: rest) (.bare (digit :: rest))
  /-- Digits, the mark, a letter that names a base, and digits of any base and underscores. -/
  | sized {size : List Char} {letter : Char} {radix : Radix} {digits : List Char} :
      size ≠ [] → (∀ c ∈ size, c.isDigit) → letter.toLower = radix.letter →
      (∀ c ∈ digits, Radix.worth c < 16 ∨ c = '_') →
      HasShape (size ++ mark :: letter :: digits) (.sized size letter radix digits)

/-- What may stand behind the leading digits of a literal, and which literal it is then. -/
inductive Tail (size : List Char) : List Char → Literal → Prop
  /-- The literal is bare: there is nothing, or an underscore with more digits. -/
  | bare {rest : List Char} : (∀ c ∈ rest.head?, c = '_') → (∀ c ∈ rest, isDecimalDigit c) →
      Tail size rest (.bare (size ++ rest))
  /-- The literal is sized: there is a base, and digits of any base. -/
  | sized {letter : Char} {radix : Radix} {digits : List Char} :
      radixOfLetter? letter = some radix → (∀ c ∈ digits, isBasedDigit c) →
      Tail size (mark :: letter :: digits) (.sized size letter radix digits)

/-- A text has the shape of a literal if it is a row of digits with one of the tails. -/
theorem exists_tail_of_ofChars? (h : ofChars? cs = some l) :
    ∃ size rest, cs = size ++ rest ∧ size ≠ [] ∧ (∀ d ∈ size, d.isDigit) ∧ Tail size rest l := by
  have hcs := List.takeWhile_append_dropWhile (p := Char.isDigit) (l := cs)
  have hdigits : ∀ d ∈ cs.takeWhile Char.isDigit, d.isDigit :=
    fun d hd => List.mem_takeWhile_imp hd
  have hhead : ∀ c ∈ (cs.dropWhile Char.isDigit).head?, c.isDigit = false := by
    intro c hc
    have hstop := List.head?_dropWhile_not Char.isDigit cs
    rw [hc] at hstop
    simpa using hstop
  unfold ofChars? at h
  generalize cs.takeWhile Char.isDigit = size at h hcs hdigits
  generalize cs.dropWhile Char.isDigit = rest at h hcs hhead
  cases size with
  | nil => cases h
  | cons d ds =>
    refine ⟨d :: ds, rest, hcs.symm, List.cons_ne_nil _ _, hdigits, ?_⟩
    dsimp only at h
    by_cases hall : rest.all isDecimalDigit = true
    · rw [if_pos hall] at h
      cases h
      rw [List.all_eq_true] at hall
      rw [← hcs]
      refine .bare (fun c hc => ?_) hall
      -- the digits end here, and of the characters that may go on only the underscore is left
      have hdecimal := hall c (List.mem_of_head? hc)
      rw [isDecimalDigit, hhead c hc, Bool.false_or, beq_iff_eq] at hdecimal
      exact hdecimal
    · rw [if_neg hall] at h
      split at h
      · next tick letter digits =>
        split at h
        · next radix hradix =>
          split at h
          · next hbase =>
            cases h
            rw [Bool.and_eq_true, beq_iff_eq, List.all_eq_true] at hbase
            obtain ⟨rfl, hbased⟩ := hbase
            exact .sized hradix hbased
          · cases h
        · cases h
      · cases h

theorem Tail.hasShape (h : Tail size rest l) (hne : size ≠ []) (hsize : ∀ d ∈ size, d.isDigit) :
    HasShape (size ++ rest) l := by
  cases h with
  | bare _ hrest =>
    obtain ⟨d, ds, rfl⟩ := List.exists_cons_of_ne_nil hne
    refine .bare (hsize d List.mem_cons_self) fun c hc => ?_
    exact (List.mem_append.1 hc).elim (fun hds => .inl (hsize c (List.mem_cons_of_mem _ hds)))
      fun hc => isDecimalDigit_iff.1 (hrest c hc)
  | sized hletter hdigits =>
    exact .sized hne hsize (radixOfLetter?_eq_some_iff.1 hletter)
      fun c hc => isBasedDigit_iff.1 (hdigits c hc)

theorem HasShape.ofChars?_eq (h : HasShape cs l) : ofChars? cs = some l := by
  cases h with
  | @bare digit rest hdigit hrest =>
    have hall : (rest.dropWhile Char.isDigit).all isDecimalDigit = true :=
      List.all_eq_true.2 fun c hc =>
        isDecimalDigit_iff.2 (hrest c ((List.dropWhile_sublist _).subset hc))
    rw [ofChars?, List.takeWhile_cons_of_pos hdigit, List.dropWhile_cons_of_pos hdigit]
    exact if_pos hall
  | @sized size letter radix digits hne hsize hletter hdigits =>
    obtain ⟨htake, hdrop⟩ :=
      Token.takeWhile_append_stop hsize (letter :: digits) Token.not_isDigit_mark
    obtain ⟨d, ds, rfl⟩ := List.exists_cons_of_ne_nil hne
    have hall : ¬(mark :: letter :: digits).all isDecimalDigit = true := fun hall =>
      absurd (List.all_eq_true.1 hall mark List.mem_cons_self) (by decide)
    have hbased : (mark == mark && digits.all isBasedDigit) = true := by
      rw [BEq.rfl, Bool.true_and, List.all_eq_true]
      exact fun c hc => isBasedDigit_iff.2 (hdigits c hc)
    rw [ofChars?, htake, hdrop]
    dsimp only
    rw [if_neg hall, radixOfLetter?_eq_some_iff.2 hletter]
    exact if_pos hbased

/-- The reader finds the shape that the characters have. -/
theorem ofChars?_eq_some_iff : ofChars? cs = some l ↔ HasShape cs l := by
  refine ⟨fun h => ?_, HasShape.ofChars?_eq⟩
  obtain ⟨size, rest, rfl, hne, hsize, htail⟩ := exists_tail_of_ofChars? h
  exact htail.hasShape hne hsize

theorem HasShape.isWordPart (h : HasShape cs l) :
    ∀ c ∈ cs, Token.isWordPart c := by
  have hdigit : ∀ c : Char, c.isDigit → Token.isWordPart c := fun _ => Token.isWordPart_of_isDigit
  cases h with
  | bare hfirst hrest =>
    refine List.forall_mem_cons.2 ⟨hdigit _ hfirst, fun c hc => ?_⟩
    rcases hrest c hc with hc | rfl
    · exact hdigit c hc
    · decide
  | sized _ hsize hletter hdigits =>
    refine List.forall_mem_append.2 ⟨fun c hc => hdigit c (hsize c hc),
      List.forall_mem_cons.2 ⟨by decide, List.forall_mem_cons.2 ⟨?_, fun c hc => ?_⟩⟩⟩
    · exact Token.isWordPart_of_radixOfLetter?
        (Option.isSome_of_mem (radixOfLetter?_eq_some_iff.2 hletter))
    · exact Token.isWordPart_of_isBasedDigit (isBasedDigit_iff.2 (hdigits c hc))

/-- No blanks stand around a literal. -/
theorem HasShape.trim_eq_self (h : HasShape s.toList l) :
    Text.trim s = s :=
  Text.trim_eq_self fun c hc => Token.not_isBlank_of_isWordPart (h.isWordPart c hc)

/-- A literal on its own is read as what its shape stands for. -/
theorem HasShape.read_eq (h : HasShape s.toList l) : read s = l.word s := by
  rw [read, h.trim_eq_self, h.ofChars?_eq]

/-! ## Digits and widths -/

/-- Without its underscores, a bare literal is a decimal numeral. -/
theorem HasShape.isNumeral_bare (h : HasShape cs (.bare digits)) :
    Radix.decimal.IsNumeral (plainDigits digits) := by
  cases h with
  | @bare digit rest hdigit hrest =>
    have hmem : digit ∈ plainDigits (digit :: rest) := by
      refine List.mem_filter.2 ⟨List.mem_cons_self, bne_iff_ne.2 ?_⟩
      rintro rfl
      exact absurd hdigit (by decide)
    refine ⟨List.ne_nil_of_mem hmem, fun c hc => (Radix.isDigit_iff_worth c).1 ?_⟩
    obtain ⟨hc, hplain⟩ := List.mem_filter.1 hc
    rcases List.mem_cons.1 hc with rfl | hc
    · exact hdigit
    · exact (hrest c hc).resolve_right (bne_iff_ne.1 hplain)

theorem HasShape.isNumeral_size (h : HasShape cs (.sized size letter radix digits)) :
    Radix.decimal.IsNumeral size := by
  cases h with
  | sized hne hsize _ _ => exact ⟨hne, fun c hc => (Radix.isDigit_iff_worth c).1 (hsize c hc)⟩

theorem HasShape.toLower_letter (h : HasShape cs (.sized size letter radix digits)) :
    letter.toLower = radix.letter := by
  cases h with
  | sized _ _ hletter _ => exact hletter

/-- A bare literal fits into a width of at least one bit if its number does. -/
theorem bareWidth_le_iff {width : Nat} : bareWidth n ≤ width ↔ 1 ≤ width ∧ n < 2 ^ width := by
  rw [bareWidth, Nat.succ_le_iff, Nat.succ_le_iff]
  -- zero has no top bit, and the width of one bit is there for it
  rcases Nat.eq_zero_or_pos n with rfl | hn
  · simp
  · rw [Nat.log2_lt hn.ne']
    refine ⟨fun h => ⟨Nat.pos_of_ne_zero fun hzero => ?_, h⟩, And.right⟩
    rw [hzero, Nat.pow_zero] at h
    omega

theorem bareWidth_eq_max (n : Nat) : bareWidth n = max 1 n.size := by
  refine eq_of_forall_ge_iff fun width => ?_
  rw [bareWidth_le_iff, max_le_iff, Nat.size_le]

/-- No bit of a number is lost at the width of its bare literal. -/
theorem bits_bareWidth (n : Nat) : (Word.ofNat (bareWidth n) n).bits = n :=
  if_pos (Nat.lt_succ_self n.log2)

/-! ## Words of shapes -/

theorem word_bare (text : String) (h : Radix.decimal.IsNumeral (plainDigits digits)) :
    word text (.bare digits) =
      .ok (.ofNat (bareWidth (Radix.decimal.valueOf (plainDigits digits)))
        (Radix.decimal.valueOf (plainDigits digits))) := by
  rw [word, Radix.number?_of_isNumeral h]

section Sized

variable (hsize : Radix.decimal.IsNumeral size)
include hsize

theorem word_sized_of_limit_le (h : Count.limit ≤ Radix.decimal.valueOf size) :
    word text (.sized size letter radix digits) = .error (.invalid text) := by
  rw [word, Radix.number?_of_isNumeral hsize, Option.filter_some,
    if_neg (by rw [decide_eq_true_eq]; omega)]

theorem word_sized_zero (h : Radix.decimal.valueOf size = 0) :
    word text (.sized size letter radix digits) = .error (.zeroWidth text) := by
  rw [word, Radix.number?_of_isNumeral hsize, h]
  rfl

/-- Behind a width that is a count and is not zero it is the digits that decide. -/
theorem word_sized (hpos : 0 < Radix.decimal.valueOf size)
    (hlt : Radix.decimal.valueOf size < Count.limit) :
    word text (.sized size letter radix digits) =
      match radix.number? (plainDigits digits) with
      | some n => .ok (.ofNat (Radix.decimal.valueOf size) n)
      | none => .error (.badDigits text letter.toLower) := by
  rw [word, Radix.number?_of_isNumeral hsize, Option.filter_some, if_pos (decide_eq_true hlt)]
  obtain ⟨width, hwidth⟩ := Nat.exists_eq_succ_of_ne_zero hpos.ne'
  -- the width is a successor now, so the case of a zero width is passed by
  rw [hwidth]
  rfl

end Sized

/-! ## Outcomes -/

/-- What a text without blanks around it is read as. Underscores among the digits count for nothing. -/
inductive Outcome (s : String) : Except LiteralError Word → Prop
  /-- A bare literal is its number, at the number of bits of it and at least one. -/
  | bare {digits : List Char} {w : Word} : HasShape s.toList (.bare digits) →
      w.bits = Radix.decimal.valueOf (plainDigits digits) → w.width = max 1 w.bits.size →
      Outcome s (.ok w)
  /-- A sized literal is the remainder of its number at the width that it names. -/
  | sized {size digits : List Char} {letter : Char} {radix : Radix} {w : Word} :
      HasShape s.toList (.sized size letter radix digits) →
      1 ≤ Radix.decimal.valueOf size → Radix.decimal.valueOf size < 2 ^ 64 →
      radix.IsNumeral (plainDigits digits) → w.width = Radix.decimal.valueOf size →
      w.bits = radix.valueOf (plainDigits digits) % 2 ^ w.width → Outcome s (.ok w)
  /-- The width may not be zero, whatever the digits are. -/
  | zeroWidth {size digits : List Char} {letter : Char} {radix : Radix} :
      HasShape s.toList (.sized size letter radix digits) →
      Radix.decimal.valueOf size = 0 → Outcome s (.error (.zeroWidth s))
  /-- There must be digits, and they must be those of the base. -/
  | badDigits {size digits : List Char} {letter : Char} {radix : Radix} :
      HasShape s.toList (.sized size letter radix digits) →
      1 ≤ Radix.decimal.valueOf size → Radix.decimal.valueOf size < 2 ^ 64 →
      ¬radix.IsNumeral (plainDigits digits) → Outcome s (.error (.badDigits s radix.letter))
  /-- Anything else is no literal, also a sized one whose width is no count. -/
  | invalid : (∀ digits, ¬HasShape s.toList (.bare digits)) →
      (∀ size letter radix digits, HasShape s.toList (.sized size letter radix digits) →
        2 ^ 64 ≤ Radix.decimal.valueOf size) →
      Outcome s (.error (.invalid s))

/-- What the shape of a text stands for is an outcome of the text. -/
theorem HasShape.outcome (h : HasShape s.toList l) : Outcome s (l.word s) := by
  cases l with
  | bare digits =>
    rw [word_bare s h.isNumeral_bare]
    refine .bare h (bits_bareWidth _) ?_
    rw [bits_bareWidth, Word.width_ofNat, bareWidth_eq_max]
  | sized size letter radix digits =>
    rcases Nat.lt_or_ge (Radix.decimal.valueOf size) Count.limit with hlt | hge
    · rcases Nat.eq_zero_or_pos (Radix.decimal.valueOf size) with hzero | hpos
      · rw [word_sized_zero h.isNumeral_size hzero]
        exact .zeroWidth h hzero
      · rw [word_sized h.isNumeral_size hpos hlt]
        by_cases hdigits : radix.IsNumeral (plainDigits digits)
        · rw [Radix.number?_of_isNumeral hdigits]
          refine .sized h hpos hlt hdigits rfl ?_
          rw [Word.bits_ofNat, Word.width_ofNat, modulus_eq_two_pow]
        · rw [Radix.number?_eq_none_iff.2 hdigits, h.toLower_letter]
          exact .badDigits h hpos hlt hdigits
    · rw [word_sized_of_limit_le h.isNumeral_size hge]
      -- a text has only one shape
      have hsame : ∀ {l}, HasShape s.toList l → some l = some (.sized size letter radix digits) :=
        fun h' => h'.ofChars?_eq.symm.trans h.ofChars?_eq
      refine .invalid (fun _ h' => ?_) fun _ _ _ _ h' => ?_
      · cases hsame h'
      · cases hsame h'
        exact hge

theorem read_of_hasShape (h : HasShape (Text.trim text).toList l) :
    read text = l.word (Text.trim text) := by
  rw [read, h.ofChars?_eq]

theorem read_of_not_hasShape (h : ∀ l, ¬HasShape (Text.trim text).toList l) :
    read text = .error (.invalid (Text.trim text)) := by
  have hnone : ofChars? (Text.trim text).toList = none :=
    Option.eq_none_iff_forall_ne_some.2 fun l hl => h l (ofChars?_eq_some_iff.1 hl)
  rw [read, hnone]

/-- Every text has an outcome, and it is read so. -/
theorem outcome_read (text : String) : Outcome (Text.trim text) (read text) := by
  by_cases h : ∃ l, HasShape (Text.trim text).toList l
  · obtain ⟨l, hl⟩ := h
    rw [read_of_hasShape hl]
    exact hl.outcome
  · rw [not_exists] at h
    rw [read_of_not_hasShape h]
    exact .invalid (fun _ => h _) fun _ _ _ _ h' => absurd h' (h _)

/-- A text has no other outcome. -/
theorem Outcome.read_eq (h : Outcome (Text.trim text) result) : read text = result := by
  cases h with
  | bare h hbits hwidth =>
    rw [read_of_hasShape h, word_bare _ h.isNumeral_bare, ← hbits]
    refine congrArg Except.ok (Word.ext ?_ (bits_bareWidth _))
    rw [hwidth, Word.width_ofNat, bareWidth_eq_max]
  | sized h hpos hlt hdigits hwidth hbits =>
    rw [read_of_hasShape h, word_sized h.isNumeral_size hpos hlt, Radix.number?_of_isNumeral hdigits]
    refine congrArg Except.ok (Word.ext hwidth.symm ?_)
    rw [hbits, hwidth, Word.bits_ofNat, modulus_eq_two_pow]
  | zeroWidth h hzero => rw [read_of_hasShape h, word_sized_zero h.isNumeral_size hzero]
  | badDigits h hpos hlt hdigits =>
    rw [read_of_hasShape h, word_sized h.isNumeral_size hpos hlt,
      Radix.number?_eq_none_iff.2 hdigits, h.toLower_letter]
  | invalid hbare hsized =>
    by_cases h : ∃ l, HasShape (Text.trim text).toList l
    · obtain ⟨l, hl⟩ := h
      cases l with
      | bare digits => exact absurd hl (hbare digits)
      | sized size letter radix digits =>
        rw [read_of_hasShape hl, word_sized_of_limit_le hl.isNumeral_size (hsized _ _ _ _ hl)]
    · rw [not_exists] at h
      exact read_of_not_hasShape h

/-- A text is read as the outcome of its middle, where its middle is what the blanks around it leave. -/
theorem read_eq_iff :
    read text = result ↔ ∃ s : String, Text.Trims text.toList s.toList ∧ Outcome s result := by
  constructor
  · rintro rfl
    exact ⟨Text.trim text, Text.trim_eq_iff.1 rfl, outcome_read text⟩
  · rintro ⟨s, htrim, h⟩
    obtain rfl := Text.trim_eq_iff.2 htrim
    exact h.read_eq

-- zeros in front of a width count for nothing, and neither do blanks around a literal
example : read "\u2003008'hF_f " = .ok (.ofNat 8 255) := by rfl

-- with a width that is no count, the digits are not looked at
example : read "18446744073709551616'b2" = .error (.invalid "18446744073709551616'b2") := by rfl

end Literal

end Netlist
