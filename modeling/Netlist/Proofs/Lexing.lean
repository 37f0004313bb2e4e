/-
Reading text as tokens by longest match.

The terminals are described here by the texts that spell them, without saying how such a text is
found. At each place of a text that is no blank the longest lexeme counts, whichever terminal it
spells; among terminals that one lexeme spells, a terminal of a fixed text counts before an
identifier or a number (`Terminal.Leads`). At most one lexeme leads at a place, and it is the one
that the scanner takes (`lexeme?_eq_some_iff`). A scan therefore returns the one row of tokens that
the text is made of, and fails only if there is none (`scan_eq_ok_iff`).
-/
import Mathlib
import Netlist.Proofs.Tokens

set_option autoImplicit false

namespace Netlist

/-! ## How terminals are spelled -/

/-- How the keyword is written. -/
def Keyword.text : Keyword → String
  | module => "module"
  | endmodule => "endmodule"
  | input => "input"
  | output => "output"
  | inout => "inout"
  | wire => "wire"
  | logic => "logic"
  | reg => "reg"
  | assign => "assign"

theorem Keyword.ofText?_eq_some_iff {s : String} {k : Keyword} :
    Keyword.ofText? s = some k ↔ s = k.text := by
  constructor
  · intro h
    unfold Keyword.ofText? at h
    split at h <;> cases h <;> rfl
  · rintro rfl
    cases k <;> rfl

namespace Punctuation

theorem mem_longestFirst (p : Punctuation) : p ∈ longestFirst := by
  cases p <;> decide

/-- No sign is the start of a later one. -/
theorem longestFirst_pairwise :
    longestFirst.Pairwise fun p q => ¬ p.text.toList <+: q.text.toList := by
  decide +kernel

theorem text_injective {p q : Punctuation} (h : p.text = q.text) : p = q := by
  have hfind : ∀ r : Punctuation, longestFirst.find? (fun s => s.text == r.text) = some r := by
    intro r
    cases r <;> rfl
  have hp := hfind p
  rw [h, hfind q] at hp
  exact (Option.some.inj hp).symm

end Punctuation

namespace Terminal

/-- The characters spell the terminal. -/
inductive Spells : Terminal → List Char → Prop
  | identifier {c : Char} {cs : List Char} :
      Token.isIdentifierStart c → (∀ d ∈ cs, Token.isIdentifierPart d) →
      Spells .identifier (c :: cs)
  | plainNumber {digits : List Char} :
      digits ≠ [] → (∀ d ∈ digits, d.isDigit) → Spells .number digits
  | basedNumber {size digits : List Char} {letter : Char} :
      (∀ d ∈ size, d.isDigit) → (Literal.radixOfLetter? letter).isSome → digits ≠ [] →
      (∀ d ∈ digits, Literal.isBasedDigit d) →
      Spells .number (size ++ Literal.mark :: letter :: digits)
  | keyword (k : Keyword) : Spells (.keyword k) k.text.toList
  | punctuation (p : Punctuation) : Spells (.punctuation p) p.text.toList

/-- The terminal is always spelled in the same way. -/
def isFixed : Terminal → Bool
  | identifier | number => false
  | keyword _ | punctuation _ => true

/-- The lexeme is the one to read where the text goes on with `rest`: no longer one stands there,
and no other terminal has a better claim to it. -/
structure Leads (x : Terminal) (lexeme rest : List Char) : Prop where
  spells : x.Spells lexeme
  longest : ∀ (y : Terminal) (lexeme' rest' : List Char), lexeme' ++ rest' = lexeme ++ rest →
    y.Spells lexeme' → lexeme'.length ≤ lexeme.length
  preferred : ∀ y : Terminal, y.Spells lexeme → y = x ∨ (x.isFixed ∧ ¬ y.isFixed)

end Terminal

/-! ## The first character of a lexeme

Identifiers and keywords start with a letter or an underscore, numbers with a digit or the mark
before a base, and signs with none of these. No lexeme starts with a blank. -/

/-- The printable characters of ASCII other than the space are no blanks. -/
theorem Text.isBlank_eq_false {c : Char} (h : 32 < c.toNat) (h' : c.toNat < 127) :
    Text.isBlank c = false := by
  simp only [Text.isBlank, Bool.or_eq_false_iff, Bool.and_eq_false_iff, decide_eq_false_iff_not,
    beq_eq_false_iff_ne]
  omega

theorem Punctuation.exists_first (p : Punctuation) :
    ∃ c cs, p.text.toList = c :: cs ∧ ¬ Token.isIdentifierStart c ∧ ¬ c.isDigit ∧
      c ≠ Literal.mark ∧ Text.isBlank c = false := by
  have hall : ∀ q ∈ longestFirst, (q.text.toList.head?.any fun c =>
      !Token.isIdentifierStart c && !c.isDigit && c != Literal.mark && !Text.isBlank c) = true := by
    decide +kernel
  obtain ⟨c, hc, htest⟩ := (Option.any_eq_true _ _).1 (hall p p.mem_longestFirst)
  obtain ⟨cs, hcs⟩ := List.head?_eq_some_iff.1 hc
  simp only [Bool.and_eq_true, Bool.not_eq_true', bne_iff_ne] at htest
  obtain ⟨⟨⟨hstart, hdigit⟩, hmark⟩, hblank⟩ := htest
  exact ⟨c, cs, hcs, by simp [hstart], by simp [hdigit], hmark, hblank⟩

theorem Keyword.spells_identifier (k : Keyword) :
    Terminal.Spells .identifier k.text.toList := by
  cases k <;> exact .identifier (by decide) (List.all_eq_true.1 (by decide))

namespace Token

variable {c : Char}

theorem bounds_of_isIdentifierStart (h : isIdentifierStart c) :
    65 ≤ c.toNat ∧ c.toNat ≤ 122 := by
  simp only [isIdentifierStart, Char.isAlpha, Char.isUpper, Char.isLower, Bool.or_eq_true,
    Bool.and_eq_true, decide_eq_true_eq, beq_iff_eq, ge_iff_le, UInt32.le_iff_toNat_le] at h
  rcases h with (h | h) | rfl
  · exact ⟨h.1, Nat.le_trans h.2 (by decide)⟩
  · exact ⟨Nat.le_trans (by decide) h.1, h.2⟩
  · decide

theorem bounds_of_isDigit (h : c.isDigit) : 48 ≤ c.toNat ∧ c.toNat ≤ 57 := by
  simp only [Char.isDigit, Bool.and_eq_true, decide_eq_true_eq, ge_iff_le,
    UInt32.le_iff_toNat_le] at h
  exact h

theorem not_isDigit_mark : ¬ Literal.mark.isDigit := by
  decide

theorem not_isDigit_of_isIdentifierStart (h : isIdentifierStart c) :
    ¬ (c.isDigit ∨ c = Literal.mark) := by
  have hstart := bounds_of_isIdentifierStart h
  rintro (hdigit | rfl)
  · have := bounds_of_isDigit hdigit
    omega
  · exact absurd hstart (by decide)

end Token

namespace Terminal

variable {x : Terminal} {c : Char} {cs lexeme rest : List Char}

theorem spells_identifier_iff :
    Spells .identifier (c :: cs) ↔
      Token.isIdentifierStart c ∧ ∀ d ∈ cs, Token.isIdentifierPart d := by
  constructor
  · intro h
    cases h with
    | identifier hc hcs => exact ⟨hc, hcs⟩
  · rintro ⟨hc, hcs⟩
    exact .identifier hc hcs

/-- The first character tells identifiers and keywords, numbers, and signs apart. -/
theorem Spells.first_cases (h : x.Spells (c :: cs)) :
    (Token.isIdentifierStart c ∧ Spells .identifier (c :: cs) ∧
      (x = .identifier ∨ ∃ k, x = .keyword k ∧ c :: cs = k.text.toList)) ∨
    ((c.isDigit ∨ c = Literal.mark) ∧ x = .number) ∨
    ∃ p, x = .punctuation p ∧ c :: cs = p.text.toList := by
  generalize hlexeme : c :: cs = lexeme at h
  cases h with
  | identifier hc hcs =>
    cases hlexeme
    exact .inl ⟨hc, .identifier hc hcs, .inl rfl⟩
  | plainNumber _ hdigits =>
    subst hlexeme
    exact .inr (.inl ⟨.inl (hdigits c List.mem_cons_self), rfl⟩)
  | @basedNumber size _ _ hsize =>
    refine .inr (.inl ⟨?_, rfl⟩)
    cases size with
    | nil => exact .inr (List.cons.inj hlexeme).1
    | cons d ds =>
      rw [(List.cons.inj hlexeme).1]
      exact .inl (hsize d List.mem_cons_self)
  | keyword k =>
    have hk := k.spells_identifier
    rw [← hlexeme] at hk ⊢
    exact .inl ⟨(spells_identifier_iff.1 hk).1, hk, .inr ⟨k, rfl, hlexeme⟩⟩
  | punctuation p => exact .inr (.inr ⟨p, rfl, rfl⟩)

theorem Spells.ne_nil (h : x.Spells lexeme) : lexeme ≠ [] := by
  cases h with
  | identifier => exact List.cons_ne_nil _ _
  | plainNumber hne => exact hne
  | basedNumber => simp
  | keyword k => cases k <;> decide
  | punctuation p =>
    obtain ⟨c, cs, htext, -⟩ := p.exists_first
    rw [htext]
    exact List.cons_ne_nil _ _

theorem Spells.not_isBlank (h : x.Spells (c :: cs)) : Text.isBlank c = false := by
  rcases h.first_cases with ⟨hc, -⟩ | ⟨hc | rfl, -⟩ | ⟨p, -, htext⟩
  · have := Token.bounds_of_isIdentifierStart hc
    exact Text.isBlank_eq_false (by omega) (by omega)
  · have := Token.bounds_of_isDigit hc
    exact Text.isBlank_eq_false (by omega) (by omega)
  · decide
  · obtain ⟨d, ds, htext', -, -, -, hblank⟩ := p.exists_first
    rw [← htext] at htext'
    cases htext'
    exact hblank

/-- Only an identifier or a keyword starts as identifiers do. -/
theorem Spells.of_isIdentifierStart (h : x.Spells (c :: cs)) (hc : Token.isIdentifierStart c) :
    Spells .identifier (c :: cs) ∧
      (x = .identifier ∨ ∃ k, x = .keyword k ∧ c :: cs = k.text.toList) := by
  rcases h.first_cases with ⟨-, hspells⟩ | ⟨hdigit, -⟩ | ⟨p, -, htext⟩
  · exact hspells
  · exact absurd hdigit (Token.not_isDigit_of_isIdentifierStart hc)
  · obtain ⟨d, ds, htext', hd, -⟩ := p.exists_first
    rw [← htext] at htext'
    cases htext'
    exact absurd hc hd

/-- Only a number starts as numbers do. -/
theorem Spells.of_isDigit (h : x.Spells (c :: cs)) (hc : c.isDigit ∨ c = Literal.mark) :
    x = .number := by
  rcases h.first_cases with ⟨hstart, -⟩ | ⟨-, rfl⟩ | ⟨p, -, htext⟩
  · exact absurd hc (Token.not_isDigit_of_isIdentifierStart hstart)
  · rfl
  · obtain ⟨d, ds, htext', -, hdigit, hmark, -⟩ := p.exists_first
    rw [← htext] at htext'
    cases htext'
    exact absurd hc (by simp [hdigit, hmark])

end Terminal

/-! ## The longest lexeme -/

namespace Token

open Terminal

variable {c : Char} {cs lexeme rest : List Char} {x : Terminal} {n : Nat}

/-- Two lexemes that lead at one place are the same one and spell the same terminal. -/
theorem Leads.unique {y : Terminal} {lexeme' rest' : List Char} (h : x.Leads lexeme rest)
    (h' : y.Leads lexeme' rest') (heq : lexeme ++ rest = lexeme' ++ rest') :
    x = y ∧ lexeme = lexeme' ∧ rest = rest' := by
  have hle := h'.longest x lexeme rest heq h.spells
  have hge := h.longest y lexeme' rest' heq.symm h'.spells
  obtain ⟨rfl, rfl⟩ := List.append_inj heq (Nat.le_antisymm hle hge)
  refine ⟨?_, rfl, rfl⟩
  rcases h.preferred y h'.spells with rfl | ⟨hx, hy⟩
  · rfl
  · rcases h'.preferred x h.spells with rfl | ⟨hy', -⟩
    · rfl
    · exact absurd hy' hy

/-! ### Numbers -/

theorem takeWhile_append_stop {p : Char → Bool} {as : List Char} (has : ∀ a ∈ as, p a)
    (bs : List Char) (hc : ¬ p c) :
    (as ++ c :: bs).takeWhile p = as ∧ (as ++ c :: bs).dropWhile p = c :: bs := by
  rw [List.takeWhile_append_of_pos has, List.dropWhile_append_of_pos has,
    List.takeWhile_cons_of_neg hc, List.dropWhile_cons_of_neg hc, List.append_nil]
  exact ⟨rfl, rfl⟩

theorem length_le_takeWhile {p : Char → Bool} {as : List Char} (has : ∀ a ∈ as, p a)
    (bs : List Char) :
    as.length ≤ ((as ++ bs).takeWhile p).length := by
  rw [List.takeWhile_append_of_pos has, List.length_append]
  omega

/-- A number at the start of a text is found, and is no longer than what is found. -/
theorem numberLength?_of_spells (h : Spells .number lexeme) (rest : List Char) :
    ∃ n, numberLength? (lexeme ++ rest) = some n ∧ lexeme.length ≤ n := by
  generalize hx : Terminal.number = y at h
  cases h with
  | @plainNumber digits hne hdigits =>
    have hpos : 0 < lexeme.length := List.length_pos_iff.2 hne
    have hsize := length_le_takeWhile hdigits rest
    unfold numberLength?
    dsimp only
    split
    · split
      · exact ⟨_, rfl, by omega⟩
      · rw [if_neg (by omega)]
        exact ⟨_, rfl, hsize⟩
    · rw [if_neg (by omega)]
      exact ⟨_, rfl, hsize⟩
  | @basedNumber size digits letter hsize hletter hne hdigits =>
    have hbased := length_le_takeWhile hdigits rest
    have hpos : 0 < digits.length := List.length_pos_iff.2 hne
    obtain ⟨htake, hdrop⟩ := takeWhile_append_stop hsize
      (letter :: (digits ++ rest)) not_isDigit_mark
    have happend : size ++ Literal.mark :: letter :: digits ++ rest =
        size ++ Literal.mark :: letter :: (digits ++ rest) := by simp
    rw [happend]
    unfold numberLength?
    dsimp only
    -- the size ends at the mark, so the base is found behind it
    rw [htake, hdrop]
    have hfound : (Literal.mark == Literal.mark && (Literal.radixOfLetter? letter).isSome &&
        ((digits ++ rest).takeWhile Literal.isBasedDigit).length != 0) = true := by
      simp only [BEq.rfl, hletter, Bool.true_and, bne_iff_ne]
      omega
    dsimp only
    rw [if_pos hfound]
    refine ⟨_, rfl, ?_⟩
    simp only [List.length_append, List.length_cons]
    omega
  | _ => cases hx

/-- What is found at the start of a text is a number. -/
theorem spells_of_numberLength? (h : numberLength? cs = some n) :
    Spells .number (cs.take n) := by
  have hdigits : ∀ d ∈ cs.takeWhile Char.isDigit, d.isDigit := fun _ hd =>
    List.mem_takeWhile_imp hd
  have hplain : (if (cs.takeWhile Char.isDigit).length = 0 then none
      else some (cs.takeWhile Char.isDigit).length) = some n → Spells .number (cs.take n) := by
    intro hn
    split at hn
    · cases hn
    · next hne =>
      cases hn
      rw [← List.prefix_iff_eq_take.1 (List.takeWhile_prefix _)]
      exact .plainNumber (by simpa using hne) hdigits
  unfold numberLength? at h
  dsimp only at h
  split at h
  · next tick letter digits hrest =>
    split at h
    · next hfound =>
      simp only [Bool.and_eq_true, beq_iff_eq, bne_iff_ne] at hfound
      obtain ⟨⟨rfl, hletter⟩, hne⟩ := hfound
      cases h
      -- the digits behind the base are the start of what is left
      have hprefix : cs.takeWhile Char.isDigit ++ Literal.mark :: letter ::
          digits.takeWhile Literal.isBasedDigit <+: cs := by
        refine ⟨digits.dropWhile Literal.isBasedDigit, ?_⟩
        rw [List.append_assoc, List.cons_append, List.cons_append,
          List.takeWhile_append_dropWhile, ← hrest, List.takeWhile_append_dropWhile]
      have htake := List.prefix_iff_eq_take.1 hprefix
      rw [List.length_append, List.length_cons, List.length_cons] at htake
      rw [Nat.add_assoc, Nat.add_comm 2, ← htake]
      exact .basedNumber hdigits hletter (by simpa using hne) fun _ hd =>
        List.mem_takeWhile_imp hd
    · exact hplain h
  · exact hplain h

/-! ### Signs -/

/-- The sign that is found at the start of a text is the longest one there. -/
theorem length_le_of_ofChars? {p q : Punctuation} (h : Punctuation.ofChars? cs = some p)
    (hq : q.text.toList <+: cs) : q.text.toList.length ≤ p.text.toList.length := by
  obtain ⟨hp, before, after, hlist, hbefore⟩ := List.find?_eq_some_iff_append.1 h
  have hmem := Punctuation.mem_longestFirst q
  rw [hlist, List.mem_append, List.mem_cons] at hmem
  rcases hmem with hmem | rfl | hmem
  · have := hbefore q hmem
    simp [List.isPrefixOf_iff_prefix.2 hq] at this
  · exact Nat.le_refl _
  · by_contra hlt
    -- a longer sign would start with the one found, but stands behind it
    have hprefix := List.prefix_of_prefix_length_le (text_prefix_of_ofChars? h) hq (by omega)
    have hpairwise := Punctuation.longestFirst_pairwise
    rw [hlist, List.pairwise_append] at hpairwise
    exact (List.pairwise_cons.1 hpairwise.2.1).1 q hmem hprefix

theorem exists_ofChars? {p : Punctuation} (h : p.text.toList <+: cs) :
    ∃ q, Punctuation.ofChars? cs = some q := by
  refine Option.isSome_iff_exists.1 (List.find?_isSome.2 ⟨p, p.mem_longestFirst, ?_⟩)
  exact List.isPrefixOf_iff_prefix.2 h

/-! ### All lexemes -/

/-- A lexeme at the start of a text that is not empty has the first character of the text. -/
theorem Spells.exists_cons (h : x.Spells lexeme) (heq : lexeme ++ rest = c :: cs) :
    ∃ ds, lexeme = c :: ds ∧ ds ++ rest = cs := by
  cases lexeme with
  | nil => exact absurd rfl h.ne_nil
  | cons d ds =>
    obtain ⟨rfl, hrest⟩ := List.cons.inj heq
    exact ⟨ds, rfl, hrest⟩

/-- Where identifiers start, the longest row of their characters leads. -/
theorem leads_of_isIdentifierStart (hc : isIdentifierStart c)
    (hspells : x.Spells (c :: cs.takeWhile isIdentifierPart))
    (hkeyword : x = .identifier → Keyword.ofText?
      (String.ofList (c :: cs.takeWhile isIdentifierPart)) = none) :
    x.Leads (c :: cs.takeWhile isIdentifierPart) (cs.dropWhile isIdentifierPart) := by
  refine ⟨hspells, fun y lexeme' rest' heq hy => ?_, fun y hy => ?_⟩
  -- whatever else starts here goes on with the same kind of characters
  · rw [List.cons_append, List.takeWhile_append_dropWhile] at heq
    obtain ⟨ds, rfl, rfl⟩ := Spells.exists_cons hy heq
    have hname := spells_identifier_iff.1 (hy.of_isIdentifierStart hc).1
    exact Nat.succ_le_succ (length_le_takeWhile hname.2 _)
  · rcases (hspells.of_isIdentifierStart hc).2 with rfl | ⟨k, rfl, hk⟩
    · rcases (hy.of_isIdentifierStart hc).2 with rfl | ⟨k', rfl, hk'⟩
      · exact .inl rfl
      · have hnone := hkeyword rfl
        rw [hk', String.ofList_toList, Keyword.ofText?_eq_some_iff.2 rfl] at hnone
        cases hnone
    · rcases (hy.of_isIdentifierStart hc).2 with rfl | ⟨k', rfl, hk'⟩
      · exact .inr ⟨rfl, Bool.false_ne_true⟩
      · -- one text spells one keyword only
        have htext : k.text = k'.text := String.toList_inj.1 (hk.symm.trans hk')
        have hsome := Keyword.ofText?_eq_some_iff.2 htext
        rw [Keyword.ofText?_eq_some_iff.2 rfl] at hsome
        exact .inl (congrArg Terminal.keyword (Option.some.inj hsome)).symm

/-- Where a number is found it leads. -/
theorem leads_of_numberLength? (h : numberLength? (lexeme ++ rest) = some lexeme.length) :
    Leads .number lexeme rest := by
  have hspells := spells_of_numberLength? h
  rw [List.take_left] at hspells
  -- the first character of the text is that of a number
  obtain ⟨c, ds, rfl⟩ := List.exists_cons_of_ne_nil hspells.ne_nil
  have hc : c.isDigit ∨ c = Literal.mark := by
    rcases hspells.first_cases with ⟨-, -, hx | ⟨k, hx, -⟩⟩ | ⟨hc, -⟩ | ⟨p, hx, -⟩
    · cases hx
    · cases hx
    · exact hc
    · cases hx
  refine ⟨hspells, fun y lexeme' rest' heq hy => ?_, fun y hy => .inl (hy.of_isDigit hc)⟩
  obtain ⟨es, rfl, -⟩ := Spells.exists_cons hy heq
  obtain rfl := hy.of_isDigit hc
  obtain ⟨m, hm, hle⟩ := numberLength?_of_spells hy rest'
  rw [heq, h] at hm
  cases hm
  exact hle

/-- Where no identifier and no number starts, the sign that is found leads. -/
theorem leads_of_ofChars? {p : Punctuation} (hc : ¬ isIdentifierStart c)
    (hnumber : numberLength? (c :: cs) = none) (h : Punctuation.ofChars? (c :: cs) = some p)
    (hsplit : p.text.toList ++ rest = c :: cs) : Leads (.punctuation p) p.text.toList rest := by
  have hsign : ∀ (y : Terminal) (lexeme' rest' : List Char), lexeme' ++ rest' = c :: cs →
      y.Spells lexeme' → ∃ q, y = .punctuation q ∧ lexeme' = q.text.toList := by
    intro y lexeme' rest' heq hy
    obtain ⟨ds, rfl, -⟩ := Spells.exists_cons hy heq
    rcases hy.first_cases with ⟨hstart, -⟩ | ⟨-, rfl⟩ | hpunctuation
    · exact absurd hstart hc
    · obtain ⟨m, hm, -⟩ := numberLength?_of_spells hy rest'
      rw [heq, hnumber] at hm
      cases hm
    · exact hpunctuation
  refine ⟨.punctuation p, fun y lexeme' rest' heq hy => ?_, fun y hy => ?_⟩
  · rw [hsplit] at heq
    obtain ⟨q, rfl, rfl⟩ := hsign y lexeme' rest' heq hy
    exact length_le_of_ofChars? h ⟨rest', heq⟩
  · obtain ⟨q, rfl, htext⟩ := hsign y _ _ hsplit hy
    rw [Punctuation.text_injective (String.toList_inj.1 htext)]
    exact .inl rfl

/-- What the scanner takes leads. -/
theorem leads_of_lexeme? (h : lexeme? (lexeme ++ rest) = some (x, lexeme.length)) :
    x.Leads lexeme rest := by
  cases hcs : lexeme ++ rest with
  | nil =>
    rw [hcs] at h
    cases h
  | cons c cs =>
    rw [hcs, lexeme?] at h
    split at h
    -- the row of characters of an identifier, which may be a keyword
    · next hc =>
      have hname : (c :: cs.takeWhile isIdentifierPart) ++ cs.dropWhile isIdentifierPart =
          lexeme ++ rest := by
        rw [hcs, List.cons_append, List.takeWhile_append_dropWhile]
      have hspells : Spells .identifier (c :: cs.takeWhile isIdentifierPart) :=
        .identifier hc fun _ hd => List.mem_takeWhile_imp hd
      dsimp only at h
      split at h
      · next k hk =>
        obtain ⟨rfl, hlength⟩ := Prod.mk.inj (Option.some.inj h)
        obtain ⟨rfl, rfl⟩ := List.append_inj hname hlength
        refine leads_of_isIdentifierStart hc ?_ ?_
        · rw [← String.toList_ofList (l := c :: _), Keyword.ofText?_eq_some_iff.1 hk]
          exact .keyword k
        · intro hkeyword
          cases hkeyword
      · next hnone =>
        obtain ⟨rfl, hlength⟩ := Prod.mk.inj (Option.some.inj h)
        obtain ⟨rfl, rfl⟩ := List.append_inj hname hlength
        exact leads_of_isIdentifierStart hc hspells fun _ => hnone
    · next hc =>
      split at h
      -- a number, which goes before signs
      · next size hsize =>
        cases h
        rw [← hcs] at hsize
        exact leads_of_numberLength? hsize
      · next hnumber =>
        obtain ⟨p, hp, heq⟩ := Option.map_eq_some_iff.1 h
        obtain ⟨rfl, hlength⟩ := Prod.mk.inj heq
        have hprefix := text_prefix_of_ofChars? hp
        rw [← String.length_toList] at hlength
        rw [List.prefix_iff_eq_take, ← hcs, hlength, List.take_left] at hprefix
        subst hprefix
        exact leads_of_ofChars? hc hnumber hp hcs

/-- Where something is spelled the scanner finds a lexeme. -/
theorem exists_lexeme? (h : x.Spells lexeme) (rest : List Char) :
    ∃ y n, lexeme? (lexeme ++ rest) = some (y, n) := by
  obtain ⟨c, ds, rfl⟩ := List.exists_cons_of_ne_nil h.ne_nil
  rw [List.cons_append, lexeme?]
  split
  · dsimp only
    split
    · exact ⟨_, _, rfl⟩
    · exact ⟨_, _, rfl⟩
  · next hc =>
    split
    · exact ⟨_, _, rfl⟩
    · next hnumber =>
      rcases h.first_cases with ⟨hstart, -⟩ | ⟨-, rfl⟩ | ⟨p, rfl, htext⟩
      · exact absurd hstart hc
      · obtain ⟨m, hm, -⟩ := numberLength?_of_spells h rest
        rw [List.cons_append, hnumber] at hm
        cases hm
      · have hprefix : p.text.toList <+: c :: (ds ++ rest) := ⟨rest, by rw [← htext]; rfl⟩
        obtain ⟨q, hq⟩ := exists_ofChars? hprefix
        exact ⟨_, _, by rw [hq]; rfl⟩

/-- The lexeme that leads is the one that the scanner takes. -/
theorem lexeme?_eq_some_iff :
    lexeme? (lexeme ++ rest) = some (x, lexeme.length) ↔ x.Leads lexeme rest := by
  refine ⟨leads_of_lexeme?, fun h => ?_⟩
  obtain ⟨y, n, hfound⟩ := exists_lexeme? h.spells rest
  -- what is found leads as well, so it is the same
  have hle := (lexeme?_bounds hfound).2
  obtain ⟨lexeme', rest', hsplit, rfl⟩ : ∃ as bs, lexeme ++ rest = as ++ bs ∧ as.length = n :=
    ⟨_, _, (List.take_append_drop n _).symm, List.length_take_of_le hle⟩
  rw [hsplit] at hfound
  obtain ⟨rfl, rfl, rfl⟩ := Leads.unique h (leads_of_lexeme? hfound) hsplit
  exact hfound

/-- Between the offsets of a token that was read stands a lexeme that leads there. -/
theorem ReadFrom.exists_lexeme {source : Source} {t : Token} (h : t.ReadFrom source.contents) :
    ∃ before lexeme after, source.contents = before ++ lexeme ++ after ∧
      t.start = Text.byteLength before ∧ t.stop = t.start + Text.byteLength lexeme ∧
      t.terminal.Leads lexeme after ∧
      (⟨source, t.start, t.stop⟩ : Location).text = String.ofList lexeme := by
  obtain ⟨before, lexeme, after, hcontents, hstart, hstop, hlexeme⟩ := h
  have hslice := Text.slice?_append before lexeme after
  rw [← hcontents, ← hstart, ← hstop] at hslice
  refine ⟨before, lexeme, after, hcontents, hstart, hstop, lexeme?_eq_some_iff.1 hlexeme, ?_⟩
  rw [Location.text, hslice]

/-! ## Scanning, lexeme by lexeme -/

section Scanning

variable {offset : Nat}

/-- What the scanner takes off a text is a lexeme that leads there. -/
theorem exists_leads_of_lexeme? (h : lexeme? cs = some (x, n)) :
    ∃ lexeme rest, cs = lexeme ++ rest ∧ lexeme.length = n ∧ x.Leads lexeme rest := by
  have hlength := List.length_take_of_le (lexeme?_bounds h).2
  refine ⟨cs.take n, cs.drop n, (List.take_append_drop n cs).symm, hlength, ?_⟩
  rwa [← lexeme?_eq_some_iff, List.take_append_drop, hlength]

/-- A blank at the front is skipped. -/
theorem scanFrom_blank (hc : Text.isBlank c = true) (rest : List Char) :
    scanFrom offset (c :: rest) = scanFrom (offset + c.utf8Size) rest := by
  rw [scanFrom, if_pos hc]

/-- Where nothing is spelled the scan fails. -/
theorem scanFrom_stuck (hc : Text.isBlank c = false)
    (h : lexeme? (c :: cs) = none) : scanFrom offset (c :: cs) = .error offset := by
  rw [scanFrom, if_neg (by simp [hc]), h]

/-- A lexeme that leads at the front is a token. -/
theorem scanFrom_token (h : x.Leads lexeme rest) :
    scanFrom offset (lexeme ++ rest) =
      (scanFrom (offset + Text.byteLength lexeme) rest).map
        (⟨x, offset, offset + Text.byteLength lexeme⟩ :: ·) := by
  obtain ⟨c, ds, rfl⟩ := List.exists_cons_of_ne_nil h.spells.ne_nil
  have hfound := lexeme?_eq_some_iff.2 h
  have htake : (ds ++ rest).take ((c :: ds).length - 1) = ds := List.take_left
  have hdrop : (ds ++ rest).drop ((c :: ds).length - 1) = rest := List.drop_left
  rw [List.cons_append] at hfound
  rw [List.cons_append, scanFrom, if_neg (by simp [h.spells.not_isBlank])]
  simp only [hfound, htake, hdrop]
  cases scanFrom (offset + Text.byteLength (c :: ds)) rest <;> rfl

/-- What holds of every text by the way in which it is scanned: from the end of the text, over a
blank, over a lexeme that leads, and where nothing is spelled. -/
theorem scan_induction {motive : Nat → List Char → Prop} (nil : ∀ offset, motive offset [])
    (blank : ∀ offset c cs, Text.isBlank c = true → motive (offset + c.utf8Size) cs →
      motive offset (c :: cs))
    (stuck : ∀ offset c cs, Text.isBlank c = false → lexeme? (c :: cs) = none →
      motive offset (c :: cs))
    (token : ∀ offset (x : Terminal) lexeme cs, x.Leads lexeme cs →
      motive (offset + Text.byteLength lexeme) cs → motive offset (lexeme ++ cs))
    (offset : Nat) (cs : List Char) : motive offset cs := by
  induction hlength : cs.length using Nat.strong_induction_on generalizing offset cs with
  | h n ih =>
    cases cs with
    | nil => exact nil offset
    | cons c cs =>
      cases hc : Text.isBlank c with
      | true => exact blank offset c cs hc (ih cs.length (by simp [← hlength]) _ cs rfl)
      | false =>
        cases hlex : lexeme? (c :: cs) with
        | none => exact stuck offset c cs hc hlex
        | some found =>
          obtain ⟨x, size⟩ := found
          obtain ⟨lexeme, rest, hcs, rfl, hleads⟩ := exists_leads_of_lexeme? hlex
          have hpos : 0 < lexeme.length := List.length_pos_iff.2 hleads.spells.ne_nil
          rw [hcs] at hlength ⊢
          rw [List.length_append] at hlength
          exact token offset x lexeme rest hleads (ih rest.length (by omega) _ rest rfl)

end Scanning

/-! ## Rows of tokens -/

/-- From a byte offset on, a text starts with blanks and the tokens of a row, and `rest` is what
comes behind them. -/
inductive Scans : Nat → List Char → List Token → List Char → Prop
  | done {offset : Nat} {cs : List Char} : Scans offset cs [] cs
  | blank {offset : Nat} {c : Char} {cs rest : List Char} {ts : List Token} :
      Text.isBlank c → Scans (offset + c.utf8Size) cs ts rest → Scans offset (c :: cs) ts rest
  | token {offset : Nat} {x : Terminal} {lexeme cs rest : List Char} {ts : List Token} :
      x.Leads lexeme cs → Scans (offset + Text.byteLength lexeme) cs ts rest →
      Scans offset (lexeme ++ cs) (⟨x, offset, offset + Text.byteLength lexeme⟩ :: ts) rest

variable {offset : Nat} {ts us : List Token}

theorem Scans.append {middle : List Char} {offset' : Nat} (h : Scans offset cs ts middle)
    (hoffset : offset' + Text.byteLength middle = offset + Text.byteLength cs)
    (h' : Scans offset' middle us rest) : Scans offset cs (ts ++ us) rest := by
  induction h with
  | done =>
    obtain rfl := Nat.add_right_cancel hoffset
    exact h'
  | blank hc _ ih =>
    refine .blank hc (ih ?_ h')
    rw [hoffset, Text.byteLength_cons, Nat.add_assoc]
  | token hx _ ih =>
    refine .token hx (ih ?_ h')
    rw [hoffset, Text.byteLength_append, Nat.add_assoc]

theorem Scans.suffix (h : Scans offset cs ts rest) : rest <:+ cs := by
  induction h with
  | done => exact List.suffix_rfl
  | blank _ _ ih => exact ih.trans (List.suffix_cons _ _)
  | token _ _ ih => exact ih.trans (List.suffix_append _ _)

/-- The scanner returns the row of tokens that a text is made of. -/
theorem scans_of_scanFrom (h : scanFrom offset cs = .ok ts) : Scans offset cs ts [] := by
  induction offset, cs using scan_induction generalizing ts with
  | nil offset =>
    rw [scanFrom] at h
    cases h
    exact .done
  | blank offset c cs hc ih =>
    rw [scanFrom_blank hc] at h
    exact .blank hc (ih h)
  | stuck offset c cs hc hnone =>
    rw [scanFrom_stuck hc hnone] at h
    cases h
  | token offset x lexeme cs hx ih =>
    rw [scanFrom_token hx] at h
    cases hrest : scanFrom (offset + Text.byteLength lexeme) cs with
    | error bad =>
      rw [hrest] at h
      cases h
    | ok us =>
      rw [hrest] at h
      cases h
      exact .token hx (ih hrest)

/-- A text that is made of a row of tokens is scanned as that row. -/
theorem Scans.scanFrom_eq (h : Scans offset cs ts rest) (hrest : rest = []) :
    scanFrom offset cs = .ok ts := by
  induction h with
  | done =>
    subst hrest
    rw [scanFrom]
  | blank hc _ ih =>
    rw [scanFrom_blank hc]
    exact ih hrest
  | token hx _ ih =>
    rw [scanFrom_token hx, ih hrest]
    rfl

/-- A scan returns the one row of tokens that the text is made of, if there is one. -/
theorem scan_eq_ok_iff : scan cs = .ok ts ↔ Scans 0 cs ts [] :=
  ⟨scans_of_scanFrom, fun h => h.scanFrom_eq rfl⟩

/-- A text is made of at most one row of tokens. -/
theorem Scans.unique (h : Scans 0 cs ts []) (h' : Scans 0 cs us []) : ts = us := by
  rw [← scan_eq_ok_iff] at h h'
  exact Except.ok.inj (h.symm.trans h')

end Token

end Netlist
