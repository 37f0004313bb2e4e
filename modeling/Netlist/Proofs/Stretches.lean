/-
Text that is put together of lexemes.

A text that is written lexeme by lexeme reads as the tokens it was written from only if each lexeme
leads where it stands. For words it is enough that what follows is no part of a word (`Ends`,
`Claims.leads`); for a sign, that what follows does not make it a longer sign (`continuations`,
`Punctuation.leads`). The stretches of a source between two places then put together
(`Stretch.append`), and a place is given by the text that is left there.
-/
import Netlist.Proofs.Lexing

set_option autoImplicit false

namespace Netlist

/-- Where two rows agree and one part is the longer one, it goes on with the rest of the other. -/
theorem exists_of_append_eq_append {α : Type} {as bs cs ds : List α} (h : as ++ bs = cs ++ ds)
    (hlt : as.length < cs.length) : ∃ c more, cs = as ++ c :: more ∧ bs = c :: (more ++ ds) := by
  rcases List.append_eq_append_iff.1 h with ⟨more, rfl, rfl⟩ | ⟨more, rfl, rfl⟩
  · cases more with
    | nil =>
      rw [List.append_nil] at hlt
      exact absurd hlt (Nat.lt_irrefl _)
    | cons c more => exact ⟨c, more, rfl, rfl⟩
  · rw [List.length_append] at hlt
    omega

theorem Text.trim_eq_self {s : String} (h : ∀ c ∈ s.toList, isBlank c = false) : trim s = s := by
  have hhead : ∀ c ∈ s.toList.head?, isBlank c = false := by
    intro c hc
    exact h c (List.mem_of_head? hc)
  have hlast : ∀ c ∈ s.toList.getLast?, isBlank c = false := by
    intro c hc
    exact h c (List.mem_of_getLast? hc)
  rw [trim, trimBlanks_eq_self hhead hlast, String.ofList_toList]

/-! ## Words -/

namespace Token

/-- A character that may stand in an identifier or in a number. -/
def isWordPart (c : Char) : Bool :=
  isIdentifierPart c || c == Literal.mark

/-- No word goes on with these characters. -/
def Ends (rest : List Char) : Prop :=
  ∀ c ∈ rest.head?, isWordPart c = false

variable {c : Char}

theorem ends_nil : Ends [] :=
  nofun

theorem ends_cons {rest : List Char} (h : isWordPart c = false) : Ends (c :: rest) := by
  intro d hd
  cases hd
  exact h

theorem isWordPart_of_isIdentifierPart (h : isIdentifierPart c) : isWordPart c := by
  rw [isWordPart, h, Bool.true_or]

theorem isWordPart_of_isIdentifierStart (h : isIdentifierStart c) : isWordPart c := by
  apply isWordPart_of_isIdentifierPart
  simp only [isIdentifierStart, Bool.or_eq_true] at h
  simp only [isIdentifierPart, Char.isAlphanum, Bool.or_eq_true]
  exact h.imp_left .inl

theorem isWordPart_of_isDigit (h : c.isDigit) : isWordPart c := by
  apply isWordPart_of_isIdentifierPart
  rw [isIdentifierPart, Char.isAlphanum, h, Bool.or_true, Bool.true_or]

theorem isWordPart_of_radixOfLetter? (h : (Literal.radixOfLetter? c).isSome) : isWordPart c := by
  unfold Literal.radixOfLetter? at h
  split at h
  all_goals first
    | decide
    | cases h

theorem isAlphanum_iff : c.isAlphanum = true ↔ (65 ≤ c.toNat ∧ c.toNat ≤ 90) ∨
    (97 ≤ c.toNat ∧ c.toNat ≤ 122) ∨ (48 ≤ c.toNat ∧ c.toNat ≤ 57) := by
  simp only [Char.isAlphanum, Char.isAlpha, Char.isUpper, Char.isLower, Char.isDigit,
    Bool.or_eq_true, Bool.and_eq_true, decide_eq_true_eq, UInt32.le_iff_toNat_le, ge_iff_le,
    or_assoc]
  exact Iff.rfl

theorem isAlphanum_of_digitValue? (h : (Radix.digitValue? c).isSome) : c.isAlphanum := by
  have hle : ∀ a b : Char, a ≤ b ↔ a.toNat ≤ b.toNat := fun _ _ => Iff.rfl
  have hdigits : '0'.toNat = 48 ∧ '9'.toNat = 57 := ⟨rfl, rfl⟩
  have hlower : 'a'.toNat = 97 ∧ 'f'.toNat = 102 := ⟨rfl, rfl⟩
  have hupper : 'A'.toNat = 65 ∧ 'F'.toNat = 70 := ⟨rfl, rfl⟩
  rw [isAlphanum_iff]
  unfold Radix.digitValue? at h
  simp only [hle] at h
  by_cases h₁ : '0'.toNat ≤ c.toNat ∧ c.toNat ≤ '9'.toNat
  · omega
  · by_cases h₂ : 'a'.toNat ≤ c.toNat ∧ c.toNat ≤ 'f'.toNat
    · omega
    · by_cases h₃ : 'A'.toNat ≤ c.toNat ∧ c.toNat ≤ 'F'.toNat
      · omega
      · rw [if_neg h₁, if_neg h₂, if_neg h₃] at h
        cases h

theorem isWordPart_of_isBasedDigit (h : Literal.isBasedDigit c) : isWordPart c := by
  apply isWordPart_of_isIdentifierPart
  simp only [Literal.isBasedDigit, Bool.or_eq_true] at h
  rcases h with h | h
  · rw [isIdentifierPart, isAlphanum_of_digitValue? h, Bool.true_or]
  · rw [isIdentifierPart, h, Bool.or_true]

theorem not_isBlank_of_isWordPart (h : isWordPart c) : Text.isBlank c = false := by
  simp only [isWordPart, isIdentifierPart, Bool.or_eq_true, isAlphanum_iff, beq_iff_eq] at h
  rcases h with (h | rfl) | rfl
  · exact Text.isBlank_eq_false (by omega) (by omega)
  · decide
  · decide

end Token

namespace Terminal

/-- The terminal is no sign. -/
def isWord : Terminal → Bool
  | punctuation _ => false
  | _ => true

/-- The characters spell the terminal, and no other terminal has a better claim to them. -/
structure Claims (x : Terminal) (lexeme : List Char) : Prop where
  spells : x.Spells lexeme
  preferred : ∀ y : Terminal, y.Spells lexeme → y = x ∨ (x.isFixed ∧ ¬ y.isFixed)

variable {x y : Terminal} {c : Char} {cs ds lexeme rest : List Char}

theorem Leads.claims (h : x.Leads lexeme rest) : x.Claims lexeme :=
  ⟨h.spells, h.preferred⟩

/-- What the scanner takes as a whole is spelled so. -/
theorem claims_of_lexeme? (h : Token.lexeme? lexeme = some (x, lexeme.length)) :
    x.Claims lexeme := by
  have hnothing : Token.lexeme? (lexeme ++ []) = some (x, lexeme.length) := by
    rw [List.append_nil, h]
  exact (Token.leads_of_lexeme? hnothing).claims

theorem Spells.isWordPart (h : x.Spells lexeme) (hx : x.isWord) :
    ∀ d ∈ lexeme, Token.isWordPart d := by
  have hname : ∀ ds : List Char, Spells .identifier ds → ∀ d ∈ ds, Token.isWordPart d := by
    intro ds hds
    obtain ⟨c, cs, rfl⟩ := List.exists_cons_of_ne_nil hds.ne_nil
    obtain ⟨hc, hcs⟩ := spells_identifier_iff.1 hds
    refine List.forall_mem_cons.2 ⟨Token.isWordPart_of_isIdentifierStart hc, ?_⟩
    intro d hd
    exact Token.isWordPart_of_isIdentifierPart (hcs d hd)
  cases h with
  | identifier hc hcs => exact hname _ (.identifier hc hcs)
  | plainNumber _ hdigits =>
    intro d hd
    exact Token.isWordPart_of_isDigit (hdigits d hd)
  | basedNumber hsize hletter _ hdigits =>
    refine List.forall_mem_append.2 ⟨?_, List.forall_mem_cons.2 ⟨by decide, ?_⟩⟩
    · intro d hd
      exact Token.isWordPart_of_isDigit (hsize d hd)
    · refine List.forall_mem_cons.2 ⟨Token.isWordPart_of_radixOfLetter? hletter, ?_⟩
      intro d hd
      exact Token.isWordPart_of_isBasedDigit (hdigits d hd)
  | keyword k => exact hname _ k.spells_identifier
  | punctuation p => cases hx

/-- The first character tells words from signs. -/
theorem Spells.isWord_iff (h : x.Spells (c :: cs)) (h' : y.Spells (c :: ds)) :
    x.isWord ↔ y.isWord := by
  rcases h.first_cases with ⟨hc, -, rfl | ⟨k, rfl, -⟩⟩ | ⟨hc, rfl⟩ | ⟨p, rfl, hp⟩
  · rcases (h'.of_isIdentifierStart hc).2 with rfl | ⟨k', rfl, -⟩ <;> exact Iff.rfl
  · rcases (h'.of_isIdentifierStart hc).2 with rfl | ⟨k', rfl, -⟩ <;> exact Iff.rfl
  · rw [h'.of_isDigit hc]
  · rcases h'.first_cases with ⟨hc, -⟩ | ⟨hc, -⟩ | ⟨q, rfl, -⟩
    · exact absurd (h.of_isIdentifierStart hc).2 (by simp)
    · exact absurd (h.of_isDigit hc) (by simp)
    · exact Iff.rfl

/-- A word leads where nothing that follows is a part of a word. -/
theorem Claims.leads (h : x.Claims lexeme) (hx : x.isWord) (hrest : Token.Ends rest) :
    x.Leads lexeme rest where
  spells := h.spells
  preferred := h.preferred
  longest := by
    intro y lexeme' rest' heq hy
    by_contra hlt
    -- a longer lexeme would hold the first character that follows
    obtain ⟨d, more, rfl, rfl⟩ := exists_of_append_eq_append heq.symm (Nat.lt_of_not_le hlt)
    obtain ⟨c, cs, rfl⟩ := List.exists_cons_of_ne_nil h.spells.ne_nil
    have hword := hy.isWordPart ((h.spells.isWord_iff hy).1 hx) d (by simp)
    rw [hrest d rfl] at hword
    cases hword

/-- Words have no blanks around them. -/
theorem Claims.trim_eq_self {s : String} (h : x.Claims s.toList) (hx : x.isWord) :
    Text.trim s = s := by
  apply Text.trim_eq_self
  intro c hc
  exact Token.not_isBlank_of_isWordPart (h.spells.isWordPart hx c hc)

end Terminal

theorem Keyword.claims (k : Keyword) : Terminal.Claims (.keyword k) k.text.toList := by
  cases k <;> exact Terminal.claims_of_lexeme? (by decide)

/-! ## Signs -/

namespace Punctuation

/-- The characters that make the sign a longer one, or the start of one. -/
def continuations (p : Punctuation) : List Char :=
  longestFirst.filterMap fun q =>
    if p.text.toList.isPrefixOf q.text.toList then
      (q.text.toList.drop p.text.toList.length).head?
    else none

variable {p q : Punctuation} {c : Char} {more rest : List Char}

theorem mem_continuations (h : q.text.toList = p.text.toList ++ c :: more) :
    c ∈ p.continuations := by
  refine List.mem_filterMap.2 ⟨q, q.mem_longestFirst, ?_⟩
  have hprefix : p.text.toList.isPrefixOf q.text.toList = true :=
    List.isPrefixOf_iff_prefix.2 ⟨c :: more, h.symm⟩
  rw [if_pos hprefix, h, List.drop_left, List.head?_cons]

/-- A sign leads where what follows does not make it a longer one. -/
theorem leads (p : Punctuation) (h : ∀ c ∈ rest.head?, c ∉ p.continuations) :
    Terminal.Leads (.punctuation p) p.text.toList rest := by
  obtain ⟨c, cs, hp, -⟩ := p.exists_first
  have hspells := Terminal.Spells.punctuation p
  have hsign : ∀ (y : Terminal) (ds : List Char), y.Spells (c :: ds) →
      ∃ q, y = .punctuation q ∧ c :: ds = q.text.toList := by
    intro y ds hy
    have hword : ¬ y.isWord := by
      rw [hp] at hspells
      rw [← hspells.isWord_iff hy]
      exact Bool.false_ne_true
    rcases hy.first_cases with ⟨-, -, rfl | ⟨k, rfl, -⟩⟩ | ⟨-, rfl⟩ | hq
    · exact absurd rfl hword
    · exact absurd rfl hword
    · exact absurd rfl hword
    · exact hq
  refine ⟨hspells, ?_, ?_⟩
  · intro y lexeme' rest' heq hy
    by_contra hlt
    obtain ⟨d, more, rfl, rfl⟩ := exists_of_append_eq_append heq.symm (Nat.lt_of_not_le hlt)
    have hy' := hy
    rw [hp, List.cons_append] at hy'
    obtain ⟨q, -, hq⟩ := hsign y _ hy'
    rw [← List.cons_append, ← hp] at hq
    exact h d rfl (mem_continuations hq.symm)
  · intro y hy
    have hy' := hy
    rw [hp] at hy'
    obtain ⟨q, rfl, hq⟩ := hsign y _ hy'
    rw [← hp] at hq
    exact .inl (congrArg _ (text_injective (String.toList_inj.1 hq.symm)))

theorem leads_before_blank (p : Punctuation) (rest : List Char) :
    Terminal.Leads (.punctuation p) p.text.toList (' ' :: rest) := by
  apply p.leads
  intro c hc
  cases hc
  cases p <;> decide

/-- A sign that is the start of no longer one leads wherever it stands. -/
theorem leads_of_continuations_eq_nil (h : p.continuations = []) (rest : List Char) :
    Terminal.Leads (.punctuation p) p.text.toList rest := by
  apply p.leads
  intro c _
  rw [h]
  exact List.not_mem_nil

end Punctuation

/-! ## Stretches of a source -/

namespace Token

/-- From where `cs` is left of the source up to where `rest` is left, the source is made of the
tokens. -/
def Stretch (source : Source) (cs : List Char) (ts : List Token) (rest : List Char) : Prop :=
  ∃ before, source.contents = before ++ cs ∧ Scans (Text.byteLength before) cs ts rest

namespace Stretch

variable {source : Source} {cs middle rest lexeme : List Char} {ts us : List Token} {c : Char}
  {x : Terminal}

theorem nil (h : cs <:+ source.contents) : Stretch source cs [] cs := by
  obtain ⟨before, hbefore⟩ := h
  exact ⟨before, hbefore.symm, .done⟩

theorem blank (h : c :: cs <:+ source.contents) (hc : Text.isBlank c) :
    Stretch source (c :: cs) [] cs := by
  obtain ⟨before, hbefore⟩ := h
  exact ⟨before, hbefore.symm, .blank hc .done⟩

/-- A lexeme is a token, and what the token covers is the lexeme. -/
theorem exists_token (h : lexeme ++ rest <:+ source.contents) (hx : x.Leads lexeme rest) :
    ∃ t : Token, t.terminal = x ∧ Stretch source (lexeme ++ rest) [t] rest ∧
      (⟨source, t.start, t.stop⟩ : Location).text = String.ofList lexeme := by
  obtain ⟨before, hbefore⟩ := h
  refine ⟨⟨x, _, _⟩, rfl, ⟨before, hbefore.symm, .token hx .done⟩, ?_⟩
  have hslice := Text.slice?_append before lexeme rest
  rw [List.append_assoc, hbefore] at hslice
  rw [Location.text, hslice]

theorem append (h : Stretch source cs ts middle) (h' : Stretch source middle us rest) :
    Stretch source cs (ts ++ us) rest := by
  obtain ⟨before, hbefore, hscans⟩ := h
  obtain ⟨before', hbefore', hscans'⟩ := h'
  refine ⟨before, hbefore, hscans.append ?_ hscans'⟩
  rw [← Text.byteLength_append, ← Text.byteLength_append, ← hbefore, ← hbefore']

theorem suffix (h : Stretch source cs ts rest) : rest <:+ source.contents := by
  obtain ⟨before, hbefore, hscans⟩ := h
  have hsuffix : cs <:+ source.contents := ⟨before, hbefore.symm⟩
  exact hscans.suffix.trans hsuffix

/-- A stretch from end to end is a scan of the text. -/
theorem scans (h : Stretch source source.contents ts []) : Scans 0 source.contents ts [] := by
  obtain ⟨before, hbefore, hscans⟩ := h
  obtain rfl := List.self_eq_append_left.1 hbefore
  exact hscans

end Stretch

end Token

end Netlist
