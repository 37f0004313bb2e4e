/-
Reading on both sides of a cut.

No lexeme holds a blank, so a blank cuts a text in two, and so does a sign that stands in no longer
lexeme (`Terminal.Cuts`): what is read in front of it does not depend on what stands behind it
(`lexeme?_append_cut`), and a text is scanned part by part (`scanFrom_append_cut`). A part that moves
as a whole is read as the same tokens elsewhere (`scanFrom_relocate`), and the text between two
offsets in a part is found where the part now stands (`slice?_append_left`, `slice?_append_right`).
-/
import Netlist.Proofs.Relocation
import Netlist.Proofs.Stretches

set_option autoImplicit false

namespace Netlist

/-! ## Slices of a part -/

namespace Text

variable {as bs cs : List Char} {n start stop : Nat}

theorem dropBytes_append_left (bs : List Char) (h : n ≤ byteLength as) :
    dropBytes n (as ++ bs) = (dropBytes n as).map (· ++ bs) := by
  induction as generalizing n with
  | nil =>
    obtain rfl := Nat.le_zero.1 h
    simp [dropBytes]
  | cons c as ih =>
    cases n with
    | zero => simp [dropBytes]
    | succ n =>
      rw [byteLength_cons] at h
      rw [List.cons_append, dropBytes, dropBytes]
      split
      · exact ih (by omega)
      · rfl

theorem takeBytes_append_left (bs : List Char) (h : n ≤ byteLength as) :
    takeBytes n (as ++ bs) = takeBytes n as := by
  induction as generalizing n with
  | nil =>
    obtain rfl := Nat.le_zero.1 h
    simp [takeBytes]
  | cons c as ih =>
    cases n with
    | zero => simp [takeBytes]
    | succ n =>
      rw [byteLength_cons] at h
      rw [List.cons_append, takeBytes, takeBytes]
      split
      · rw [ih (by omega)]
      · rfl

theorem byteLength_of_dropBytes (h : dropBytes n cs = some bs) :
    byteLength cs = n + byteLength bs := by
  induction cs generalizing n with
  | nil =>
    cases n with
    | zero => simp_all [dropBytes]
    | succ n => cases h
  | cons c cs ih =>
    cases n with
    | zero =>
      obtain rfl := Option.some.inj h
      exact (Nat.zero_add _).symm
    | succ n =>
      rw [dropBytes] at h
      split at h
      · have hrest := ih h
        rw [byteLength_cons]
        omega
      · cases h

theorem dropBytes_add (as bs : List Char) (n : Nat) :
    dropBytes (byteLength as + n) (as ++ bs) = dropBytes n bs := by
  induction as with
  | nil => simp
  | cons c as ih =>
    have hpos : 0 < c.utf8Size := Char.utf8Size_pos c
    obtain ⟨m, hm⟩ : ∃ m, c.utf8Size + byteLength as + n = m + 1 :=
      Nat.exists_eq_add_one_of_ne_zero (by omega)
    have hsub : m + 1 - c.utf8Size = byteLength as + n := by omega
    rw [List.cons_append, byteLength_cons, hm, dropBytes, if_pos (by omega), hsub, ih]

/-- A slice of the front part is the same slice of the whole. -/
theorem slice?_append_left (bs : List Char) (h : stop ≤ byteLength as) :
    slice? (as ++ bs) start stop = slice? as start stop := by
  unfold slice?
  split
  · next hle =>
    rw [dropBytes_append_left bs (by omega)]
    cases hdrop : dropBytes start as with
    | none => rfl
    | some rest =>
      have hlength := byteLength_of_dropBytes hdrop
      exact takeBytes_append_left bs (by omega)
  · rfl

/-- A slice of the back part is found in the whole behind the front part. -/
theorem slice?_append_right (as bs : List Char) (start stop : Nat) :
    slice? (as ++ bs) (byteLength as + start) (byteLength as + stop) = slice? bs start stop := by
  unfold slice?
  rw [dropBytes_add, Nat.add_sub_add_left]
  simp only [Nat.add_le_add_iff_left]

end Text

/-- A text that was handed over as it is, by its characters. -/
def Source.ofChars (cs : List Char) : Source :=
  ⟨.text, cs⟩

theorem Source.known_ofChars (cs : List Char) : (ofChars cs).origin ≠ .unknown := nofun

/-- A range in a part that two sources share has the same text in both. -/
theorem Location.text_eq_of_shared {source source' : Source}
    {before after before' after' part : List Char}
    (h : source.contents = before ++ part ++ after)
    (h' : source'.contents = before' ++ part ++ after') (start : Nat) {stop : Nat}
    (hstop : stop ≤ Text.byteLength part) :
    text ⟨source', Text.byteLength before' + start, Text.byteLength before' + stop⟩ =
      text ⟨source, Text.byteLength before + start, Text.byteLength before + stop⟩ := by
  unfold text
  rw [h, h', List.append_assoc, List.append_assoc, Text.slice?_append_right,
    Text.slice?_append_right, Text.slice?_append_left _ hstop, Text.slice?_append_left _ hstop]

/-! ## Lexemes in front of a cut -/

theorem Punctuation.not_isBlank (p : Punctuation) :
    ∀ c ∈ p.text.toList, Text.isBlank c = false := by
  have hall : (p.text.toList.all fun c => !Text.isBlank c) = true := by
    cases p <;> decide
  intro c hc
  simpa using List.all_eq_true.1 hall c hc

namespace Terminal

variable {x : Terminal} {lexeme cs rest : List Char} {b : Char}

/-- No lexeme holds a blank. -/
theorem Spells.not_isBlank_of_mem (h : x.Spells lexeme) :
    ∀ c ∈ lexeme, Text.isBlank c = false := by
  intro c hc
  by_cases hx : x.isWord
  · exact Token.not_isBlank_of_isWordPart (h.isWordPart hx c hc)
  · cases h with
    | punctuation p => exact p.not_isBlank c hc
    | _ => exact absurd rfl hx

/-- No lexeme goes over the character: a lexeme that holds it is that character alone. -/
def Cuts (b : Char) : Prop :=
  ∀ (x : Terminal) (lexeme : List Char), x.Spells lexeme → b ∈ lexeme → lexeme = [b]

theorem cuts_of_isBlank (hb : Text.isBlank b = true) : Cuts b := by
  intro x lexeme h hmem
  have hblank := h.not_isBlank_of_mem b hmem
  rw [hb] at hblank
  cases hblank

/-- A sign that stands in no longer one cuts a text. -/
theorem cuts_of_sign (hb : Token.isWordPart b = false)
    (h : ∀ p ∈ Punctuation.longestFirst, b ∈ p.text.toList → p.text.toList = [b]) : Cuts b := by
  intro x lexeme hx hmem
  by_cases hword : x.isWord
  · have hpart := hx.isWordPart hword b hmem
    rw [hb] at hpart
    cases hpart
  · cases hx with
    | punctuation p => exact h p p.mem_longestFirst hmem
    | _ => exact absurd rfl hword

/-- The text starts with a character that cuts it from what stands in front. -/
def StartsCut (cs : List Char) : Prop :=
  ∃ b rest, Cuts b ∧ cs = b :: rest

theorem Cuts.startsCut (h : Cuts b) (rest : List Char) : StartsCut (b :: rest) :=
  ⟨b, rest, h, rfl⟩

/-- A lexeme in front of a text with such a character ends before it, unless it starts there. -/
theorem Spells.exists_of_append_cut {rest' : List Char} (h : x.Spells lexeme) (hb : Cuts b)
    (hcs : cs ≠ []) (heq : lexeme ++ rest' = cs ++ b :: rest) :
    ∃ more, cs = lexeme ++ more ∧ rest' = more ++ b :: rest := by
  rcases List.append_eq_append_iff.1 heq with ⟨more, rfl, rfl⟩ | ⟨more, rfl, hmore⟩
  · exact ⟨more, rfl, rfl⟩
  · cases more with
    | nil => exact ⟨[], by simp, by simpa using hmore.symm⟩
    | cons c more =>
      obtain ⟨rfl, -⟩ := List.cons.inj hmore
      obtain ⟨d, ds, rfl⟩ := List.exists_cons_of_ne_nil hcs
      have hsingle := hb x _ h (by simp)
      simp at hsingle

/-- What stands behind such a character has no say in what leads in front of it. -/
theorem leads_append_cut_iff (hb : Cuts b) :
    x.Leads lexeme (cs ++ b :: rest) ↔ x.Leads lexeme cs := by
  constructor
  · intro h
    refine ⟨h.spells, ?_, h.preferred⟩
    intro y lexeme' rest' heq hy
    refine h.longest y lexeme' (rest' ++ b :: rest) ?_ hy
    rw [← List.append_assoc, heq, List.append_assoc]
  · intro h
    refine ⟨h.spells, ?_, h.preferred⟩
    intro y lexeme' rest' heq hy
    rw [← List.append_assoc] at heq
    have hne : lexeme ++ cs ≠ [] := List.append_ne_nil_of_left_ne_nil h.spells.ne_nil cs
    obtain ⟨more, hmore, -⟩ := hy.exists_of_append_cut hb hne heq
    exact h.longest y lexeme' more hmore.symm hy

end Terminal

namespace Token

open Terminal

variable {b : Char} {offset : Nat}

/-- What is read in front of a character that cuts a text does not depend on what stands behind
it. -/
theorem lexeme?_append_cut (hb : Cuts b) {cs : List Char} (hcs : cs ≠ []) (rest : List Char) :
    lexeme? (cs ++ b :: rest) = lexeme? cs := by
  cases hfound : lexeme? cs with
  | some found =>
    obtain ⟨x, n⟩ := found
    obtain ⟨lexeme, more, rfl, rfl, hleads⟩ := exists_leads_of_lexeme? hfound
    rw [List.append_assoc, lexeme?_eq_some_iff, leads_append_cut_iff hb]
    exact hleads
  | none =>
    rw [Option.eq_none_iff_forall_not_mem]
    rintro ⟨x, n⟩ hmem
    obtain ⟨lexeme, rest', heq, -, hleads⟩ := exists_leads_of_lexeme? hmem
    -- the lexeme ends before the character, so it is found without it
    obtain ⟨more, rfl, rfl⟩ := hleads.spells.exists_of_append_cut hb hcs heq.symm
    rw [leads_append_cut_iff hb, ← lexeme?_eq_some_iff, hfound] at hleads
    cases hleads

/-! ## Scanning part by part -/

/-- Blanks at the front are skipped. -/
theorem scanFrom_blanks {blanks : List Char} (h : ∀ c ∈ blanks, Text.isBlank c = true)
    (rest : List Char) :
    scanFrom offset (blanks ++ rest) = scanFrom (offset + Text.byteLength blanks) rest := by
  induction blanks generalizing offset with
  | nil => rfl
  | cons c blanks ih =>
    obtain ⟨hc, hblanks⟩ := List.forall_mem_cons.1 h
    rw [List.cons_append, scanFrom_blank hc, ih hblanks, Text.byteLength_cons, Nat.add_assoc]

/-- A text is scanned up to a character that cuts it, and then from there on. -/
theorem scanFrom_append_cut (hb : Cuts b) (cs rest : List Char) :
    scanFrom offset (cs ++ b :: rest) = (do
      let front ← scanFrom offset cs
      let back ← scanFrom (offset + Text.byteLength cs) (b :: rest)
      return front ++ back) := by
  induction offset, cs using scan_induction with
  | nil offset =>
    rw [scanFrom, Text.byteLength_nil, Nat.add_zero]
    exact (bind_pure _).symm
  | blank offset c cs hc ih =>
    rw [List.cons_append, scanFrom_blank hc, scanFrom_blank hc, ih, Text.byteLength_cons,
      Nat.add_assoc]
  | stuck offset c cs hc hnone =>
    have hnone' : lexeme? (c :: (cs ++ b :: rest)) = none := by
      rw [← List.cons_append, lexeme?_append_cut hb (List.cons_ne_nil c cs), hnone]
    rw [List.cons_append, scanFrom_stuck hc hnone, scanFrom_stuck hc hnone']
    rfl
  | token offset x lexeme cs hx ih =>
    rw [List.append_assoc, scanFrom_token ((leads_append_cut_iff hb).2 hx), ih,
      scanFrom_token hx, Text.byteLength_append, Nat.add_assoc]
    cases scanFrom (offset + Text.byteLength lexeme) cs with
    | error bad => rfl
    | ok front => cases scanFrom _ (b :: rest) <;> rfl

/-- The tokens in front of a character that cuts a text are those of what stands there. -/
theorem Scans.append_cut {cs rest behind : List Char} {ts : List Token}
    (h : Scans offset cs ts rest) (hrest : rest = []) (hbehind : StartsCut behind) :
    Scans offset (cs ++ behind) ts behind := by
  obtain ⟨b, behind, hb, rfl⟩ := hbehind
  induction h with
  | done =>
    rw [hrest]
    exact .done
  | blank hc _ ih => exact .blank hc (ih hrest)
  | token hx _ ih =>
    rw [List.append_assoc]
    exact .token ((leads_append_cut_iff hb).2 hx) (ih hrest)

/-- A text with a blank is scanned up to the blank, and then from the blank on. -/
theorem scanFrom_append_blank (hb : Text.isBlank b = true) (cs rest : List Char) :
    scanFrom offset (cs ++ b :: rest) = (do
      let front ← scanFrom offset cs
      let back ← scanFrom (offset + Text.byteLength cs) (b :: rest)
      return front ++ back) :=
  scanFrom_append_cut (cuts_of_isBlank hb) cs rest

/-- A text that has moved as a whole is scanned as the same tokens elsewhere, or fails at the same
place elsewhere. -/
theorem scanFrom_relocate {g : Relocation} {offset' : Nat} {cs : List Char}
    (h : ∀ n ≤ Text.byteLength cs, g.place (offset + n) = offset' + n) :
    scanFrom offset' cs =
      ((scanFrom offset cs).map (List.map (Token.relocate g))).mapError g.place := by
  induction offset, cs using scan_induction generalizing offset' with
  | nil offset => rw [scanFrom, scanFrom]; rfl
  | blank offset c cs hc ih =>
    rw [scanFrom_blank hc, scanFrom_blank hc]
    refine ih fun n hn => ?_
    rw [Nat.add_assoc, Nat.add_assoc]
    exact h _ (by rw [Text.byteLength_cons]; omega)
  | stuck offset c cs hc hnone =>
    rw [scanFrom_stuck hc hnone, scanFrom_stuck hc hnone]
    exact congrArg Except.error (h 0 (Nat.zero_le _)).symm
  | token offset x lexeme cs hx ih =>
    rw [Text.byteLength_append] at h
    have hstart : g.place offset = offset' := h 0 (Nat.zero_le _)
    have hstop := h (Text.byteLength lexeme) (Nat.le_add_right _ _)
    have hrest : ∀ n ≤ Text.byteLength cs,
        g.place (offset + Text.byteLength lexeme + n) = offset' + Text.byteLength lexeme + n := by
      intro n hn
      rw [Nat.add_assoc, Nat.add_assoc]
      exact h _ (by omega)
    rw [scanFrom_token hx, scanFrom_token hx, ih hrest]
    cases scanFrom (offset + Text.byteLength lexeme) cs with
    | error bad => rfl
    | ok ts => simp [Except.map, Except.mapError, Token.relocate, hstart, hstop]

end Token

end Netlist
