/-
Tokens and the text that they cover.

A token holds two offsets, and what it says is looked up in the source later. This file
shows that the two belong together: between the offsets of every token that a scan returns
stands a lexeme of its terminal, and a sign is written there exactly as its terminal says
(`text_of_punctuation`).
-/
import Netlist.Source
import Netlist.Token

set_option autoImplicit false

namespace Netlist.Token

/-! ## The size of a lexeme -/

theorem length_takeWhile_add_length_dropWhile {α : Type} (p : α → Bool) (xs : List α) :
    (xs.takeWhile p).length + (xs.dropWhile p).length = xs.length := by
  rw [← List.length_append, List.takeWhile_append_dropWhile]

theorem numberLength?_bounds {cs : List Char} {n : Nat} (h : numberLength? cs = some n) :
    0 < n ∧ n ≤ cs.length := by
  have hlen := length_takeWhile_add_length_dropWhile Char.isDigit cs
  have hplain : ∀ size : Nat, size = (cs.takeWhile Char.isDigit).length →
      (if size = 0 then none else some size) = some n → 0 < n ∧ n ≤ cs.length := by
    intro size hsize hn
    split at hn
    · cases hn
    · cases hn
      omega
  unfold numberLength? at h
  dsimp only at h
  split at h
  · next tick letter digits hrest =>
    split at h
    · have hbased := length_takeWhile_add_length_dropWhile Literal.isBasedDigit digits
      rw [hrest, List.length_cons, List.length_cons] at hlen
      cases h
      omega
    · exact hplain _ rfl h
  · exact hplain _ rfl h

theorem text_ne_nil (p : Punctuation) : 0 < p.text.length := by
  cases p <;> decide

theorem text_prefix_of_ofChars? {cs : List Char} {p : Punctuation}
    (h : Punctuation.ofChars? cs = some p) : p.text.toList <+: cs := by
  have htest := List.find?_some h
  exact List.isPrefixOf_iff_prefix.1 htest

/-- A lexeme takes at least one character and no more than there are. -/
theorem lexeme?_bounds {cs : List Char} {terminal : Terminal} {n : Nat}
    (h : lexeme? cs = some (terminal, n)) : 0 < n ∧ n ≤ cs.length := by
  cases cs with
  | nil => cases h
  | cons c cs =>
    rw [lexeme?] at h
    split at h
    · have hlen := (List.takeWhile_prefix isIdentifierPart (l := cs)).length_le
      dsimp only at h
      split at h <;> cases h <;> simp only [List.length_cons] <;> omega
    · split at h
      · next size hsize =>
        cases h
        exact numberLength?_bounds hsize
      · obtain ⟨p, hp, heq⟩ := Option.map_eq_some_iff.1 h
        cases heq
        refine ⟨text_ne_nil p, ?_⟩
        rw [← String.length_toList]
        exact (text_prefix_of_ofChars? hp).length_le

/-! ## What a scan returns -/

/-- Between the offsets of the token stands a lexeme of its terminal. -/
def ReadFrom (cs : List Char) (t : Token) : Prop :=
  ∃ before lexeme after, cs = before ++ lexeme ++ after ∧
    t.start = Text.byteLength before ∧ t.stop = t.start + Text.byteLength lexeme ∧
    lexeme? (lexeme ++ after) = some (t.terminal, lexeme.length)

/-- Every token of a scan is read off the text. The induction is on the characters that are
left; `before` are those that have been read. -/
theorem readFrom_of_scanFrom {offset : Nat} {before cs : List Char} {ts : List Token}
    (hoffset : offset = Text.byteLength before) (h : scanFrom offset cs = .ok ts) :
    ∀ t ∈ ts, ReadFrom (before ++ cs) t := by
  fun_induction scanFrom offset cs generalizing before ts with
  | case1 offset =>
    cases h
    simp
  | case2 offset c cs hblank ih =>
    have hnext : offset + c.utf8Size = Text.byteLength (before ++ [c]) := by
      rw [hoffset, Text.byteLength_append, Text.byteLength_cons, Text.byteLength_nil, Nat.add_zero]
    have hread := ih hnext h
    rwa [List.append_assoc, List.singleton_append] at hread
  | case3 => cases h
  | case4 offset c cs hblank terminal size hlex more stop tokens =>
    rename_i hrest ih
    cases h
    obtain ⟨hpos, hle⟩ := lexeme?_bounds hlex
    -- the lexeme is the first `size` characters; the scan goes on behind it
    have hmore : more ++ cs.drop (size - 1) = cs := List.take_append_drop _ _
    have hsize : (c :: more).length = size := by
      rw [List.length_cons, List.length_take]
      rw [List.length_cons] at hle
      omega
    have hstop : stop = Text.byteLength (before ++ c :: more) := by
      rw [Text.byteLength_append, ← hoffset]
    intro t ht
    rcases List.mem_cons.1 ht with rfl | ht
    · refine ⟨before, c :: more, cs.drop (size - 1), ?_, hoffset, rfl, ?_⟩
      · rw [List.append_assoc, List.cons_append, hmore]
      · rw [List.cons_append, hmore, hsize]
        exact hlex
    · have hread := ih hstop hrest t ht
      rwa [List.append_assoc, List.cons_append, hmore] at hread
  | case5 => cases h

theorem readFrom_of_scan {cs : List Char} {ts : List Token} (h : scan cs = .ok ts) :
    ∀ t ∈ ts, ReadFrom cs t :=
  readFrom_of_scanFrom Text.byteLength_nil.symm h

/-! ## What a token says -/

theorem lexeme_of_punctuation {lexeme after : List Char} {p : Punctuation}
    (h : lexeme? (lexeme ++ after) = some (.punctuation p, lexeme.length)) :
    lexeme = p.text.toList := by
  cases hcs : lexeme ++ after with
  | nil =>
    rw [hcs] at h
    cases h
  | cons c cs =>
    rw [hcs, lexeme?] at h
    split at h
    · dsimp only at h
      split at h <;> cases h
    · split at h
      · cases h
      · obtain ⟨q, hq, heq⟩ := Option.map_eq_some_iff.1 h
        rw [Prod.mk.injEq, Terminal.punctuation.injEq] at heq
        obtain ⟨rfl, hlen⟩ := heq
        have hprefix := text_prefix_of_ofChars? hq
        rw [← hcs] at hprefix
        -- two prefixes of one text that are equally long are equal
        rw [← String.length_toList] at hlen
        rw [List.prefix_iff_eq_take.1 hprefix, hlen, List.take_left]

/-- The text between the offsets of a sign is the sign. -/
theorem text_of_punctuation {source : Source} {t : Token} {p : Punctuation}
    (ht : t.ReadFrom source.contents) (hp : t.terminal = .punctuation p) :
    (⟨source, t.start, t.stop⟩ : Location).text = p.text := by
  obtain ⟨before, lexeme, after, hsplit, hstart, hstop, hlex⟩ := ht
  rw [hp] at hlex
  rw [Location.text, hsplit, hstop, hstart, Text.slice?_append]
  exact (congrArg String.ofList (lexeme_of_punctuation hlex)).trans (String.ofList_toList)

end Netlist.Token
