/-
Comments are blanks.

Blanks that are put in behind a blank move what stands behind them, and change nothing else: no
lexeme goes over a blank, so the tokens are the same ones elsewhere (`scan_gap`), each with the text
that it had (`text_location_gap`). A comment is blanks, so a module loads alike with the comment and
without it (`load_comment`). Only texts of whole nodes are not the same: they are shown with the
blanks in them.
-/
import Netlist.Proofs.Fidelity
import Netlist.Proofs.Gaps
import Netlist.Proofs.RelocatedLoading
import Netlist.Proofs.Stripping

set_option autoImplicit false

namespace Netlist

/-- Everything from an offset on moves back by a width. -/
def Relocation.gap (source : Source) (known : source.origin ≠ .unknown) (offset width : Nat) :
    Relocation where
  source := source
  place n := if n < offset then n else n + width
  known := known
  mono := by
    intro a b hab
    split <;> split <;> omega

section Gap

variable {source source' : Source} {known : source'.origin ≠ .unknown}
  {front blanks back : List Char} {b : Char}

@[simp] theorem source_gap (offset width : Nat) :
    (Relocation.gap source' known offset width).source = source' := rfl

theorem place_gap_front {offset width n : Nat} (h : n < offset) :
    (Relocation.gap source' known offset width).place n = n :=
  if_pos h

theorem place_gap_back (offset width n : Nat) :
    (Relocation.gap source' known offset width).place (offset + n) = offset + width + n := by
  have hplace : (Relocation.gap source' known offset width).place (offset + n) =
      offset + n + width := if_neg (by omega)
  rw [hplace]
  omega

/-! ## Tokens around a gap -/

namespace Token

/-- Blanks behind a blank change no token. -/
theorem scan_gap (hb : Text.isBlank b = true) (hblanks : ∀ c ∈ blanks, Text.isBlank c = true)
    {g : Relocation} (hg : g = .gap source' known (Text.byteLength front + b.utf8Size)
      (Text.byteLength blanks)) :
    scan (front ++ b :: (blanks ++ back)) =
      ((scan (front ++ b :: back)).map (List.map (Token.relocate g))).mapError g.place := by
  have hpos : 0 < b.utf8Size := Char.utf8Size_pos b
  have hfront : ∀ n ≤ Text.byteLength front, g.place (0 + n) = 0 + n := by
    intro n hn
    rw [Nat.zero_add, hg]
    exact place_gap_front (by omega)
  have hback : ∀ n ≤ Text.byteLength back,
      g.place (Text.byteLength front + b.utf8Size + n) =
        Text.byteLength front + b.utf8Size + Text.byteLength blanks + n := by
    intro n _
    rw [hg, place_gap_back]
  have hscanFront := scanFrom_relocate hfront
  have hscanBack := scanFrom_relocate hback
  unfold scan
  rw [scanFrom_append_blank hb, scanFrom_append_blank hb, scanFrom_blank hb, scanFrom_blank hb,
    scanFrom_blanks hblanks, Nat.zero_add, hscanBack]
  -- the tokens in front are their own image, and so is a fault there
  cases hfound : scanFrom 0 front with
  | error bad =>
    rw [hfound] at hscanFront
    exact hscanFront
  | ok ts =>
    rw [hfound] at hscanFront
    have hts : ts = ts.map (Token.relocate g) := Except.ok.inj hscanFront
    cases scanFrom (Text.byteLength front + b.utf8Size) back with
    | error bad => rfl
    | ok us =>
      refine congrArg Except.ok ?_
      rw [List.map_append, ← hts]

/-- A token stands in front of the blank or behind it. -/
theorem sides_of_scan {ts : List Token} (hb : Text.isBlank b = true)
    (h : scan (front ++ b :: back) = .ok ts) : ∀ t ∈ ts, t.start < t.stop ∧
      (t.stop ≤ Text.byteLength front ∨ Text.byteLength front + b.utf8Size ≤ t.start ∧
        t.stop ≤ Text.byteLength front + b.utf8Size + Text.byteLength back) := by
  unfold scan at h
  rw [scanFrom_append_blank hb, scanFrom_blank hb, Nat.zero_add] at h
  obtain ⟨fs, hfs, h⟩ := exists_of_bind_eq_ok h
  obtain ⟨bs, hbs, h⟩ := exists_of_bind_eq_ok h
  cases h
  have hfront : (Source.ofChars front).contents = [] ++ front := rfl
  have hback : (Source.ofChars (front ++ b :: back)).contents = front ++ [b] ++ back :=
    List.append_cons front b back
  have horder := InOrder.of_scans (scans_of_scanFrom hfs) rfl hfront rfl
  have horder' := InOrder.of_scans (scans_of_scanFrom hbs) rfl hback (by simp)
  refine List.forall_mem_append.2 ⟨?_, ?_⟩
  · intro t ht
    obtain ⟨-, hlt, hstop⟩ := horder.bounds t ht
    exact ⟨hlt, .inl hstop⟩
  · intro t ht
    obtain ⟨hstart, hlt, hstop⟩ := horder'.bounds t ht
    rw [Source.byteLength, hback, Text.byteLength_append] at hstop
    refine ⟨hlt, .inr ⟨hstart, ?_⟩⟩
    simpa [Nat.add_assoc] using hstop

end Token

/-- What stands on one side of the gap has the text that it had. -/
theorem text_location_gap (hknown : source.origin ≠ .unknown)
    (hsource : source.contents = front ++ b :: back)
    (hsource' : source'.contents = front ++ b :: (blanks ++ back)) {start stop : Nat}
    (hlt : start < stop)
    (h : stop ≤ Text.byteLength front ∨ Text.byteLength front + b.utf8Size ≤ start ∧
      stop ≤ Text.byteLength front + b.utf8Size + Text.byteLength back) :
    ((Relocation.gap source' known (Text.byteLength front + b.utf8Size)
        (Text.byteLength blanks)).location ⟨source, start, stop⟩).text =
      (⟨source, start, stop⟩ : Location).text := by
  have hpos : 0 < b.utf8Size := Char.utf8Size_pos b
  rw [Relocation.location_mk _ hknown, source_gap]
  rcases h with h | ⟨hstart, hstop⟩
  · have hshared : source.contents = [] ++ front ++ b :: back := hsource
    have hshared' : source'.contents = [] ++ front ++ b :: (blanks ++ back) := hsource'
    have htext := Location.text_eq_of_shared hshared hshared' start h
    have hstop : stop < Text.byteLength front + b.utf8Size := by omega
    rw [place_gap_front hstop, place_gap_front (Nat.lt_trans hlt hstop)]
    simpa using htext
  · obtain ⟨i, rfl⟩ := Nat.exists_eq_add_of_le hstart
    obtain ⟨j, rfl⟩ := Nat.exists_eq_add_of_le (Nat.le_trans hstart (Nat.le_of_lt hlt))
    have hshared : source.contents = front ++ [b] ++ back ++ [] := by simp [hsource]
    have hshared' : source'.contents = front ++ [b] ++ blanks ++ back ++ [] := by simp [hsource']
    have htext := Location.text_eq_of_shared hshared hshared' i (Nat.le_of_add_le_add_left hstop)
    rw [place_gap_back, place_gap_back]
    simpa [Nat.add_assoc] using htext

/-! ## Files with a gap -/

namespace Grammar

/-- A text with a gap is read as the same file elsewhere. -/
theorem parseFile_gap (hknown : source.origin ≠ .unknown)
    (hsource : source.contents = front ++ b :: back)
    (hsource' : source'.contents = front ++ b :: (blanks ++ back)) (hb : Text.isBlank b = true)
    (hblanks : ∀ c ∈ blanks, Text.isBlank c = true) {g : Relocation}
    (hg : g = .gap source' known (Text.byteLength front + b.utf8Size) (Text.byteLength blanks)) :
    parseFile source' =
      ((parseFile source).map (Tree.relocate g)).mapError (ParseError.relocate g) := by
  have hpos : 0 < b.utf8Size := Char.utf8Size_pos b
  have hgsource : g.source = source' := by rw [hg, source_gap]
  have hcovers : g.CoversText source := by
    refine ⟨hknown, ?_, ?_⟩
    · rw [hg]
      exact place_gap_front (by omega)
    · have hlength : source.byteLength =
          Text.byteLength front + b.utf8Size + Text.byteLength back := by
        simp [Source.byteLength, hsource, Nat.add_assoc]
      have hlength' : source'.byteLength =
          Text.byteLength front + b.utf8Size + Text.byteLength blanks + Text.byteLength back := by
        simp [Source.byteLength, hsource', Nat.add_assoc]
      rw [hgsource, hlength, hlength', hg, place_gap_back]
  have htokens : tokens g.source =
      ((tokens source).map (List.map (Token.relocate g))).mapError (ParseError.relocate g) := by
    rw [hgsource, tokens, tokens, hsource, hsource', Token.scan_gap hb hblanks hg]
    cases Token.scan (front ++ b :: back) with
    | ok ts => rfl
    | error bad =>
      refine congrArg Except.error ?_
      rw [ParseError.invalid, ParseError.invalid, ParseError.relocate_mk g hknown, hgsource]
  have hparse := parseFile_relocate g hcovers htokens
  rwa [hgsource] at hparse

/-- The words of a file have the text that they had. -/
theorem keeps_gap (hknown : source.origin ≠ .unknown)
    (hsource : source.contents = front ++ b :: back)
    (hsource' : source'.contents = front ++ b :: (blanks ++ back)) (hb : Text.isBlank b = true)
    {g : Relocation}
    (hg : g = .gap source' known (Text.byteLength front + b.utf8Size) (Text.byteLength blanks))
    {root : Tree} (hroot : parseFile source = .ok root) :
    ∀ t ∈ root.children, g.Keeps False t := by
  obtain ⟨ts, hts, ds, hyield, rfl⟩ := exists_phrase_of_parseFile hroot
  have hbuilt : Built source true ds.yield (ds.trees source) := ds.built source fun _ => rfl
  rw [hyield] at hbuilt
  have hscan : Token.scan (front ++ b :: back) = .ok ts := by
    rw [← hsource]
    exact Token.scan_eq_ok_iff.2 hts
  have htext : ∀ t ∈ ts, (g.location ⟨source, t.start, t.stop⟩).text =
      (⟨source, t.start, t.stop⟩ : Location).text := by
    intro t ht
    obtain ⟨hlt, hside⟩ := Token.sides_of_scan hb hscan t ht
    rw [hg]
    exact text_location_gap hknown hsource hsource' hlt hside
  intro t ht
  have hleaf := hbuilt.everywhere_leaf (P := fun l => (g.location l).text = l.text) htext t ht
  exact hleaf.imp fun node h hnode => h (hnode.resolve_left id)

end Grammar

/-! ## Loading a text with a gap -/

namespace Module

/-- Blanks behind a blank do not show once comments are blanked. -/
theorem alike_of_gap (hknown : source.origin ≠ .unknown) (hknown' : source'.origin ≠ .unknown)
    (hsource : Comment.strip source.contents = front ++ b :: back)
    (hsource' : Comment.strip source'.contents = front ++ b :: (blanks ++ back))
    (hb : Text.isBlank b = true) (hblanks : ∀ c ∈ blanks, Text.isBlank c = true)
    (top : Option String) : Alike (load source top).run (load source' top).run := by
  have hknown : (codeOf source).origin ≠ .unknown := hknown
  have hsource : (codeOf source).contents = front ++ b :: back := hsource
  have hsource' : (codeOf source').contents = front ++ b :: (blanks ++ back) := hsource'
  obtain ⟨g, hg⟩ : ∃ g, g = Relocation.gap (codeOf source') hknown'
      (Text.byteLength front + b.utf8Size) (Text.byteLength blanks) := ⟨_, rfl⟩
  have hkeeps : ∀ root, Grammar.parseFile (codeOf source) = .ok root →
      ∀ t ∈ root.children, g.Keeps False t :=
    fun _ hroot => Grammar.keeps_gap hknown hsource hsource' hb hg hroot
  have hparse := Grammar.parseFile_gap hknown hsource hsource' hb hblanks hg
  exact alike_of_mirrors (mirrors_load hparse hkeeps top)

end Module

end Gap

namespace Module

/-- Comments are blanks. Behind a blank at which no comment is open, a comment with closing signs
can be left out, and so can one that ends with its line, up to the end of the line. Whatever else
stands in the text, the module is the same but for the places of its wires, or the error is the same
but for its place, and as many diagnostics are recorded, each as serious. -/
theorem load_comment (p c q : String) (top : Option String)
    (hblank : ∃ b ∈ p.toList.getLast?, Text.isBlank b = true)
    (hclosed : ∀ x, Comment.strip (p.toList ++ x) = Comment.strip p.toList ++ Comment.strip x) :
    (¬ "*/".toList <:+: c.toList →
      Alike (load (.ofText (p ++ q)) top).run
        (load (.ofText (p ++ "/*" ++ c ++ "*/" ++ q)) top).run) ∧
    ('\n' ∉ c.toList →
      Alike (load (.ofText (p ++ "\n" ++ q)) top).run
        (load (.ofText (p ++ "//" ++ c ++ "\n" ++ q)) top).run) := by
  have hknown : ∀ s, (Source.ofText s).origin ≠ .unknown := by
    intro s hs
    cases hs
  obtain ⟨b, hlast, hb⟩ := hblank
  obtain ⟨init, hp⟩ := List.getLast?_eq_some_iff.1 hlast
  obtain ⟨front, last, hstrip, hlast⟩ := Comment.exists_stripFrom_concat .code init hb
  rw [← hp] at hstrip
  have hcut : ∀ x, Comment.strip (p.toList ++ x) = front ++ last :: Comment.strip x := by
    intro x
    rw [hclosed, Comment.strip, hstrip, List.append_assoc, List.singleton_append]
  refine ⟨fun hc => ?_, fun hc => ?_⟩
  · obtain ⟨blanks, hblanks, hcomment⟩ := Comment.exists_strip_block hc q.toList
    have hbare : Comment.strip (Source.ofText (p ++ q)).contents =
        front ++ last :: Comment.strip q.toList := by
      rw [Source.ofText, String.toList_append, hcut]
    have hfull : Comment.strip (Source.ofText (p ++ "/*" ++ c ++ "*/" ++ q)).contents =
        front ++ last :: (blanks ++ Comment.strip q.toList) := by
      rw [← hcomment, ← hcut]
      simp [Source.ofText]
    exact alike_of_gap (hknown _) (hknown _) hbare hfull hlast hblanks top
  · obtain ⟨blanks, hblanks, hcomment⟩ := Comment.exists_strip_line hc q.toList
    have hbare : Comment.strip (Source.ofText (p ++ "\n" ++ q)).contents =
        front ++ last :: '\n' :: Comment.strip q.toList := by
      rw [← Comment.strip_newline, ← hcut]
      simp [Source.ofText]
    have hfull : Comment.strip (Source.ofText (p ++ "//" ++ c ++ "\n" ++ q)).contents =
        front ++ last :: (blanks ++ '\n' :: Comment.strip q.toList) := by
      rw [← hcomment, ← hcut]
      simp [Source.ofText]
    exact alike_of_gap (hknown _) (hknown _) hbare hfull hlast hblanks top

/-- A text up to the end of a comment, in which two words of a module still miss. -/
def noteFront : String :=
  "module m(input a, output y); // in / out\n"

/-- What follows. -/
def noteBack : String :=
  "assign y = a; endmodule"

/-- A note with signs that open comments, which close nothing. -/
def note : String :=
  "* é /* // **"

/-- The note changes nothing, in either form of comment. -/
theorem load_comment_note :
    (∃ b ∈ noteFront.toList.getLast?, Text.isBlank b = true) ∧
    (∀ x, Comment.strip (noteFront.toList ++ x) =
      Comment.strip noteFront.toList ++ Comment.strip x) ∧
    ¬ "*/".toList <:+: note.toList ∧ '\n' ∉ note.toList ∧
    (load (.ofText (noteFront ++ noteBack)) none).run.value.isOk = true ∧
    Alike (load (.ofText (noteFront ++ noteBack)) none).run
      (load (.ofText (noteFront ++ "/*" ++ note ++ "*/" ++ noteBack)) none).run ∧
    Alike (load (.ofText (noteFront ++ "\n" ++ noteBack)) none).run
      (load (.ofText (noteFront ++ "//" ++ note ++ "\n" ++ noteBack)) none).run := by
  have hblank : ∃ b ∈ noteFront.toList.getLast?, Text.isBlank b = true := ⟨'\n', rfl, rfl⟩
  have hclosed : ∀ x, Comment.strip (noteFront.toList ++ x) =
      Comment.strip noteFront.toList ++ Comment.strip x := fun x => rfl
  have hblock : ¬ "*/".toList <:+: note.toList := by decide
  have hline : '\n' ∉ note.toList := by decide
  have halike := load_comment noteFront note noteBack none hblank hclosed
  exact ⟨hblank, hclosed, hblock, hline, by decide +kernel, halike.1 hblock, halike.2 hline⟩

end Module

end Netlist
