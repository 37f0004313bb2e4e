/-
Texts that share pieces.

Two texts may be made of the same pieces in the same order, with other gaps between them. A strand is
a piece with the gaps that stand in front of it in either text, so a row of strands is both texts at
once, and it says where each byte of a piece has gone (`Strand.relocation`). A piece that has gone
as a whole (`Relocation.Moves`) is read as the same tokens elsewhere, and the trees over these tokens
keep their texts.
-/
import Netlist.Proofs.Fidelity
import Netlist.Proofs.Gaps
import Netlist.Proofs.Mirrors

set_option autoImplicit false

namespace Netlist

open Text (byteLength)

/-! ## Parts that move as a whole -/

/-- The part of the source that starts at one offset has gone to another offset as a whole. -/
structure Relocation.Moves (g : Relocation) (source : Source) (start : Nat) (cs : List Char)
    (start' : Nat) : Prop where
  here : ∃ before after, source.contents = before ++ cs ++ after ∧ start = byteLength before
  there : ∃ before after, g.source.contents = before ++ cs ++ after ∧ start' = byteLength before
  place : ∀ n ≤ byteLength cs, g.place (start + n) = start' + n

namespace Relocation.Moves

variable {g : Relocation} {source : Source} {start start' : Nat} {cs : List Char}
  {ts : List Token} {as : List Tree}

/-- The part is read as the same tokens elsewhere. -/
theorem scans (h : g.Moves source start cs start') (hts : Token.Scans start cs ts []) :
    Token.Scans start' cs (ts.map (Token.relocate g)) [] := by
  have hscan := Token.scanFrom_relocate h.place
  rw [hts.scanFrom_eq rfl] at hscan
  exact Token.scans_of_scanFrom hscan

/-- A range in the part has the text that it had. -/
theorem text (h : g.Moves source start cs start') (hknown : source.origin ≠ .unknown)
    {lo hi : Nat} (hlo : start ≤ lo) (hle : lo ≤ hi) (hhi : hi ≤ start + byteLength cs) :
    (g.location ⟨source, lo, hi⟩).text = (⟨source, lo, hi⟩ : Location).text := by
  obtain ⟨before, after, hhere, rfl⟩ := h.here
  obtain ⟨before', after', hthere, rfl⟩ := h.there
  obtain ⟨i, rfl⟩ := Nat.exists_eq_add_of_le hlo
  obtain ⟨j, rfl⟩ := Nat.exists_eq_add_of_le (Nat.le_trans hlo hle)
  rw [g.location_mk hknown, h.place i (by omega), h.place j (by omega)]
  exact Location.text_eq_of_shared hhere hthere i (by omega)

/-- Trees that are spread over the part keep their texts. The induction is on the trees in their
order. -/
theorem keeps {lo hi : Nat} (h : g.Moves source start cs start') (hknown : source.origin ≠ .unknown)
    (has : Tree.Spread source lo as hi) (hlo : start ≤ lo) (hhi : hi ≤ start + byteLength cs)
    (exact : Prop) : ∀ t ∈ as, g.Keeps exact t := by
  induction has with
  | nil => exact nofun
  | cons hlo' hlt _ _ _ hus ihts ihus =>
    have hstop := hus.le
    refine List.forall_mem_cons.2 ⟨.intro (fun _ => ?_) (ihts (by omega) (by omega)),
      ihus (by omega) hhi⟩
    exact h.text hknown (by omega) (Nat.le_of_lt hlt) (by omega)

/-- The trees of a phrase that the part is read as keep their texts. -/
theorem keeps_phrase {x : Grammar.Symbol} (h : g.Moves source start cs start')
    (hknown : source.origin ≠ .unknown) (d : Grammar.Phrase x)
    (hts : Token.Scans start cs d.yield []) (exact : Prop) :
    ∀ t ∈ d.trees source, g.Keeps exact t := by
  obtain ⟨before, after, hhere, hstart⟩ := h.here
  have horder := Token.InOrder.of_scans_part hts rfl hhere hstart
  have hspread := (d.built source fun _ => rfl).spread hknown horder
  exact h.keeps hknown hspread (Nat.le_refl _) (Nat.le_refl _) exact

end Relocation.Moves

/-! ## Strands -/

/-- A piece of two texts, with what stands in front of it in the one and in the other. -/
structure Strand where
  gap : List Char
  gap' : List Char
  piece : List Char

namespace Strand

/-- The one text that the strands make up. -/
def text (ss : List Strand) : List Char :=
  ss.flatMap fun s => s.gap ++ s.piece

/-- The other text that they make up. -/
def text' (ss : List Strand) : List Char :=
  ss.flatMap fun s => s.gap' ++ s.piece

/-- Where a byte of the one text has gone in the other. Within a piece it has gone with the piece. -/
def place : List Strand → Nat → Nat
  | [], n => n
  | s :: ss, n =>
    if n < byteLength s.gap then 0
    else if n ≤ byteLength (s.gap ++ s.piece) then byteLength s.gap' + (n - byteLength s.gap)
    else byteLength (s.gap' ++ s.piece) + place ss (n - byteLength (s.gap ++ s.piece))

theorem place_mono (ss : List Strand) {m n : Nat} (h : m ≤ n) : place ss m ≤ place ss n := by
  induction ss generalizing m n with
  | nil => exact h
  | cons s ss ih =>
    have hrest := @ih (m - byteLength (s.gap ++ s.piece)) (n - byteLength (s.gap ++ s.piece))
      (by omega)
    simp only [place, Text.byteLength_append] at hrest ⊢
    by_cases hm : m < byteLength s.gap
    · rw [if_pos hm]
      exact Nat.zero_le _
    · rw [if_neg hm, if_neg (c := n < byteLength s.gap) (by omega)]
      by_cases hn : n ≤ byteLength s.gap + byteLength s.piece
      · rw [if_pos hn, if_pos (by omega)]
        omega
      · rw [if_neg hn]
        split <;> omega

variable {before after ss : List Strand} {s : Strand}

/-- A piece goes as a whole, if it does not start where the piece in front of it ends. -/
theorem place_piece (h : before = [] ∨ s.gap ≠ []) {n : Nat} (hn : n ≤ byteLength s.piece) :
    place (before ++ s :: after) (byteLength (text before ++ s.gap) + n) =
      byteLength (text' before ++ s.gap') + n := by
  induction before with
  | nil =>
    simp only [List.nil_append, text, text', List.flatMap_nil, place, Text.byteLength_append]
    rw [if_neg (by omega), if_pos (by omega)]
    omega
  | cons b before ih =>
    have hgap : s.gap ≠ [] := h.resolve_left (List.cons_ne_nil b before)
    have hpos := Text.byteLength_pos hgap
    have hrest := ih (.inr hgap)
    simp only [List.cons_append, text, text', List.flatMap_cons, place, Text.byteLength_append]
      at hrest ⊢
    rw [if_neg (by omega), if_neg (by omega)]
    have hsub : byteLength b.gap + byteLength b.piece +
        byteLength (before.flatMap fun s => s.gap ++ s.piece) + byteLength s.gap + n -
          (byteLength b.gap + byteLength b.piece) =
        byteLength (before.flatMap fun s => s.gap ++ s.piece) + byteLength s.gap + n := by
      omega
    rw [hsub, hrest]
    omega

/-- The relocation from the one text to the other. -/
def relocation (source : Source) (known : source.origin ≠ .unknown) (ss : List Strand) :
    Relocation where
  source := source
  place := place ss
  known := known
  mono h := place_mono ss h

/-- Every piece moves as a whole. -/
theorem moves {source source' : Source} {known : source'.origin ≠ .unknown}
    (hsource : source.contents = text ss) (hsource' : source'.contents = text' ss)
    (hss : ss = before ++ s :: after) (h : before = [] ∨ s.gap ≠ []) :
    (relocation source' known ss).Moves source (byteLength (text before ++ s.gap)) s.piece
      (byteLength (text' before ++ s.gap')) where
  here := ⟨text before ++ s.gap, text after, by simp [hsource, hss, text], rfl⟩
  there := ⟨text' before ++ s.gap', text' after, by simp [relocation, hsource', hss, text'], rfl⟩
  place n hn := by
    rw [hss]
    exact place_piece h hn

end Strand

end Netlist
