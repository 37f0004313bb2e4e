/-
Where the comments of a text are, and what is left without them.

The comments of a text are what a scan from left to right finds (`CommentSpans`): a line comment
ends before the next line break, and a block comment behind the first star and slash that stand
behind its opening signs, or with the text. There is one such scan (`CommentSpans.exists`,
`CommentSpans.unique`). Blanking follows it. What stands outside of the comments stays in its place,
and in place of a comment stand as many blanks as it has bytes, but for its line breaks
(`CommentSpans.shows`). No sign that opens a comment is left, and no line break is lost or won, so
that a place has the same line and column as before.
-/
import Netlist.Proofs.Stripping

set_option autoImplicit false

namespace Netlist

/-! ## Places of characters -/

namespace Text

variable {as bs cs : List Char} {b c d : Char} {p q : Nat}

/-- The character stands at the byte offset. -/
def StandsAt (cs : List Char) (p : Nat) (c : Char) : Prop :=
  ∃ before after, cs = before ++ c :: after ∧ byteLength before = p

theorem standsAt_head (c : Char) (cs : List Char) : StandsAt (c :: cs) 0 c :=
  ⟨[], cs, rfl, rfl⟩

theorem StandsAt.append_left (h : StandsAt as p c) (bs : List Char) : StandsAt (as ++ bs) p c := by
  obtain ⟨before, after, rfl, hp⟩ := h
  exact ⟨before, after ++ bs, by simp, hp⟩

theorem StandsAt.append_right (h : StandsAt bs p c) (as : List Char) :
    StandsAt (as ++ bs) (byteLength as + p) c := by
  obtain ⟨before, after, rfl, rfl⟩ := h
  exact ⟨as ++ before, after, by simp, by simp⟩

theorem standsAt_append_iff : StandsAt (as ++ bs) p c ↔
    StandsAt as p c ∨ ∃ q, p = byteLength as + q ∧ StandsAt bs q c := by
  constructor
  · rintro ⟨before, after, heq, rfl⟩
    rcases List.append_eq_append_iff.1 heq with ⟨front, rfl, hbs⟩ | ⟨back, rfl, hback⟩
    · exact .inr ⟨byteLength front, byteLength_append _ _, front, after, hbs, rfl⟩
    · cases back with
      | nil => exact .inr ⟨0, by simp, [], after, hback.symm, rfl⟩
      | cons d back =>
        obtain ⟨rfl, rfl⟩ := List.cons.inj hback
        exact .inl ⟨before, back, rfl, rfl⟩
  · rintro (h | ⟨q, rfl, h⟩)
    · exact h.append_left bs
    · exact h.append_right as

theorem not_standsAt_nil : ¬ StandsAt [] p c := by
  rintro ⟨before, after, heq, -⟩
  simp at heq

theorem standsAt_cons_iff : StandsAt (d :: cs) p c ↔
    (p = 0 ∧ d = c) ∨ ∃ q, p = d.utf8Size + q ∧ StandsAt cs q c := by
  have hsingle : StandsAt [d] p c ↔ p = 0 ∧ d = c := by
    constructor
    · rintro ⟨before, after, heq, rfl⟩
      cases before with
      | nil => exact ⟨rfl, (List.cons.inj heq).1⟩
      | cons e before => simp at heq
    · rintro ⟨rfl, rfl⟩
      exact standsAt_head d []
  rw [← List.singleton_append, standsAt_append_iff, hsingle]
  simp

/-- A character stands before the end of the text. -/
theorem StandsAt.lt_byteLength (h : StandsAt cs p c) : p < byteLength cs := by
  obtain ⟨before, after, rfl, rfl⟩ := h
  have hpos := Char.utf8Size_pos c
  rw [byteLength_append, byteLength_cons]
  omega

/-- At every place of a row of blanks a blank stands. -/
theorem standsAt_replicate_iff {n : Nat} :
    StandsAt (List.replicate n ' ') p c ↔ p < n ∧ c = ' ' := by
  have hsize : Char.utf8Size ' ' = 1 := rfl
  induction n generalizing p with
  | zero => simp [not_standsAt_nil]
  | succ n ih =>
    rw [List.replicate_succ, standsAt_cons_iff, hsize]
    constructor
    · rintro (⟨rfl, rfl⟩ | ⟨q, rfl, hq⟩)
      · exact ⟨Nat.succ_pos n, rfl⟩
      · obtain ⟨hlt, rfl⟩ := ih.1 hq
        exact ⟨by omega, rfl⟩
    · rintro ⟨hlt, rfl⟩
      rcases Nat.eq_zero_or_pos p with rfl | hpos
      · exact .inl ⟨rfl, rfl⟩
      · exact .inr ⟨p - 1, by omega, ih.2 ⟨by omega, rfl⟩⟩

end Text

namespace Comment

open Text (StandsAt byteLength)

variable {b c : Char} {cs body rest : List Char} {o p : Nat}

/-! ## Blanks in place of characters -/

@[simp] theorem byteLength_blank (c : Char) : byteLength (blank c) = c.utf8Size := by
  unfold blank
  split
  · next hc =>
    subst hc
    rfl
  · induction c.utf8Size with
    | zero => rfl
    | succ n ih =>
      rw [List.replicate_succ, Text.byteLength_cons, ih]
      exact Nat.add_comm 1 n

@[simp] theorem byteLength_blanked (cs : List Char) : byteLength (blanked cs) = byteLength cs := by
  induction cs with
  | nil => rfl
  | cons c cs ih => simp [ih]

/-- In place of a line break stands a line break, and in place of any other character a blank for
each of its bytes. -/
theorem standsAt_blank_iff :
    StandsAt (blank c) p b ↔ p < c.utf8Size ∧ b = if c = '\n' then '\n' else ' ' := by
  unfold blank
  split
  · next hc =>
    subst hc
    have hsize : Char.utf8Size '\n' = 1 := rfl
    rw [Text.standsAt_cons_iff, hsize]
    simp only [Text.not_standsAt_nil, and_false, exists_false, or_false, Nat.lt_one_iff, eq_comm]
  · exact Text.standsAt_replicate_iff

theorem standsAt_blanked (h : StandsAt cs p c) {q : Nat} (hp : p ≤ q) (hq : q < p + c.utf8Size) :
    StandsAt (blanked cs) q (if c = '\n' then '\n' else ' ') := by
  obtain ⟨before, after, rfl, rfl⟩ := h
  obtain ⟨d, rfl⟩ := Nat.exists_eq_add_of_le hp
  have hblank : StandsAt (blank c) d (if c = '\n' then '\n' else ' ') :=
    standsAt_blank_iff.2 ⟨by omega, rfl⟩
  have hplace := (hblank.append_left (blanked after)).append_right (blanked before)
  rw [byteLength_blanked] at hplace
  have hsplit : blanked (before ++ c :: after) = blanked before ++ (blank c ++ blanked after) := by
    simp [blanked]
  rwa [hsplit]

/-! ## The spans of the comments -/

/-- The text starts with two slashes, or with a slash and a star. -/
def Opens (cs : List Char) : Prop :=
  ['/', '/'] <+: cs ∨ ['/', '*'] <+: cs

theorem opens_line (cs : List Char) : Opens ('/' :: '/' :: cs) :=
  .inl ⟨cs, rfl⟩

theorem opens_block (cs : List Char) : Opens ('/' :: '*' :: cs) :=
  .inr ⟨cs, rfl⟩

/-- The comments that a scan from left to right finds in a text that starts at the given offset,
each by the offsets where it starts and ends. -/
inductive CommentSpans : Nat → List Char → List (Nat × Nat) → Prop
  | done {o : Nat} : CommentSpans o [] []
  /-- A character with which no comment starts. -/
  | keep {o : Nat} {c : Char} {rest : List Char} {spans : List (Nat × Nat)} :
      ¬ Opens (c :: rest) → CommentSpans (o + c.utf8Size) rest spans →
      CommentSpans o (c :: rest) spans
  /-- A comment up to the end of the line or of the text. -/
  | line {o : Nat} {body rest : List Char} {spans : List (Nat × Nat)} :
      '\n' ∉ body → (rest = [] ∨ rest.head? = some '\n') →
      CommentSpans (o + byteLength ('/' :: '/' :: body)) rest spans →
      CommentSpans o ('/' :: '/' :: (body ++ rest))
        ((o, o + byteLength ('/' :: '/' :: body)) :: spans)
  /-- A comment through its closing signs. -/
  | block {o : Nat} {body rest : List Char} {spans : List (Nat × Nat)} :
      ¬ ['*', '/'] <:+: body →
      CommentSpans (o + byteLength ('/' :: '*' :: (body ++ ['*', '/']))) rest spans →
      CommentSpans o ('/' :: '*' :: (body ++ '*' :: '/' :: rest))
        ((o, o + byteLength ('/' :: '*' :: (body ++ ['*', '/']))) :: spans)
  /-- A comment without closing signs. -/
  | unclosed {o : Nat} {body : List Char} : ¬ ['*', '/'] <:+: body →
      CommentSpans o ('/' :: '*' :: body) [(o, o + byteLength ('/' :: '*' :: body))]

/-- The offset lies in one of the spans. -/
def Within (spans : List (Nat × Nat)) (p : Nat) : Prop :=
  ∃ span ∈ spans, span.1 ≤ p ∧ p < span.2

/-! ### There is one scan -/

/-- The closing signs that come first. -/
theorem exists_first_closing (h : ['*', '/'] <:+: cs) :
    ∃ body rest, cs = body ++ '*' :: '/' :: rest ∧ ¬ ['*', '/'] <:+: body := by
  induction cs with
  | nil => simp at h
  | cons c cs ih =>
    by_cases hhead : ['*', '/'] <+: c :: cs
    · obtain ⟨rest, hrest⟩ := hhead
      exact ⟨[], rest, hrest.symm, by simp⟩
    · obtain ⟨body, rest, rfl, hbody⟩ := ih ((List.infix_cons_iff.1 h).resolve_left hhead)
      refine ⟨c :: body, rest, rfl, fun hclosing => ?_⟩
      rcases List.infix_cons_iff.1 hclosing with ⟨more, hmore⟩ | hclosing
      · exact hhead ⟨more ++ '*' :: '/' :: rest, by rw [← List.append_assoc, hmore]; rfl⟩
      · exact hbody hclosing

/-- If closing signs stand behind a row and others further behind, the longer row holds the first
ones. -/
theorem eq_nil_of_closing {front more others others' : List Char}
    (h : ¬ ['*', '/'] <:+: front ++ more)
    (heq : '*' :: '/' :: others = more ++ '*' :: '/' :: others') : more = [] := by
  match more with
  | [] => rfl
  | [c] => simp at heq
  | c :: d :: more =>
    simp only [List.cons_append, List.cons.injEq] at heq
    obtain ⟨rfl, rfl, -⟩ := heq
    exact absurd ⟨front, more, by simp⟩ h

theorem eq_of_first_closing {body' rest' : List Char} (h : ¬ ['*', '/'] <:+: body)
    (h' : ¬ ['*', '/'] <:+: body')
    (heq : body ++ '*' :: '/' :: rest = body' ++ '*' :: '/' :: rest') :
    body = body' ∧ rest = rest' := by
  rcases List.append_eq_append_iff.1 heq with ⟨more, rfl, hrest⟩ | ⟨more, rfl, hrest⟩
  · obtain rfl := eq_nil_of_closing h' hrest
    simpa using heq
  · obtain rfl := eq_nil_of_closing h hrest
    simpa using heq

/-- The end of the line, or of the text. -/
theorem exists_first_newline (cs : List Char) :
    ∃ body rest, cs = body ++ rest ∧ '\n' ∉ body ∧ (rest = [] ∨ rest.head? = some '\n') := by
  induction cs with
  | nil => exact ⟨[], [], rfl, List.not_mem_nil, .inl rfl⟩
  | cons c cs ih =>
    by_cases hc : c = '\n'
    · exact ⟨[], c :: cs, rfl, List.not_mem_nil, .inr (congrArg some hc)⟩
    · obtain ⟨body, rest, rfl, hbody, hrest⟩ := ih
      exact ⟨c :: body, rest, rfl, List.not_mem_cons_of_ne_of_not_mem (Ne.symm hc) hbody, hrest⟩

/-- What stands before the end of a line. -/
theorem eq_of_first_newline {body' rest' : List Char} (h : '\n' ∉ body) (h' : '\n' ∉ body')
    (hrest : rest = [] ∨ rest.head? = some '\n') (hrest' : rest' = [] ∨ rest'.head? = some '\n')
    (heq : body ++ rest = body' ++ rest') : body = body' ∧ rest = rest' := by
  have hfront : ∀ {as bs : List Char}, '\n' ∉ as → (bs = [] ∨ bs.head? = some '\n') →
      (as ++ bs).takeWhile (· != '\n') = as := by
    intro as bs has hbs
    have hall : ∀ c ∈ as, (c != '\n') = true := fun c hc =>
      bne_iff_ne.2 fun heq => has (heq ▸ hc)
    rw [List.takeWhile_append_of_pos hall]
    rcases hbs with rfl | hbs
    · simp
    · obtain ⟨bs, rfl⟩ : ∃ tail, bs = '\n' :: tail := by
        cases bs with
        | nil => cases hbs
        | cons d bs => exact ⟨bs, by rw [Option.some.inj hbs]⟩
      simp
  have hbody : body = body' := by
    rw [← hfront h hrest, heq, hfront h' hrest']
  subst hbody
  exact ⟨rfl, List.append_cancel_left heq⟩

theorem CommentSpans.unique {spans spans' : List (Nat × Nat)} (h : CommentSpans o cs spans)
    (h' : CommentSpans o cs spans') : spans' = spans := by
  induction h generalizing spans' with
  | done =>
    cases h'
    rfl
  | @keep o c rest spans hopen _ ih =>
    -- the rules cut one text in different ways, so the cuts are compared and not unified
    generalize hcs : c :: rest = cs at h'
    cases h' with
    | done => cases hcs
    | keep _ h' =>
      obtain ⟨rfl, rfl⟩ := List.cons.inj hcs
      exact ih h'
    | line _ _ _ => exact absurd (hcs ▸ opens_line _) hopen
    | block _ _ | unclosed _ => exact absurd (hcs ▸ opens_block _) hopen
  | @line o body rest spans hbody hrest _ ih =>
    generalize hcs : '/' :: '/' :: (body ++ rest) = cs at h'
    cases h' with
    | done => cases hcs
    | keep hopen _ => exact absurd (hcs ▸ opens_line _) hopen
    | line hbody' hrest' h' =>
      obtain ⟨rfl, rfl⟩ := eq_of_first_newline hbody hbody' hrest hrest' (by simpa using hcs)
      rw [ih h']
    | block _ _ | unclosed _ => simp at hcs
  | @block o body rest spans hbody _ ih =>
    generalize hcs : '/' :: '*' :: (body ++ '*' :: '/' :: rest) = cs at h'
    cases h' with
    | done => cases hcs
    | keep hopen _ => exact absurd (hcs ▸ opens_block _) hopen
    | line _ _ _ => simp at hcs
    | block hbody' h' =>
      obtain ⟨rfl, rfl⟩ := eq_of_first_closing hbody hbody' (by simpa using hcs)
      rw [ih h']
    | unclosed hbody' =>
      simp only [List.cons.injEq, true_and] at hcs
      exact absurd ⟨body, rest, by simp [← hcs]⟩ hbody'
  | @unclosed o body hbody =>
    generalize hcs : '/' :: '*' :: body = cs at h'
    cases h' with
    | done => cases hcs
    | keep hopen _ => exact absurd (hcs ▸ opens_block _) hopen
    | line _ _ _ => simp at hcs
    | @block _ body' rest' _ hbody' h' =>
      simp only [List.cons.injEq, true_and] at hcs
      exact absurd ⟨body', rest', by simp [hcs]⟩ hbody
    | unclosed _ =>
      obtain ⟨-, -, rfl⟩ : True ∧ True ∧ _ := by simpa using hcs
      rfl

theorem CommentSpans.exists (o : Nat) (cs : List Char) : ∃ spans, CommentSpans o cs spans := by
  induction hlength : cs.length using Nat.strong_induction_on generalizing o cs with
  | h n ih =>
    subst hlength
    by_cases hopen : Opens cs
    · rcases hopen with ⟨more, rfl⟩ | ⟨more, rfl⟩
      · obtain ⟨body, rest, rfl, hbody, hrest⟩ := exists_first_newline more
        obtain ⟨spans, h⟩ := ih _ (by simp; omega) (o + byteLength ('/' :: '/' :: body)) rest rfl
        have hline : CommentSpans o ('/' :: '/' :: (body ++ rest)) _ := .line hbody hrest h
        exact ⟨_, hline⟩
      · by_cases hclosing : ['*', '/'] <:+: more
        · obtain ⟨body, rest, rfl, hbody⟩ := exists_first_closing hclosing
          obtain ⟨spans, h⟩ := ih _ (by simp; omega)
            (o + byteLength ('/' :: '*' :: (body ++ ['*', '/']))) rest rfl
          have hblock : CommentSpans o ('/' :: '*' :: (body ++ '*' :: '/' :: rest)) _ := .block hbody h
          exact ⟨_, hblock⟩
        · have hunclosed : CommentSpans o ('/' :: '*' :: more) _ := .unclosed hclosing
          exact ⟨_, hunclosed⟩
    · cases cs with
      | nil => exact ⟨_, .done⟩
      | cons c rest =>
        obtain ⟨spans, h⟩ := ih _ (Nat.lt_succ_self _) (o + c.utf8Size) rest rfl
        exact ⟨spans, .keep hopen h⟩

/-- Spans do not start before the text. -/
theorem CommentSpans.le_start {spans : List (Nat × Nat)} (h : CommentSpans o cs spans) :
    ∀ span ∈ spans, o ≤ span.1 := by
  induction h with
  | done => exact nofun
  | keep _ _ ih => exact fun span hspan => Nat.le_trans (Nat.le_add_right _ _) (ih span hspan)
  | line _ _ _ ih | block _ _ ih =>
    exact List.forall_mem_cons.2
      ⟨Nat.le_refl _, fun span hspan => Nat.le_trans (Nat.le_add_right _ _) (ih span hspan)⟩
  | unclosed _ => exact List.forall_mem_singleton.2 (Nat.le_refl _)

/-! ### What stands outside stays, and what stands inside is blanked -/

theorem strip_keep (h : ¬ Opens (c :: rest)) : strip (c :: rest) = c :: strip rest := by
  have hline : ¬ (c = '/' ∧ rest.head? = some '/') := by
    rintro ⟨rfl, hhead⟩
    obtain ⟨more, rfl⟩ := List.head?_eq_some_iff.1 hhead
    exact h (opens_line more)
  have hblock : ¬ (c = '/' ∧ rest.head? = some '*') := by
    rintro ⟨rfl, hhead⟩
    obtain ⟨more, rfl⟩ := List.head?_eq_some_iff.1 hhead
    exact h (opens_block more)
  have hnext : Mode.next .code c rest = .code := by
    simp only [Mode.next, if_neg hline, if_neg hblock]
  rw [strip, stripFrom_cons, hnext, Mode.shown, hnext]
  rfl

theorem stripFrom_line_eq_strip (h : rest = [] ∨ rest.head? = some '\n') :
    stripFrom .line rest = strip rest := by
  rcases h with rfl | h
  · rfl
  · obtain ⟨more, rfl⟩ := List.head?_eq_some_iff.1 h
    rfl

/-- A comment without closing signs is blanked up to the end of the text. -/
theorem stripFrom_unclosed {star : Bool}
    (h : ¬ ['*', '/'] <:+: if star then '*' :: body else body) :
    stripFrom (.block star) body = blanked body := by
  induction body generalizing star with
  | nil => rfl
  | cons c body ih =>
    obtain ⟨hopen, hnext⟩ := not_closing_of_cons h
    have hmode : Mode.next (.block star) c body = .block (c == '*') := by
      simp [Mode.next, hopen]
    rw [stripFrom_cons, hmode, ih hnext]
    rfl

theorem strip_unclosed (h : ¬ ['*', '/'] <:+: body) :
    strip ('/' :: '*' :: body) = blanked ('/' :: '*' :: body) := by
  have hbody : ¬ ['*', '/'] <:+: if false then '*' :: body else body := h
  have hcode : strip ('/' :: '*' :: body) =
      blank '/' ++ (blank '*' ++ stripFrom (.block false) body) := rfl
  rw [hcode, stripFrom_unclosed hbody]
  rfl

/-- What is shown of a text that starts at the offset: line breaks and characters outside of the
spans in their places, and a blank for each byte of any other character. -/
def Shows (o : Nat) (cs shown : List Char) (spans : List (Nat × Nat)) : Prop :=
  ∀ p c, StandsAt cs p c →
    (¬ Within spans (o + p) ∨ c = '\n' → StandsAt shown p c) ∧
    (Within spans (o + p) → c ≠ '\n' → ∀ q, p ≤ q → q < p + c.utf8Size → StandsAt shown q ' ')

section Shows

variable {shown : List Char} {spans : List (Nat × Nat)}

theorem Shows.keep (h : Shows (o + c.utf8Size) rest shown spans)
    (hspans : ∀ span ∈ spans, o + c.utf8Size ≤ span.1) :
    Shows o (c :: rest) (c :: shown) spans := by
  intro p d hd
  rcases Text.standsAt_cons_iff.1 hd with ⟨rfl, rfl⟩ | ⟨q, rfl, hq⟩
  · have hpos := Char.utf8Size_pos c
    refine ⟨fun _ => Text.standsAt_head _ _, fun ⟨span, hspan, hle, _⟩ => ?_⟩
    have hstart := hspans span hspan
    omega
  · rw [← Nat.add_assoc]
    obtain ⟨houtside, hinside⟩ := h q d hq
    refine ⟨fun hout => ?_, fun hin hne r hle hlt => ?_⟩
    · exact Text.standsAt_cons_iff.2 (.inr ⟨q, rfl, houtside hout⟩)
    · have hblank := hinside hin hne (r - c.utf8Size) (by omega) (by omega)
      exact Text.standsAt_cons_iff.2 (.inr ⟨r - c.utf8Size, by omega, hblank⟩)

theorem Shows.comment {comment : List Char}
    (h : Shows (o + byteLength comment) rest shown spans) :
    Shows o (comment ++ rest) (blanked comment ++ shown)
      ((o, o + byteLength comment) :: spans) := by
  intro p d hd
  -- the place is in the comment, or behind it
  rcases Text.standsAt_append_iff.1 hd with hd | ⟨q, rfl, hq⟩
  · have hlt := hd.lt_byteLength
    have hpos := Char.utf8Size_pos d
    have hwithin : Within ((o, o + byteLength comment) :: spans) (o + p) :=
      ⟨_, List.mem_cons_self, Nat.le_add_right _ _, Nat.add_lt_add_left hlt o⟩
    refine ⟨fun hout => ?_, fun _ hne r hle hlt => ?_⟩
    · obtain rfl := hout.resolve_left (not_not_intro hwithin)
      have hplace := standsAt_blanked hd (Nat.le_refl p) (by omega)
      rw [if_pos rfl] at hplace
      exact hplace.append_left shown
    · have hplace := standsAt_blanked hd hle hlt
      rw [if_neg hne] at hplace
      exact hplace.append_left shown
  · have hwithin : Within ((o, o + byteLength comment) :: spans) (o + (byteLength comment + q)) ↔
        Within spans (o + byteLength comment + q) := by
      rw [← Nat.add_assoc]
      constructor
      · rintro ⟨span, hspan, hle, hlt⟩
        rcases List.mem_cons.1 hspan with rfl | hspan
        · exact absurd hlt (by simp)
        · exact ⟨span, hspan, hle, hlt⟩
      · rintro ⟨span, hspan, hrange⟩
        exact ⟨span, List.mem_cons_of_mem _ hspan, hrange⟩
    obtain ⟨houtside, hinside⟩ := h q d hq
    rw [hwithin]
    refine ⟨fun hout => ?_, fun hin hne r hle hlt => ?_⟩
    · have hplace := (houtside hout).append_right (blanked comment)
      rwa [byteLength_blanked] at hplace
    · have hblank := hinside hin hne (r - byteLength comment) (by omega) (by omega)
      have hplace := hblank.append_right (blanked comment)
      rwa [byteLength_blanked, Nat.add_sub_cancel' (by omega)] at hplace

theorem shows_nil : Shows o [] [] [] :=
  fun _ _ h => absurd h Text.not_standsAt_nil

end Shows

/-- Blanking shows what a scan finds outside of comments. -/
theorem CommentSpans.shows {spans : List (Nat × Nat)} (h : CommentSpans o cs spans) :
    Shows o cs (strip cs) spans := by
  induction h with
  | done => exact shows_nil
  | keep hopen h ih =>
    rw [strip_keep hopen]
    exact ih.keep h.le_start
  | line hbody hrest _ ih =>
    rw [strip_line hbody, stripFrom_line_eq_strip hrest]
    exact ih.comment
  | block hbody _ ih =>
    have hshows := ih.comment
    rw [strip_block hbody]
    rwa [List.cons_append, List.cons_append, List.append_assoc] at hshows
  | @unclosed o body hbody =>
    have hshows := (shows_nil (o := o + byteLength ('/' :: '*' :: body))).comment
    rwa [List.append_nil, List.append_nil, ← strip_unclosed hbody] at hshows

/-! ## Line breaks -/

theorem byteLength_shown (m : Mode) (c : Char) (cs : List Char) :
    byteLength (m.shown c cs) = c.utf8Size := by
  unfold Mode.shown
  split
  · simp
  · exact byteLength_blank c

@[simp] theorem byteLength_stripFrom (m : Mode) (cs : List Char) :
    byteLength (stripFrom m cs) = byteLength cs := by
  induction cs generalizing m with
  | nil => cases m <;> rfl
  | cons c cs ih =>
    rw [stripFrom_cons, Text.byteLength_append, byteLength_shown, ih, Text.byteLength_cons]

theorem standsAt_newline_shown_iff (m : Mode) (c : Char) (cs : List Char) :
    StandsAt (m.shown c cs) p '\n' ↔ p = 0 ∧ c = '\n' := by
  unfold Mode.shown
  split
  · simp [Text.standsAt_cons_iff, Text.not_standsAt_nil]
  · rw [standsAt_blank_iff]
    constructor
    · rintro ⟨hlt, heq⟩
      split at heq
      · next hc =>
        subst hc
        exact ⟨Nat.lt_one_iff.1 hlt, rfl⟩
      · cases heq
    · rintro ⟨rfl, rfl⟩
      exact ⟨Char.utf8Size_pos _, (if_pos rfl).symm⟩

/-- No line break is lost, moved or won. -/
theorem standsAt_newline_stripFrom_iff (m : Mode) :
    StandsAt (stripFrom m cs) p '\n' ↔ StandsAt cs p '\n' := by
  induction cs generalizing m p with
  | nil => cases m <;> rfl
  | cons c cs ih =>
    rw [stripFrom_cons, Text.standsAt_append_iff, Text.standsAt_cons_iff, byteLength_shown,
      standsAt_newline_shown_iff]
    simp only [ih]

theorem lineLengthsFrom_replicate (n read : Nat) (cs : List Char) :
    Text.lineLengthsFrom read (List.replicate n ' ' ++ cs) = Text.lineLengthsFrom (read + n) cs := by
  induction n generalizing read with
  | zero => rfl
  | succ n ih =>
    have hsize : Char.utf8Size ' ' = 1 := rfl
    have hne : ¬ ' ' = '\n' := by decide
    rw [List.replicate_succ, List.cons_append, Text.lineLengthsFrom, if_neg hne, ih, hsize,
      Nat.add_assoc, Nat.add_comm 1 n]

/-- In place of a character, blanks take as much room on the line. -/
theorem lineLengthsFrom_blank (read : Nat) (c : Char) (cs : List Char) :
    Text.lineLengthsFrom read (blank c ++ cs) = Text.lineLengthsFrom read (c :: cs) := by
  unfold blank
  split
  · next hc =>
    subst hc
    rfl
  · next hc => rw [lineLengthsFrom_replicate, Text.lineLengthsFrom, if_neg hc]

theorem lineLengthsFrom_stripFrom (read : Nat) (m : Mode) (cs : List Char) :
    Text.lineLengthsFrom read (stripFrom m cs) = Text.lineLengthsFrom read cs := by
  induction cs generalizing read m with
  | nil => cases m <;> rfl
  | cons c cs ih =>
    have hshown : Text.lineLengthsFrom read (m.shown c cs ++ stripFrom (m.next c cs) cs) =
        Text.lineLengthsFrom read (c :: stripFrom (m.next c cs) cs) := by
      unfold Mode.shown
      split
      · rfl
      · exact lineLengthsFrom_blank read c _
    rw [stripFrom_cons, hshown, Text.lineLengthsFrom, Text.lineLengthsFrom, ih, ih]

/-! ## No comment is left -/

/-- The signs of a comment do not start in a row without slashes. -/
theorem infix_of_append_of_notMem {as bs : List Char} (h : '/' ∉ as)
    (hopen : ['/', c] <:+: as ++ bs) : ['/', c] <:+: bs := by
  induction as with
  | nil => exact hopen
  | cons a as ih =>
    obtain ⟨ha, has⟩ := not_or.1 (mt List.mem_cons.2 h)
    rcases List.infix_cons_iff.1 hopen with ⟨more, hmore⟩ | hopen
    · exact absurd (List.cons.inj hmore).1 ha
    · exact ih has hopen

theorem slash_notMem_blank (c : Char) : '/' ∉ blank c := fun h =>
  absurd (isBlank_of_mem_blank h) (by decide)

/-- Outside comments the text goes on with what stands there, unless a comment starts. -/
theorem head?_strip (h : ¬ Opens cs) : (strip cs).head? = cs.head? := by
  cases cs with
  | nil => rfl
  | cons c rest => rw [strip_keep h, List.head?_cons, List.head?_cons]

/-- Where a character is kept, no comment starts. -/
theorem not_opens_of_next (h : Mode.next .code c cs = .code) : ¬ Opens (c :: cs) := by
  rintro (⟨more, hmore⟩ | ⟨more, hmore⟩)
  · obtain ⟨rfl, rfl⟩ := List.cons.inj hmore
    simp [Mode.next] at h
  · obtain ⟨rfl, rfl⟩ := List.cons.inj hmore
    simp [Mode.next] at h

/-- A slash that is shown stands outside comments, and what follows it in the text is shown as
well. -/
theorem not_infix_stripFrom (hc : c = '/' ∨ c = '*') (m : Mode) :
    ¬ ['/', c] <:+: stripFrom m cs := by
  induction cs generalizing m with
  | nil => cases m <;> simp [stripFrom]
  | cons d cs ih =>
    rw [stripFrom_cons, Mode.shown]
    split
    · next hkept =>
      obtain ⟨rfl, hnext⟩ := hkept
      rw [hnext, List.singleton_append]
      intro hopen
      rcases List.infix_cons_iff.1 hopen with ⟨more, hmore⟩ | hopen
      · obtain ⟨rfl, htail⟩ := List.cons.inj hmore
        have hkept := not_opens_of_next hnext
        -- no comment starts with the slash, and so none starts behind it
        have hrest : ¬ Opens cs := by
          rintro (⟨more, rfl⟩ | ⟨more, rfl⟩) <;> exact hkept (opens_line _)
        have hhead : cs.head? = some c := by
          rw [← head?_strip hrest, strip, ← htail]
          rfl
        obtain ⟨more, rfl⟩ := List.head?_eq_some_iff.1 hhead
        rcases hc with rfl | rfl
        · exact hkept (opens_line more)
        · exact hkept (opens_block more)
      · exact ih _ hopen
    · exact fun hopen => ih _ (infix_of_append_of_notMem (slash_notMem_blank d) hopen)

theorem strip_of_not_infix (hline : ¬ ['/', '/'] <:+: cs) (hblock : ¬ ['/', '*'] <:+: cs) :
    strip cs = cs := by
  induction cs with
  | nil => rfl
  | cons c cs ih =>
    have hkeep : ¬ Opens (c :: cs) := by
      rintro (h | h)
      · exact hline h.isInfix
      · exact hblock h.isInfix
    have hcs : cs <:+: c :: cs := (List.suffix_cons c cs).isInfix
    rw [strip_keep hkeep, ih (fun h => hline (h.trans hcs)) fun h => hblock (h.trans hcs)]

/-! ## All of it -/

/-- What blanking the comments of a text does. There is one scan of the text; what it finds outside
of comments stays, in its place, and so do the line breaks inside of them, while a blank stands for
each byte of any other character of a comment. The text is as long as before, has the same line
breaks, and holds no signs that open a comment, so blanking it again changes nothing. And every
offset has the line and the column that it had. -/
theorem strip_shows (cs : List Char) :
    (∃ spans, CommentSpans 0 cs spans ∧ (∀ spans', CommentSpans 0 cs spans' → spans' = spans) ∧
      ∀ p c, StandsAt cs p c →
        (¬ Within spans p ∨ c = '\n' → StandsAt (strip cs) p c) ∧
        (Within spans p → c ≠ '\n' →
          ∀ q, p ≤ q → q < p + c.utf8Size → StandsAt (strip cs) q ' ')) ∧
    byteLength (strip cs) = byteLength cs ∧
    (∀ p, StandsAt (strip cs) p '\n' ↔ StandsAt cs p '\n') ∧
    ¬ ['/', '/'] <:+: strip cs ∧ ¬ ['/', '*'] <:+: strip cs ∧
    strip (strip cs) = strip cs ∧
    ∀ p, Text.lineCol (strip cs) p = Text.lineCol cs p := by
  have hline : ¬ ['/', '/'] <:+: strip cs := not_infix_stripFrom (.inl rfl) .code
  have hblock : ¬ ['/', '*'] <:+: strip cs := not_infix_stripFrom (.inr rfl) .code
  refine ⟨?_, byteLength_stripFrom .code cs, fun p => standsAt_newline_stripFrom_iff .code, hline,
    hblock, strip_of_not_infix hline hblock, fun p => ?_⟩
  · obtain ⟨spans, hspans⟩ := CommentSpans.exists 0 cs
    refine ⟨spans, hspans, fun _ h => hspans.unique h, fun p c hc => ?_⟩
    have hshows := hspans.shows p c hc
    rwa [Nat.zero_add] at hshows
  · have hlengths : Text.lineLengths (strip cs) = Text.lineLengths cs :=
      lineLengthsFrom_stripFrom 0 .code cs
    rw [Text.lineCol, Text.lineCol, hlengths]

-- the slash behind the opening star closes nothing, and a letter of two bytes leaves two blanks
example : strip "a/*/ é */x//*/\nb".toList = "a         x    \nb".toList := by decide

end Comment

end Netlist
