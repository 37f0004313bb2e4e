/-
Comments and what stands around them.

Blanking comments works through a text character by character, in a mode that says whether a comment
is open (`stripFrom_cons`). So a text that is cut in two is blanked part by part, the back part in
the mode in which the front part ends (`modeAfter`). A whole comment is blanked
(`strip_block`, `strip_line`), and a blank stays blank.
-/
import Mathlib.Data.List.Infix
import Netlist.Comment
import Netlist.Proofs.Lexing

set_option autoImplicit false

namespace Netlist.Comment

variable {m : Mode} {b c : Char} {cs body rest : List Char}

/-! ## Blanked characters -/

theorem isBlank_of_mem_blank (h : b ∈ blank c) : Text.isBlank b = true := by
  unfold blank at h
  split at h
  · obtain rfl := List.mem_singleton.1 h
    decide
  · rw [List.eq_of_mem_replicate h]
    decide

theorem blank_ne_nil (c : Char) : blank c ≠ [] := by
  unfold blank
  split
  · exact List.cons_ne_nil _ _
  · have hpos := Char.utf8Size_pos c
    exact List.ne_nil_of_length_pos (by rwa [List.length_replicate])

/-! ## One step -/

/-- The mode behind a character, where the text goes on with `rest`. -/
def Mode.next (m : Mode) (c : Char) (rest : List Char) : Mode :=
  match m with
  | .code =>
    if c = '/' ∧ rest.head? = some '/' then .line
    else if c = '/' ∧ rest.head? = some '*' then .opener
    else .code
  | .line => if c = '\n' then .code else .line
  | .opener => .block false
  | .block star => if star && c == '/' then .code else .block (c == '*')

/-- What stands in place of a character, where the text goes on with `rest`: itself outside
comments, and blanks in them. -/
def Mode.shown (m : Mode) (c : Char) (rest : List Char) : List Char :=
  if m = .code ∧ m.next c rest = .code then [c] else blank c

theorem stripFrom_cons (m : Mode) (c : Char) (cs : List Char) :
    stripFrom m (c :: cs) = m.shown c cs ++ stripFrom (m.next c cs) cs := by
  cases m with
  | code =>
    by_cases hc : c = '/'
    · subst hc
      cases cs with
      | nil => rfl
      | cons d ds =>
        by_cases hline : d = '/'
        · subst hline
          rfl
        · by_cases hopener : d = '*'
          · subst hopener
            rfl
          · simp [stripFrom, Mode.shown, Mode.next, hline, hopener]
    · simp [stripFrom, Mode.shown, Mode.next, hc]
  | line =>
    rw [stripFrom]
    split
    · next hc => simp [Mode.shown, Mode.next, hc, blank]
    · next hc => simp [Mode.shown, Mode.next, hc]
  | opener => simp [stripFrom, Mode.shown, Mode.next]
  | block star =>
    rw [stripFrom]
    split
    · next hc => simp [Mode.shown, Mode.next, hc]
    · next hc => simp [Mode.shown, Mode.next, hc]

/-- The mode at the end of a text. -/
def modeAfter (m : Mode) : List Char → Mode
  | [] => m
  | c :: cs => modeAfter (m.next c cs) cs

/-- The text ends outside comments that need a closing sign. -/
def ClosesBlocks (cs : List Char) : Prop :=
  ∀ star, modeAfter .code cs ≠ .block star

instance (cs : List Char) : Decidable (ClosesBlocks cs) :=
  inferInstanceAs (Decidable (∀ star, modeAfter .code cs ≠ .block star))

/-! ## Texts that are cut at the end of a line -/

/-- What follows the end of the line has no say in what stands before it. -/
theorem next_append_newline (m : Mode) (c : Char) (cs rest : List Char) :
    m.next c (cs ++ '\n' :: rest) = m.next c cs := by
  cases m with
  | code =>
    cases cs with
    | nil => simp [Mode.next]
    | cons d ds => rfl
  | _ => rfl

theorem stripFrom_append_newline (m : Mode) (cs rest : List Char) :
    stripFrom m (cs ++ '\n' :: rest) =
      stripFrom m cs ++ stripFrom (modeAfter m cs) ('\n' :: rest) := by
  induction cs generalizing m with
  | nil => rw [List.nil_append, stripFrom, List.nil_append, modeAfter]
  | cons c cs ih =>
    rw [List.cons_append, stripFrom_cons, stripFrom_cons, next_append_newline, ih, modeAfter,
      List.append_assoc, Mode.shown, Mode.shown, next_append_newline]

/-- At the star that opens a comment the text goes on. -/
theorem modeAfter_ne_opener (cs : List Char) (h : m = .opener → cs ≠ []) :
    modeAfter m cs ≠ .opener := by
  induction cs generalizing m with
  | nil => exact fun hm => h hm rfl
  | cons c cs ih =>
    refine ih fun hnext hcs => ?_
    subst hcs
    cases m with
    | code => simp [Mode.next] at hnext
    | line =>
      simp only [Mode.next] at hnext
      split at hnext <;> cases hnext
    | opener => cases hnext
    | block star =>
      simp only [Mode.next] at hnext
      split at hnext <;> cases hnext

theorem strip_newline (cs : List Char) : strip ('\n' :: cs) = '\n' :: strip cs := rfl

/-- Where no block comment is open at the end of a line, the next line is blanked by itself. -/
theorem strip_append_newline (h : ClosesBlocks cs) (rest : List Char) :
    strip (cs ++ '\n' :: rest) = strip cs ++ '\n' :: strip rest := by
  rw [strip, stripFrom_append_newline]
  have hopener : modeAfter .code cs ≠ .opener := modeAfter_ne_opener cs nofun
  cases hmode : modeAfter .code cs with
  | code => rfl
  | line => rfl
  | opener => exact absurd hmode hopener
  | block star => exact absurd hmode (h star)

/-- Texts on lines of their own are blanked one by one. -/
theorem strip_intercalate {texts : List (List Char)} (h : ∀ cs ∈ texts, ClosesBlocks cs) :
    strip (['\n'].intercalate texts) = ['\n'].intercalate (texts.map strip) := by
  induction texts with
  | nil => rfl
  | cons cs texts ih =>
    obtain ⟨hcs, htexts⟩ := List.forall_mem_cons.1 h
    cases texts with
    | nil => simp
    | cons next texts =>
      have hrest := ih htexts
      rw [List.map_cons] at hrest
      rw [List.map_cons, List.map_cons, List.intercalate_cons_cons, List.intercalate_cons_cons,
        List.append_assoc, List.singleton_append, strip_append_newline hcs, hrest,
        List.append_assoc, List.singleton_append]

/-! ## Texts that leave no comment open -/

/-- What stands behind the text is blanked by itself. -/
def Closed (cs : List Char) : Prop :=
  ∀ rest, strip (cs ++ rest) = strip cs ++ strip rest

/-- A text without slashes has no comments. -/
theorem strip_append_of_not_mem (h : '/' ∉ cs) (rest : List Char) :
    strip (cs ++ rest) = cs ++ strip rest := by
  induction cs with
  | nil => rfl
  | cons c cs ih =>
    obtain ⟨hc, hcs⟩ := not_or.1 (mt List.mem_cons.2 h)
    have hmode : Mode.next .code c (cs ++ rest) = .code := by
      simp [Mode.next, Ne.symm hc]
    rw [List.cons_append, strip, stripFrom_cons, hmode, Mode.shown, hmode]
    exact congrArg (c :: ·) (ih hcs)

/-! ## Whole comments -/

/-- A comment in blanks. -/
def blanked (cs : List Char) : List Char :=
  cs.flatMap blank

@[simp] theorem blanked_nil : blanked [] = [] := rfl

@[simp] theorem blanked_cons (c : Char) (cs : List Char) :
    blanked (c :: cs) = blank c ++ blanked cs := rfl

theorem isBlank_of_mem_blanked (h : b ∈ blanked cs) : Text.isBlank b = true := by
  obtain ⟨c, -, hb⟩ := List.mem_flatMap.1 h
  exact isBlank_of_mem_blank hb

/-- A star and a slash that stand in a comment do not stand behind a first character of it either,
unless they begin with it. -/
theorem not_closing_of_cons {star : Bool}
    (h : ¬ ['*', '/'] <:+: if star then '*' :: c :: body else c :: body) :
    ¬ (star = true ∧ c = '/') ∧ ¬ ['*', '/'] <:+: if c == '*' then '*' :: body else body := by
  have htail : (c :: body) <:+: if star then '*' :: c :: body else c :: body := by
    cases star with
    | true => exact (List.suffix_cons _ _).isInfix
    | false => exact List.infix_refl _
  constructor
  · rintro ⟨rfl, rfl⟩
    exact h ⟨[], body, rfl⟩
  · intro hclosing
    have hbody : (if c == '*' then '*' :: body else body) <:+: c :: body := by
      split
      · next hc => rw [eq_of_beq hc]
      · exact (List.suffix_cons c body).isInfix
    exact h (hclosing.trans (hbody.trans htail))

/-- Behind the sign that opens a comment all is blanked up to the sign that closes it. The star
before the rest of the comment, if one was just read, must not close it either. -/
theorem stripFrom_block {star : Bool}
    (h : ¬ ['*', '/'] <:+: if star then '*' :: body else body) (rest : List Char) :
    stripFrom (.block star) (body ++ '*' :: '/' :: rest) =
      blanked (body ++ ['*', '/']) ++ strip rest := by
  induction body generalizing star with
  | nil => cases star <;> rfl
  | cons c body ih =>
    obtain ⟨hopen, hnext⟩ := not_closing_of_cons h
    have hmode : Mode.next (.block star) c (body ++ '*' :: '/' :: rest) = .block (c == '*') := by
      simp [Mode.next, hopen]
    rw [List.cons_append, stripFrom_cons, hmode, ih hnext, List.cons_append, blanked_cons,
      List.append_assoc]
    rfl

theorem strip_block (h : ¬ ['*', '/'] <:+: body) (rest : List Char) :
    strip ('/' :: '*' :: (body ++ '*' :: '/' :: rest)) =
      blanked ('/' :: '*' :: (body ++ ['*', '/'])) ++ strip rest := by
  have hbody : ¬ ['*', '/'] <:+: if false then '*' :: body else body := h
  have hopener : stripFrom .opener ('*' :: (body ++ '*' :: '/' :: rest)) =
      blank '*' ++ stripFrom (.block false) (body ++ '*' :: '/' :: rest) := rfl
  have hcode : strip ('/' :: '*' :: (body ++ '*' :: '/' :: rest)) =
      blank '/' ++ stripFrom .opener ('*' :: (body ++ '*' :: '/' :: rest)) := rfl
  rw [hcode, hopener, stripFrom_block hbody, blanked_cons, blanked_cons, List.append_assoc,
    List.append_assoc]

/-- A comment that ends with its line is blanked up to the end of the line. -/
theorem stripFrom_line (h : '\n' ∉ body) (rest : List Char) :
    stripFrom .line (body ++ rest) = blanked body ++ stripFrom .line rest := by
  induction body with
  | nil => rfl
  | cons c body ih =>
    obtain ⟨hc, hbody⟩ := not_or.1 (mt List.mem_cons.2 h)
    have hmode : Mode.next .line c (body ++ rest) = .line := if_neg (Ne.symm hc)
    rw [List.cons_append, stripFrom_cons, hmode, ih hbody, blanked_cons, List.append_assoc]
    rfl

theorem strip_line (h : '\n' ∉ body) (rest : List Char) :
    strip ('/' :: '/' :: (body ++ rest)) =
      blanked ('/' :: '/' :: body) ++ stripFrom .line rest := by
  have hbody : '\n' ∉ '/' :: body := List.not_mem_cons_of_ne_of_not_mem (by decide) h
  have hcode : strip ('/' :: '/' :: (body ++ rest)) =
      blank '/' ++ stripFrom .line ('/' :: body ++ rest) := rfl
  rw [hcode, stripFrom_line hbody, blanked_cons, blanked_cons, blanked_cons, List.append_assoc,
    List.append_assoc, List.append_assoc]

theorem exists_strip_block (h : ¬ ['*', '/'] <:+: body) (rest : List Char) :
    ∃ blanks, (∀ c ∈ blanks, Text.isBlank c = true) ∧
      strip ('/' :: '*' :: (body ++ '*' :: '/' :: rest)) = blanks ++ strip rest :=
  ⟨_, fun _ => isBlank_of_mem_blanked, strip_block h rest⟩

theorem exists_strip_line (h : '\n' ∉ body) (rest : List Char) :
    ∃ blanks, (∀ c ∈ blanks, Text.isBlank c = true) ∧
      strip ('/' :: '/' :: (body ++ '\n' :: rest)) = blanks ++ '\n' :: strip rest :=
  ⟨_, fun _ => isBlank_of_mem_blanked, strip_line h ('\n' :: rest)⟩

/-! ## Blanks at the end -/

/-- A text that ends with a blank still does so without its comments. -/
theorem exists_stripFrom_concat (m : Mode) (cs : List Char) (hb : Text.isBlank b = true) :
    ∃ front last, stripFrom m (cs ++ [b]) = front ++ [last] ∧ Text.isBlank last = true := by
  induction cs generalizing m with
  | nil =>
    rw [List.nil_append, stripFrom_cons, stripFrom, List.append_nil, Mode.shown]
    split
    · exact ⟨[], b, rfl, hb⟩
    · have hlast := List.dropLast_append_getLast (blank_ne_nil b)
      exact ⟨_, _, hlast.symm, isBlank_of_mem_blank (List.getLast_mem (blank_ne_nil b))⟩
  | cons c cs ih =>
    obtain ⟨front, last, hstrip, hlast⟩ := ih (m.next c (cs ++ [b]))
    refine ⟨m.shown c (cs ++ [b]) ++ front, last, ?_, hlast⟩
    rw [List.cons_append, stripFrom_cons, hstrip, List.append_assoc]

end Netlist.Comment
