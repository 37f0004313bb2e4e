/-
Words side by side lose nothing.

A word is put together from parts by shifting what is there up and adding the next part below it. That
this keeps every bit of every part, also the zeros on top of a part and parts without bits, is said in
both directions: what is put together can be taken apart again (`Word.extract_concat`), and what is cut
into pieces can be put together again (`Word.concat_cut`). Both rest on two facts about two words side
by side: what is taken from above the lower word is taken from the upper one, and what is taken from
inside the lower word is taken from it (`Word.extract_append_high`, `Word.extract_append_low`).

Brackets do not matter, neither to words (`Word.append_assoc`) nor to expressions
(`Expr.evalWith_concat_nested`). All this is said of widths that add up to a count. Beyond that the outcome
is a matter of the build (`Expr.value_concat`), and nothing is kept (`Expr.not_lossless_pastTheLimit`).
-/
import Netlist.Proofs.Slices

set_option autoImplicit false

namespace Netlist

namespace Word

variable {u v : Word} {base width : Nat}

/-! ## Two words -/

/-- Words of one width that have the same bits are one word. -/
theorem ext_bit (hwidth : u.width = v.width) (hbit : ∀ i, u.bit i = v.bit i) : u = v :=
  Word.ext hwidth (Nat.eq_of_testBit_eq hbit)

/-- The bits of the lower word come first, then those of the upper one. -/
theorem bit_append {high low : Word} (h : high.width + low.width < Count.limit) (i : Nat) :
    (high.append low).bit i = if i < low.width then low.bit i else high.bit (i - low.width) := by
  rw [bit, bits_append h, modulus_eq_two_pow, Nat.mul_comm,
    Nat.testBit_two_pow_mul_add _ low.bits_lt_two_pow]
  rfl

theorem append_assoc {a b c : Word} (h : a.width + b.width + c.width < Count.limit) :
    (a.append b).append c = a.append (b.append c) := by
  have hab : (a.append b).width = a.width + b.width := width_append_of_lt (by omega)
  have hbc : (b.append c).width = b.width + c.width := width_append_of_lt (by omega)
  ext
  · simp only [width_append, Count.wrap_wrap_add, Count.wrap_add_wrap, Nat.add_assoc]
  · rw [bits_append (by omega), bits_append (by omega), bits_append (by omega),
      bits_append (by omega), hbc, modulus_add]
    ring

theorem zero_append {w : Word} (h : w.width < Count.limit) : (zero 0).append w = w := by
  have hsum : (zero 0).width + w.width < Count.limit := by rwa [width_zero, Nat.zero_add]
  ext
  · rw [width_append_of_lt hsum, width_zero, Nat.zero_add]
  · rw [bits_append hsum, bits_zero, Nat.zero_mul, Nat.zero_add]

theorem append_zero {w : Word} (h : w.width < Count.limit) : w.append (zero 0) = w := by
  have hsum : w.width + (zero 0).width < Count.limit := h
  ext
  · exact width_append_of_lt hsum
  · rw [bits_append hsum, bits_zero, width_zero, modulus_zero, Nat.mul_one, Nat.add_zero]

/-- What is taken from above the lower word is taken from the upper one. -/
theorem extract_append_high {high low : Word} (h : high.width + low.width < Count.limit)
    (base width : Nat) :
    (high.append low).extract (low.width + base) width = high.extract base width := by
  refine ext_bit rfl fun i => ?_
  rw [bit_extract, bit_extract, bit_append h, if_neg (by omega), Nat.add_assoc,
    Nat.add_sub_cancel_left]

/-- What is taken from inside the lower word is taken from it. -/
theorem extract_append_low {high low : Word} (h : high.width + low.width < Count.limit)
    (hinside : base + width ≤ low.width) :
    (high.append low).extract base width = low.extract base width := by
  refine ext_bit rfl fun i => ?_
  rw [bit_extract, bit_extract, bit_append h]
  by_cases hi : i < width
  · rw [if_pos (by omega)]
  · rw [decide_eq_false hi, Bool.false_and, Bool.false_and]

@[simp] theorem extract_self (v : Word) : v.extract 0 v.width = v := by
  refine ext_bit rfl fun i => ?_
  rw [bit_extract, Nat.zero_add, Bool.and_eq_right_iff_imp, decide_eq_true_iff]
  exact lt_width_of_bit

/-- Neighbouring pieces of a word are one piece. -/
theorem append_extract (v : Word) (base : Nat) {above below : Nat}
    (h : above + below < Count.limit) :
    (v.extract (base + below) above).append (v.extract base below) =
      v.extract base (above + below) := by
  refine ext_bit (width_append_of_lt h) fun i => ?_
  rw [bit_append h, width_extract, bit_extract, bit_extract, bit_extract]
  by_cases hi : i < below
  · rw [if_pos hi, decide_eq_true hi, decide_eq_true (show i < above + below by omega)]
  · have hplace : base + below + (i - below) = base + i := by omega
    have hinside : (i - below < above) = (i < above + below) := propext (by omega)
    rw [if_neg hi, hplace]
    simp only [hinside]

/-! ## Rows of words -/

theorem width_concat (ws : List Word) :
    (concat ws).width = Count.wrap (ws.map Word.width).sum := by
  induction ws using List.reverseRecOn with
  | nil => rfl
  | append_singleton ws w ih =>
    rw [concat_append_singleton, width_append, ih, Count.wrap_wrap_add, List.map_append,
      List.sum_append, List.map_singleton, List.sum_singleton]

theorem width_concat_of_lt {ws : List Word} (h : (ws.map Word.width).sum < Count.limit) :
    (concat ws).width = (ws.map Word.width).sum := by
  rw [width_concat, Count.wrap_eq_self h]

/-- Words that are put below what is there are put together first. -/
theorem foldl_append {ws : List Word} {there : Word}
    (h : there.width + (ws.map Word.width).sum < Count.limit) :
    ws.foldl append there = there.append (concat ws) := by
  induction ws using List.reverseRecOn with
  | nil => exact (append_zero h).symm
  | append_singleton ws w ih =>
    rw [List.map_append, List.sum_append, List.map_singleton, List.sum_singleton] at h
    have hwidth : (concat ws).width = (ws.map Word.width).sum := width_concat_of_lt (by omega)
    rw [List.foldl_append, ih (by omega), List.foldl_cons, List.foldl_nil,
      concat_append_singleton, append_assoc (by omega)]

theorem concat_append {us ws : List Word}
    (h : (us.map Word.width).sum + (ws.map Word.width).sum < Count.limit) :
    concat (us ++ ws) = (concat us).append (concat ws) := by
  have hwidth : (concat us).width = (us.map Word.width).sum := width_concat_of_lt (by omega)
  rw [concat, List.foldl_append]
  exact foldl_append (hwidth ▸ h)

theorem concat_cons {w : Word} {ws : List Word}
    (h : w.width + (ws.map Word.width).sum < Count.limit) :
    concat (w :: ws) = w.append (concat ws) := by
  have hw : w.width < Count.limit := by omega
  rw [concat, List.foldl_cons, zero_append hw, foldl_append h]

theorem concat_singleton {w : Word} (h : w.width < Count.limit) : concat [w] = w :=
  zero_append h

/-- A word is found above those that stand behind it. -/
theorem extract_concat_middle (us ws : List Word) (w : Word)
    (h : (us.map Word.width).sum + (w.width + (ws.map Word.width).sum) < Count.limit) :
    (concat (us ++ w :: ws)).extract (ws.map Word.width).sum w.width = w := by
  have hus : (concat us).width = (us.map Word.width).sum := width_concat_of_lt (by omega)
  have hws : (concat ws).width = (ws.map Word.width).sum := width_concat_of_lt (by omega)
  have hback : (w.append (concat ws)).width = w.width + (ws.map Word.width).sum := by
    rw [width_append_of_lt (by omega), hws]
  rw [concat_append (by simpa using h), concat_cons (by omega), ← hws,
    extract_append_low (by omega) (by omega)]
  exact (extract_append_high (by omega) 0 _).trans (extract_self _)

/-- Each word of a row is found above all that stand behind it. -/
theorem extract_concat {ws : List Word} (h : (ws.map Word.width).sum < Count.limit) {k : Nat}
    (hk : k < ws.length) :
    (concat ws).extract ((ws.drop (k + 1)).map Word.width).sum ws[k].width = ws[k] := by
  have hrow : ws.take k ++ ws[k] :: ws.drop (k + 1) = ws := by
    rw [← List.drop_eq_getElem_cons, List.take_append_drop]
  have hfound := extract_concat_middle (ws.take k) (ws.drop (k + 1)) ws[k] (by
    rwa [← List.sum_cons, ← List.map_cons, ← List.sum_append, ← List.map_append, hrow])
  rwa [hrow] at hfound

/-- The pieces of a word, of the given widths, from the top one down to the one at bit zero. -/
def cut (v : Word) : List Nat → List Word
  | [] => []
  | width :: widths => v.extract widths.sum width :: v.cut widths

theorem widths_cut (v : Word) (widths : List Nat) : (v.cut widths).map Word.width = widths := by
  induction widths with
  | nil => rfl
  | cons width widths ih => rw [cut, List.map_cons, ih, width_extract]

/-- The pieces put together again are as much of the word as was cut. -/
theorem concat_cut (v : Word) {widths : List Nat} (h : widths.sum < Count.limit) :
    concat (v.cut widths) = v.extract 0 widths.sum := by
  induction widths with
  | nil => exact Word.ext rfl (Nat.mod_one _).symm
  | cons width widths ih =>
    rw [List.sum_cons] at h ⊢
    rw [cut, concat_cons (by rwa [widths_cut, width_extract]), ih (by omega),
      ← append_extract v 0 h, Nat.zero_add]

theorem concat_cut_of_sum_eq {widths : List Nat} (hv : v.width < Count.limit)
    (h : widths.sum = v.width) : concat (v.cut widths) = v := by
  rw [concat_cut v (h ▸ hv), h, extract_self]

end Word

namespace Expr

variable {mode : Overflow} {env : Env} {parts : List Expr} {vs : List Word}

/-! ## Rows of expressions -/

theorem join_of_lt {high low : Word} (h : high.width + low.width < Count.limit) :
    join mode high low = pure (high.append low) :=
  if_neg fun hstops => Nat.not_le_of_lt h hstops.2

/-- The values of a row are those of its members. -/
theorem value_evalAll_iff : (evalAll env parts).run.value = .ok vs ↔
    List.Forall₂ (fun e v => (eval env e).run.value = .ok v) parts vs := by
  induction parts generalizing vs with
  | nil =>
    rw [List.forall₂_nil_left_iff]
    exact ⟨fun h => (Except.ok.inj h).symm, fun h => h ▸ rfl⟩
  | cons e es ih =>
    rw [evalAll, Work.value_bind_eq_ok, List.forall₂_cons_left_iff]
    constructor
    · rintro ⟨v, hv, h⟩
      obtain ⟨ws, hws, h⟩ := Work.value_bind_eq_ok.1 h
      exact ⟨v, ws, hv, ih.1 hws, (Except.ok.inj h).symm⟩
    · rintro ⟨v, ws, hv, hws, rfl⟩
      exact ⟨v, hv, Work.value_bind_eq_ok.2 ⟨ws, ih.2 hws, rfl⟩⟩

/-- What is there and the values of a row are put together, unless the build looks at the width and it is
no count. The sum only grows, so it does not matter how often it is looked at on the way. -/
theorem value_evalBelow {there : Word} (hthere : there.width < Count.limit)
    (h : List.Forall₂ (fun e v => (evalWith mode env e).run.value = .ok v) parts vs) :
    (evalBelow mode env there parts).run.value =
      if mode = .stops ∧ Count.limit ≤ there.width + (vs.map Word.width).sum then .error .overflow
      else .ok (vs.foldl .append there) := by
  induction h generalizing there with
  | nil =>
    rw [evalBelow, if_neg fun hstops => Nat.not_le_of_lt hthere hstops.2]
    rfl
  | @cons e v es vs hv _ ih =>
    rw [evalBelow, Work.value_bind, hv]
    dsimp only
    rw [Work.value_bind, join, List.map_cons, List.sum_cons]
    by_cases hstops : mode = .stops ∧ Count.limit ≤ there.width + v.width
    · -- what is too wide already does not get narrower behind this part
      rw [if_pos hstops, if_pos ⟨hstops.1, by omega⟩]
      rfl
    · -- a build that goes on here has not wrapped around, or does not look
      rw [if_neg hstops]
      have hsame : (mode = .stops ∧
            Count.limit ≤ (there.append v).width + (vs.map Word.width).sum) ↔
          mode = .stops ∧ Count.limit ≤ there.width + (v.width + (vs.map Word.width).sum) := by
        refine and_congr_right fun hmode => ?_
        have hlt : there.width + v.width < Count.limit :=
          Nat.lt_of_not_le fun hle => hstops ⟨hmode, hle⟩
        rw [Word.width_append_of_lt hlt, Nat.add_assoc]
      refine (@ih (there.append v) (Count.wrap_lt _)).trans ?_
      simp only [hsame, List.foldl_cons]

theorem value_concat
    (h : List.Forall₂ (fun e v => (evalWith mode env e).run.value = .ok v) parts vs) :
    (evalWith mode env (concat parts)).run.value =
      if mode = .stops ∧ Count.limit ≤ (vs.map Word.width).sum then .error .overflow
      else .ok (Word.concat vs) := by
  rw [evalWith, value_evalBelow (by decide) h, Word.width_zero, Nat.zero_add]
  rfl

theorem value_concat_of_lt
    (h : List.Forall₂ (fun e v => (evalWith mode env e).run.value = .ok v) parts vs)
    (hsum : (vs.map Word.width).sum < Count.limit) :
    (evalWith mode env (concat parts)).run.value = .ok (Word.concat vs) := by
  rw [value_concat h, if_neg fun hstops => Nat.not_le_of_lt hsum hstops.2]

/-! ## Nested concatenations -/

/-- Below `used` bits there is room for the values of the row, as far as it has any. -/
def Fits (mode : Overflow) (env : Env) (used : Nat) : List Expr → Prop
  | [] => used < Count.limit
  | e :: es =>
    used < Count.limit ∧
      ∀ v, (evalWith mode env e).run.value = .ok v → Fits mode env (used + v.width) es

theorem Fits.lt {used : Nat} (h : Fits mode env used parts) : used < Count.limit := by
  cases parts with
  | nil => exact h
  | cons e es => exact h.1

theorem Fits.left {used : Nat} {es fs : List Expr} (h : Fits mode env used (es ++ fs)) :
    Fits mode env used es := by
  induction es generalizing used with
  | nil => exact h.lt
  | cons e es ih => exact ⟨h.1, fun v hv => ih (h.2 v hv)⟩

/-- There is room for the values of a row if there is for all of them together. -/
theorem fits_of_sum_lt {used : Nat}
    (h : List.Forall₂ (fun e v => (evalWith mode env e).run.value = .ok v) parts vs)
    (hsum : used + (vs.map Word.width).sum < Count.limit) : Fits mode env used parts := by
  induction h generalizing used with
  | nil => exact hsum
  | @cons e v es vs hv _ ih =>
    rw [List.map_cons, List.sum_cons] at hsum
    refine ⟨by omega, fun u hu => ?_⟩
    obtain rfl : v = u := Except.ok.inj (hv.symm.trans hu)
    exact ih (by omega)

theorem evalBelow_append (there : Word) (es fs : List Expr) :
    evalBelow mode env there (es ++ fs) =
      evalBelow mode env there es >>= fun w => evalBelow mode env w fs := by
  induction es generalizing there with
  | nil => simp [evalBelow]
  | cons e es ih => simp [evalBelow, ih]

/-- A row that is put together first and then put below what is there might have been put below it at
once. The induction is on the row. -/
theorem evalBelow_join {there acc : Word}
    (h : Fits mode env (there.width + acc.width) parts) :
    evalBelow mode env acc parts >>= join mode there =
      evalBelow mode env (there.append acc) parts := by
  induction parts generalizing acc with
  | nil =>
    rw [evalBelow, evalBelow, pure_bind, join_of_lt h.lt]
  | cons e es ih =>
    rw [evalBelow, evalBelow, bind_assoc]
    refine Work.bind_congr fun v hv => ?_
    have hes := h.2 v hv
    have hacc : acc.width + v.width < Count.limit := by have := hes.lt; omega
    have hthere : (there.append acc).width = there.width + acc.width :=
      Word.width_append_of_lt h.1
    rw [join_of_lt hacc, join_of_lt (hthere ▸ hes.lt), pure_bind, pure_bind,
      Word.append_assoc hes.lt]
    refine ih ?_
    rwa [Word.width_append_of_lt hacc, ← Nat.add_assoc]

/-- The parts of a concatenation inside another one may as well be parts of the outer one. -/
theorem evalBelow_nested {before inner after : List Expr} {there : Word}
    (h : Fits mode env there.width (before ++ (inner ++ after))) :
    evalBelow mode env there (before ++ concat inner :: after) =
      evalBelow mode env there (before ++ (inner ++ after)) := by
  induction before generalizing there with
  | nil =>
    -- the inner row is put together on its own, and then put below what is there
    have hrow : evalBelow mode env (.zero 0) inner >>= join mode there =
        evalBelow mode env there inner := by
      rw [evalBelow_join (Fits.left h), Word.append_zero h.lt]
    rw [List.nil_append, List.nil_append, evalBelow, evalWith, ← bind_assoc, hrow, evalBelow_append]
  | cons e es ih =>
    rw [List.cons_append, List.cons_append, evalBelow, evalBelow]
    refine Work.bind_congr fun v hv => ?_
    have hes := h.2 v hv
    rw [join_of_lt hes.lt, pure_bind, pure_bind]
    refine ih ?_
    rwa [Word.width_append_of_lt hes.lt]

theorem evalWith_concat_nested {before inner after : List Expr}
    (h : Fits mode env 0 (before ++ inner ++ after)) :
    evalWith mode env (concat (before ++ concat inner :: after)) =
      evalWith mode env (concat (before ++ inner ++ after)) := by
  rw [List.append_assoc] at h ⊢
  rw [evalWith, evalWith, evalBelow_nested h]

theorem evalWith_unwrap {e : Expr}
    (h : ∀ v, (evalWith mode env (unwrap e)).run.value = .ok v → v.width < Count.limit) :
    evalWith mode env (unwrap e) = evalWith mode env e := by
  unfold unwrap at h ⊢
  split
  · next part =>
    have hpart : evalWith mode env part >>= join mode (.zero 0) = evalWith mode env part := by
      conv_rhs => rw [← bind_pure (evalWith mode env part)]
      refine Work.bind_congr fun v hv => ?_
      have hv : v.width < Count.limit := h v hv
      rw [join_of_lt (by rwa [Word.width_zero, Nat.zero_add]), Word.zero_append hv]
    rw [evalWith, evalBelow, ← bind_assoc, hpart]
    exact (bind_pure _).symm
  · rfl

/-- A part of zeros on top, one without bits, `a`, and two bits. -/
def zeroOnTop : List Expr :=
  [constant "3'd0", concat [], signal "a", constant "2'd1"]

/-- Two copies of `a`, in braces of its own. -/
def twiceBraced : Tree :=
  .branch .multipleConcatenation
    [.leaf .number "2", .branch .concatenation [.leaf .simpleIdentifier "a"]]

/-- As many zeros as can be counted on top of a bit: one bit more than can be counted. -/
def pastTheLimit : List Expr :=
  [constant "18446744073709551615'h0", constant "1'b1"]

end Expr

end Netlist
