/-
What a selection yields, and when it reports that there is nothing to select.

Bits past the top of a word read as zero, and a selection that goes past the top records one warning
(`run_slice`, `run_partSelect`, `run_select`). Whether it does is found out by sums of counts, which
stay at the largest count. That makes a difference at words of the largest width and nowhere else
(`overruns_iff`, `slice_overruns_iff`).
-/
import Netlist.Proofs.Evaluation
import Netlist.Proofs.Warnings

set_option autoImplicit false

namespace Netlist

/-! ## Positions -/

namespace Count

theorem min_add_distance (a b : Nat) : min a b + distance a b = max a b := by
  unfold distance
  split <;> omega

theorem add_distance_of_le {a b : Nat} (h : a ≤ b) : a + distance a b = b := by
  rw [distance, if_pos h, Nat.add_sub_cancel' h]

theorem max_le_add_distance (a b : Nat) : max a b ≤ a + distance a b := by
  unfold distance
  split <;> omega

/-- A count that stays at the largest one exceeds what the number itself exceeds, apart from numbers
that are as large. -/
theorem lt_saturate_iff {a n : Nat} (h : a < limit - 1 ∨ n < limit) : a < saturate n ↔ a < n := by
  unfold saturate
  split <;> omega

end Count

/-- So many bits from a position on go past a word of that size, as far as counts can tell. -/
def Overruns (size start width : Nat) : Prop :=
  Count.limit ≤ start ∨ size < Count.saturate (start + width)

instance (size start width : Nat) : Decidable (Overruns size start width) :=
  inferInstanceAs (Decidable (_ ∨ _))

/-- Counts can tell, unless both the sum and the size reach the largest one. -/
theorem overruns_iff {size start width : Nat}
    (h : size < Count.limit - 1 ∨ start + width < Count.limit) :
    Overruns size start width ↔ size < start + width := by
  rw [Overruns, Count.lt_saturate_iff h]
  omega

/-- The range of a slice is measured from its lower bound, so that the larger bound decides, unless
both that and the size of the word reach the largest count. -/
theorem slice_overruns_iff {size start stop : Nat}
    (h : size < Count.limit - 1 ∨ max start stop < Count.limit - 1) :
    size < Count.saturate (min start stop + Count.saturate (Count.distance start stop + 1)) ↔
      size ≤ max start stop := by
  have hsum := Count.min_add_distance start stop
  have hle := Count.saturate_le (Count.distance start stop + 1)
  rcases h with hsize | hbounds
  · rw [Count.lt_saturate_iff (.inl hsize)]
    -- a width that does not stay what it is exceeds the size on its own
    have hwidth : size < Count.saturate (Count.distance start stop + 1) ↔
        size < Count.distance start stop + 1 := Count.lt_saturate_iff (.inl hsize)
    have hself : Count.distance start stop + 1 < Count.limit →
        Count.saturate (Count.distance start stop + 1) = Count.distance start stop + 1 :=
      Count.saturate_eq_self
    omega
  · have hwidth : Count.distance start stop + 1 < Count.limit := by omega
    rw [Count.saturate_eq_self hwidth, Count.saturate_eq_self (by omega)]
    omega

/-! ## Selections at work -/

namespace Expr

/-- The warning of a selection, if there is reason for it. -/
def reportIf (p : Prop) [Decidable p] (finding : Finding) : Log :=
  if p then [⟨.warning, none, finding⟩] else []

theorem reportIf_congr {p q : Prop} [Decidable p] [Decidable q] (h : p ↔ q) (finding : Finding) :
    reportIf p finding = reportIf q finding := by
  by_cases hp : p
  · rw [reportIf, reportIf, if_pos hp, if_pos (h.1 hp)]
  · rw [reportIf, reportIf, if_neg hp, if_neg (mt h.2 hp)]

theorem warnings_reportIf (p : Prop) [Decidable p] (finding : Finding) :
    Log.warnings (reportIf p finding) = [] ↔ ¬p := by
  unfold reportIf
  split
  · next hp => exact iff_of_false (List.cons_ne_nil _ _) (not_not_intro hp)
  · next hp => exact iff_of_true rfl hp

variable {env : Env} {body base index : Expr} {v p : Word} {log log' : Log} {width : Nat}

theorem run_warn_if (q : Prop) [Decidable q] (finding : Finding) (w : Word) :
    (do
      if q then Evaluation.warn finding
      return w : Evaluation Word).run = ⟨.ok w, reportIf q finding⟩ := by
  unfold reportIf
  split <;> rfl

theorem run_slice (hv : (body.eval env).run = ⟨.ok v, log⟩) (start stop : Nat) :
    ((slice body start stop).eval env).run =
      ⟨.ok (v.extract start (Count.saturate (Count.distance start stop + 1))),
        log ++ reportIf
          (v.width < Count.saturate (min start stop + Count.saturate (Count.distance start stop + 1)))
          (.sliceOutOfRange (slice body start stop) v.width)⟩ := by
  rw [eval_slice, Work.run_bind_of_ok hv, evalSlice, ← Nat.min_def, run_warn_if]

theorem run_evalPartSelect (e : Expr) (v p : Word) (width : Nat) :
    (evalPartSelect e v p width).run =
      ⟨.ok (v.extract p.bits width),
        reportIf (Overruns v.width p.bits width) (.partSelectOutOfRange e p v.width)⟩ := by
  rw [evalPartSelect, run_warn_if]
  refine Logged.ext rfl (reportIf_congr ?_ _)
  rw [Overruns, Word.count?]
  rcases Nat.lt_or_ge p.bits Count.limit with hcount | hcount
  · simp [hcount, Nat.not_le.2 hcount]
  · simp [hcount, Nat.not_lt.2 hcount]

theorem run_partSelect (hv : (body.eval env).run = ⟨.ok v, log⟩)
    (hp : (base.eval env).run = ⟨.ok p, log'⟩) (width : Nat) :
    ((partSelect body base width).eval env).run =
      ⟨.ok (v.extract p.bits width), log ++ (log' ++ reportIf (Overruns v.width p.bits width)
        (.partSelectOutOfRange (partSelect body base width) p v.width))⟩ := by
  rw [eval_partSelect, Work.run_bind_of_ok hv, Work.run_bind_of_ok hp, run_evalPartSelect]

theorem run_select (hv : (body.eval env).run = ⟨.ok v, log⟩)
    (hp : (index.eval env).run = ⟨.ok p, log'⟩) :
    ((select body index).eval env).run =
      ⟨.ok (.ofBool (v.bit p.bits)), log ++ (log' ++ reportIf (v.width ≤ p.bits)
        (.selectOutOfRange (select body index) p v.width))⟩ := by
  rw [eval_select, Work.run_bind_of_ok hv, Work.run_bind_of_ok hp, evalSelect, run_warn_if]

end Expr

end Netlist
