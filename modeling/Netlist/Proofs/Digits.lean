/-
The numbers that digits stand for.

Digits are read from the left, and each takes what stands before it up by one place. What a row of
digits stands for is said here without a reader: a figure is worth its place among the sixteen figures,
and it counts by its place in the row, from the right (`Radix.valueOf`). The reader reads this number,
and it reads a row exactly if the row is a numeral of the radix (`Radix.number?_eq_some_iff`). The digits
that a number is written with are a numeral and stand for the number (`Radix.isNumeral_digits`), with as
many zeros in front of them as there may be (`Radix.valueOf_zeros_append`).
-/
import Mathlib
import Netlist.Literal

set_option autoImplicit false

namespace Netlist

namespace Radix

variable {r : Radix} {c : Char} {cs : List Char} {n : Nat}

/-! ## Figures -/

/-- The figures, in the order of what they are worth. -/
def figures : List Char :=
  ['0', '1', '2', '3', '4', '5', '6', '7', '8', '9', 'a', 'b', 'c', 'd', 'e', 'f']

/-- What a figure is worth, in either case. Any other character counts as one figure too many. -/
def worth (c : Char) : Nat :=
  figures.idxOf c.toLower

/-- What holds of the characters of a table and of all beyond it holds of every character. -/
theorem forall_char {P : Char → Prop} (htable : ∀ n < 128, P (Char.ofNat n))
    (hbeyond : ∀ c : Char, 128 ≤ c.toNat → P c) (c : Char) : P c := by
  rcases Nat.lt_or_ge c.toNat 128 with hlt | hge
  · rw [← Char.ofNat_toNat c]
    exact htable c.toNat hlt
  · exact hbeyond c hge

theorem toLower_of_beyond (h : 128 ≤ c.toNat) : c.toLower = c := by
  refine Char.toLower_eq_of_not_isUpper fun hupper => ?_
  simp only [Char.isUpper, decide_eq_true_eq, UInt32.le_iff_toNat_le] at hupper
  have hlast : c.toNat ≤ 90 := hupper.2
  omega

theorem worth_of_beyond (h : 128 ≤ c.toNat) : worth c = 16 := by
  have hfigures : figures.all (·.toNat < 128) = true := rfl
  rw [worth, toLower_of_beyond h]
  refine List.idxOf_eq_length fun hc => Nat.not_lt.2 h ?_
  exact of_decide_eq_true (List.all_eq_true.1 hfigures c hc)

/-- The figures, and nothing else, have a worth that the reader knows. -/
theorem digitValue?_eq (c : Char) :
    digitValue? c = if worth c < 16 then some (worth c) else none := by
  refine forall_char (P := fun c => digitValue? c = if worth c < 16 then some (worth c) else none)
    (by decide +kernel) (fun c hc => ?_) c
  have hle : ∀ a b : Char, a ≤ b ↔ a.toNat ≤ b.toNat := fun _ _ => Iff.rfl
  have hlast : ∀ d : Char, d.toNat < 128 → ¬c ≤ d := fun d hd => by
    rw [hle]
    omega
  rw [worth_of_beyond hc, if_neg (Nat.lt_irrefl 16), digitValue?,
    if_neg fun h => hlast '9' (by decide) h.2, if_neg fun h => hlast 'f' (by decide) h.2,
    if_neg fun h => hlast 'F' (by decide) h.2]

theorem isDigit_iff_worth (c : Char) : c.isDigit = true ↔ worth c < decimal.base := by
  refine forall_char (P := fun c => c.isDigit = true ↔ worth c < decimal.base)
    (by decide +kernel) (fun c hc => ?_) c
  rw [worth_of_beyond hc]
  refine iff_of_false (fun h => ?_) (by decide)
  simp only [Char.isDigit, Bool.and_eq_true, decide_eq_true_eq, UInt32.le_iff_toNat_le] at h
  have hlast : c.toNat ≤ 57 := h.2
  omega

theorem base_le (r : Radix) : r.base ≤ 16 := by
  cases r <;> decide

theorem value?_eq (r : Radix) (c : Char) :
    r.value? c = if worth c < r.base then some (worth c) else none := by
  have hbase := r.base_le
  rw [value?, digitValue?_eq]
  by_cases hfigure : worth c < 16
  · rw [if_pos hfigure, Option.filter_some]
    simp only [decide_eq_true_eq]
  · rw [if_neg hfigure, if_neg (by omega), Option.filter_none]

/-! ## Rows of figures -/

/-- The number that a row of figures stands for. -/
def valueOf (r : Radix) (cs : List Char) : Nat :=
  Nat.ofDigits r.base (cs.reverse.map worth)

/-- There is a figure, and no figure is too many for the radix. -/
def IsNumeral (r : Radix) (cs : List Char) : Prop :=
  cs ≠ [] ∧ ∀ c ∈ cs, worth c < r.base

@[simp] theorem valueOf_nil (r : Radix) : r.valueOf [] = 0 := rfl

theorem valueOf_cons (r : Radix) (c : Char) (cs : List Char) :
    r.valueOf (c :: cs) = r.valueOf cs + r.base ^ cs.length * worth c := by
  rw [valueOf, List.reverse_cons, List.map_append, Nat.ofDigits_append, List.length_map,
    List.length_reverse, List.map_singleton, Nat.ofDigits_singleton]
  rfl

theorem valueOf_append_singleton (r : Radix) (cs : List Char) (c : Char) :
    r.valueOf (cs ++ [c]) = worth c + r.base * r.valueOf cs := by
  rw [valueOf, List.reverse_append, List.reverse_singleton, List.singleton_append, List.map_cons,
    Nat.ofDigits_cons]
  rfl

/-- Zeros in front count for nothing. -/
theorem valueOf_zeros_append (r : Radix) (k : Nat) (cs : List Char) :
    r.valueOf (List.replicate k '0' ++ cs) = r.valueOf cs := by
  have hzero : worth '0' = 0 := by decide
  rw [valueOf, List.reverse_append, List.reverse_replicate, List.map_append, List.map_replicate,
    hzero, Nat.ofDigits_append_replicate_zero]
  rfl

theorem IsNumeral.zeros_append (h : r.IsNumeral cs) (k : Nat) :
    r.IsNumeral (List.replicate k '0' ++ cs) := by
  have hzero : worth '0' < r.base := by cases r <;> decide
  refine ⟨List.append_ne_nil_of_right_ne_nil _ h.1, List.forall_mem_append.2 ⟨fun c hc => ?_, h.2⟩⟩
  rwa [List.eq_of_mem_replicate hc]

/-- What figures stand for depends on what each of them is worth. -/
theorem valueOf_congr {ds : List Char} (h : cs.map worth = ds.map worth) :
    r.valueOf cs = r.valueOf ds := by
  rw [valueOf, valueOf, List.map_reverse, List.map_reverse, h]

/-- Figures that are read behind a number. The induction is on the figures; the number takes up what was
read. -/
theorem foldlM_value?_eq_some_iff (m : Nat) :
    cs.foldlM (fun n c => (r.value? c).map (n * r.base + ·)) m = some n ↔
      (∀ c ∈ cs, worth c < r.base) ∧ n = m * r.base ^ cs.length + r.valueOf cs := by
  induction cs generalizing m with
  | nil => simp [eq_comm]
  | cons c cs ih =>
    rw [List.foldlM_cons, value?_eq]
    by_cases hc : worth c < r.base
    · have hnext : (m * r.base + worth c) * r.base ^ cs.length + r.valueOf cs =
          m * r.base ^ (c :: cs).length + r.valueOf (c :: cs) := by
        rw [valueOf_cons, List.length_cons]
        ring
      rw [if_pos hc, Option.map_some, List.forall_mem_cons, ← hnext]
      simp only [hc, true_and]
      exact ih (m * r.base + worth c)
    · rw [if_neg hc, Option.map_none]
      exact iff_of_false nofun fun h => hc (h.1 c List.mem_cons_self)

/-- The reader reads numerals, and reads the number that each stands for. -/
theorem number?_eq_some_iff : r.number? cs = some n ↔ r.IsNumeral cs ∧ n = r.valueOf cs := by
  cases cs with
  | nil => exact iff_of_false nofun fun h => h.1.1 rfl
  | cons c cs =>
    have hread : r.number? (c :: cs) =
        (c :: cs).foldlM (fun n c => (r.value? c).map (n * r.base + ·)) 0 := rfl
    rw [hread, foldlM_value?_eq_some_iff, Nat.zero_mul, Nat.zero_add, IsNumeral]
    simp only [ne_eq, List.cons_ne_nil, not_false_iff, true_and]

theorem number?_of_isNumeral (h : r.IsNumeral cs) : r.number? cs = some (r.valueOf cs) :=
  number?_eq_some_iff.2 ⟨h, rfl⟩

theorem number?_eq_none_iff : r.number? cs = none ↔ ¬r.IsNumeral cs := by
  rw [Option.eq_none_iff_forall_ne_some]
  exact ⟨fun h hcs => h _ (number?_of_isNumeral hcs), fun h n hn => h (number?_eq_some_iff.1 hn).1⟩

/-! ## The digits of a number -/

theorem worth_digitChar (h : n < 16) : worth n.digitChar = n := by
  have htable : ∀ n < 16, worth (Nat.digitChar n) = n := by decide
  exact htable n h

theorem digits_of_lt (h : n < r.base) : r.digits n = [n.digitChar] :=
  Nat.toDigits_of_lt_base h

theorem digits_append (hn : 0 < n) {d : Nat} (hd : d < r.base) :
    r.digits (r.base * n + d) = r.digits n ++ [d.digitChar] := by
  rw [digits, ← Nat.toDigits_append_toDigits r.one_lt_base hn hd, Nat.toDigits_of_lt_base hd, digits]

theorem digitChar_mem_figures (h : n < 16) : n.digitChar ∈ figures := by
  have htable : ∀ n < 16, Nat.digitChar n ∈ figures := by decide
  exact htable n h

/-- Numbers are written with the figures, so in lower case. -/
theorem mem_figures_of_mem_digits (r : Radix) (n : Nat) : ∀ c ∈ r.digits n, c ∈ figures := by
  have hbase := r.base_le
  induction n using Nat.base_induction r.base r.one_lt_base with
  | single d hd =>
    rw [digits_of_lt hd, List.forall_mem_singleton]
    exact digitChar_mem_figures (by omega)
  | digit n d hd hn ih =>
    rw [digits_append hn hd, List.forall_mem_append, List.forall_mem_singleton]
    exact ⟨ih, digitChar_mem_figures (by omega)⟩

/-- The digits of a number are a numeral that stands for it. The induction goes from a number to the one
with one more digit. -/
theorem isNumeral_digits (r : Radix) (n : Nat) :
    r.IsNumeral (r.digits n) ∧ r.valueOf (r.digits n) = n := by
  have hbase := r.base_le
  induction n using Nat.base_induction r.base r.one_lt_base with
  | single d hd =>
    have hworth : worth d.digitChar = d := worth_digitChar (by omega)
    rw [digits_of_lt hd]
    refine ⟨⟨List.cons_ne_nil _ _, ?_⟩, ?_⟩
    · rwa [List.forall_mem_singleton, hworth]
    · rw [valueOf_cons, hworth, valueOf_nil, List.length_nil, Nat.pow_zero, Nat.one_mul,
        Nat.zero_add]
  | digit n d hd hn ih =>
    have hworth : worth d.digitChar = d := worth_digitChar (by omega)
    rw [digits_append hn hd]
    refine ⟨⟨List.append_ne_nil_of_right_ne_nil _ (List.cons_ne_nil _ _), ?_⟩, ?_⟩
    · rw [List.forall_mem_append, List.forall_mem_singleton, hworth]
      exact ⟨ih.1.2, hd⟩
    · rw [valueOf_append_singleton, hworth, ih.2, Nat.add_comm]

end Radix

end Netlist
