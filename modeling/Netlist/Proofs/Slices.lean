/-
What a slice reads, and what it reports.

A slice starts at its first bound, whichever of its bounds is the larger one, and goes up from there.
Yet it is the larger bound that decides about the warning. Where the bounds ascend this is the last bit
that is read; where they descend it is the first one, and the slice may read past the top without a
word (`slice_reports`).
-/
import Netlist.Proofs.Operators
import Netlist.Proofs.Selections

set_option autoImplicit false

namespace Netlist

/-! ## Bits -/

namespace Word

theorem bit_extract (v : Word) (base width i : Nat) :
    (v.extract base width).bit i = (decide (i < width) && v.bit (base + i)) := by
  rw [bit, extract, bits_ofNat, modulus_eq_two_pow, Nat.testBit_mod_two_pow,
    Nat.testBit_shiftRight, bit]

theorem bit_of_width_le (v : Word) {i : Nat} (h : v.width ≤ i) : v.bit i = false :=
  Nat.testBit_lt_two_pow (v.bits_lt_two_pow.trans_le (Nat.pow_le_pow_right two_pos h))

/-- A bit that is set lies inside the word. -/
theorem lt_width_of_bit {v : Word} {i : Nat} (h : v.bit i = true) : i < v.width := by
  by_contra hle
  rw [v.bit_of_width_le (Nat.not_lt.1 hle)] at h
  exact Bool.false_ne_true h

end Word

/-! ## Slices -/

namespace Expr

variable {env : Env} {body : Expr} {v : Word} {log : Log} {start stop : Nat}

/-- The slice between the bounds reads a bit past the top of the word. It reads upwards from the first
bound, as far as the bounds are apart. -/
def SlicesPast (v : Word) (start stop : Nat) : Prop :=
  ∃ i, start ≤ i ∧ i ≤ start + Count.distance start stop ∧ v.width ≤ i

theorem slicesPast_iff : SlicesPast v start stop ↔ v.width ≤ start + Count.distance start stop := by
  constructor
  · rintro ⟨i, -, hlast, hi⟩
    omega
  · intro h
    exact ⟨start + Count.distance start stop, Nat.le_add_right _ _, Nat.le_refl _, h⟩

/-- The bits of a slice are those of the word from the first bound on, also where the width of the
slice does not stay what it is. -/
theorem bit_slice (h : v.width < Count.limit - 1 ∨ max start stop < Count.limit - 1) {i : Nat}
    (hi : i ≤ Count.distance start stop) :
    (v.extract start (Count.saturate (Count.distance start stop + 1))).bit i = v.bit (start + i) := by
  have hsum := Count.min_add_distance start stop
  rw [Word.bit_extract, Bool.and_eq_right_iff_imp, decide_eq_true_iff]
  intro hbit
  -- a bit that is set is none of those that are cut off
  have hinside := Word.lt_width_of_bit hbit
  refine (Count.lt_saturate_iff ?_).2 (by omega)
  omega

/-- What a slice reports. The larger bound decides, so that a slice that reports anything does read past
the top of the word. One whose bounds ascend reports it whenever it does. One whose bounds descend
reports it only if it starts there. -/
theorem slice_reports (hv : (body.eval env).run = ⟨.ok v, log⟩)
    (hcount : v.width < Count.limit - 1 ∨ max start stop < Count.limit - 1) :
    ∃ u : Word,
      ((slice body start stop).eval env).run =
        ⟨.ok u, log ++ reportIf (v.width ≤ max start stop)
          (.sliceOutOfRange (slice body start stop) v.width)⟩ ∧
      (∀ i ≤ Count.distance start stop, u.bit i = v.bit (start + i)) ∧
      (v.width ≤ max start stop → SlicesPast v start stop) ∧
      (start ≤ stop → SlicesPast v start stop → v.width ≤ max start stop) ∧
      (stop < start → (v.width ≤ max start stop ↔ v.width ≤ start)) := by
  have hreport := reportIf_congr (slice_overruns_iff hcount)
    (.sliceOutOfRange (slice body start stop) v.width)
  have hreach := Count.max_le_add_distance start stop
  refine ⟨v.extract start (Count.saturate (Count.distance start stop + 1)), ?_,
    fun i hi => bit_slice hcount hi, ?_, ?_, ?_⟩
  · rw [run_slice hv, hreport]
  · intro hle
    exact slicesPast_iff.2 (hle.trans hreach)
  · intro hascend hpast
    rw [slicesPast_iff, Count.add_distance_of_le hascend] at hpast
    omega
  · intro hdescend
    rw [Nat.max_eq_left hdescend.le]

/-- An environment that binds `a` to the bits `10110100`. -/
def eightBits : Env :=
  .ofList [("a", .ofNat 8 180)]

/-- The slice from bit six up to bit nine goes past the eight bits of `a`, and reports it. The same bits
the other way round are those from bit nine up, and that is reported too. -/
theorem slice_reports_eightBits :
    ((signal "a").eval eightBits).run = ⟨.ok (.ofNat 8 180), []⟩ ∧
    (8 < Count.limit - 1 ∨ max 6 9 < Count.limit - 1) ∧
    (∃ u : Word,
      ((slice (signal "a") 6 9).eval eightBits).run =
        ⟨.ok u, [⟨.warning, none, .sliceOutOfRange (slice (signal "a") 6 9) 8⟩]⟩ ∧
      (∀ i ≤ 3, u.bit i = (Word.ofNat 8 180).bit (6 + i)) ∧ SlicesPast (.ofNat 8 180) 6 9) ∧
    ∃ u : Word,
      ((slice (signal "a") 9 6).eval eightBits).run =
        ⟨.ok u, [⟨.warning, none, .sliceOutOfRange (slice (signal "a") 9 6) 8⟩]⟩ ∧
      SlicesPast (.ofNat 8 180) 9 6 ∧ (8 ≤ max 9 6 ↔ 8 ≤ 9) := by
  have hv : ((signal "a").eval eightBits).run = ⟨.ok (.ofNat 8 180), []⟩ := rfl
  have hcount : 8 < Count.limit - 1 := by decide
  have hup : 8 < Count.limit - 1 ∨ max 6 9 < Count.limit - 1 := .inl hcount
  have hdown : 8 < Count.limit - 1 ∨ max 9 6 < Count.limit - 1 := .inl hcount
  obtain ⟨u, hrun, hbits, hpast, -⟩ := slice_reports hv hup
  obtain ⟨u', hrun', -, hpast', -, hfirst⟩ := slice_reports hv hdown
  exact ⟨hv, hup, ⟨u, hrun, hbits, hpast (by decide)⟩, u', hrun', hpast' (by decide),
    hfirst (by decide)⟩

/-- The slice from bit five with the bounds the other way round reads bits five to eight, of which the
last one is past the eight bits of `a`. Nothing is reported. -/
theorem slice_past_unreported :
    SlicesPast (.ofNat 8 180) 5 2 ∧
    ((slice (signal "a") 5 2).eval eightBits).run = ⟨.ok (.ofNat 4 5), []⟩ ∧
    ¬(SlicesPast (.ofNat 8 180) 5 2 →
      ∃ d ∈ ((slice (signal "a") 5 2).eval eightBits).run.log, d.isWarning = true) := by
  have hpast : SlicesPast (.ofNat 8 180) 5 2 := slicesPast_iff.2 (by decide)
  have hrun : ((slice (signal "a") 5 2).eval eightBits).run = ⟨.ok (.ofNat 4 5), []⟩ := rfl
  refine ⟨hpast, hrun, fun hreported => ?_⟩
  obtain ⟨d, hd, -⟩ := hreported hpast
  rw [hrun] at hd
  exact absurd hd (by simp)

end Expr

end Netlist
