/-
One selection in several forms.

The same bits of a word can be selected by fixed bounds, upwards from a computed position, downwards from
one, and bit by bit. Each form is worked out on its own: by the distance of the bounds, by a sum, by a
difference at the width of the base, and by looking at single bits that are put together again. All of
them yield the bits from the lowest position up, with zeros for what is past the top of the word, and
all report it in the same cases (`selections_agree`).
-/
import Netlist.Proofs.Concatenation
import Netlist.Proofs.DescendingSelections

set_option autoImplicit false

namespace Netlist

/-! ## Bits put together -/

namespace Word

variable {u v : Word} {k width : Nat}

/-- The word holds so many bits of another one, from bit `k` up. Those past the top of the other one are
zero. -/
structure IsWindow (u v : Word) (k width : Nat) : Prop where
  width_eq : u.width = width
  bit_eq : ∀ j < width, u.bit j = v.bit (k + j)
  past : ∀ j, v.width ≤ k + j → u.bit j = false

theorem isWindow_extract (v : Word) (k width : Nat) : (v.extract k width).IsWindow v k width where
  width_eq := rfl
  bit_eq j hj := by
    rw [bit_extract, decide_eq_true hj, Bool.true_and]
  past j hj := by
    rw [bit_extract, v.bit_of_width_le hj, Bool.and_false]

/-- Single bits side by side, from the top one down, are what is extracted in one go. The induction is
on the number of bits; the one that is added is the lowest. -/
theorem concat_bits (v : Word) (k : Nat) {width : Nat} (h : width < Count.limit) :
    concat ((List.range width).reverse.map fun j => .ofBool (v.bit (k + j))) =
      v.extract k width := by
  induction width generalizing k with
  | zero =>
    ext
    · rfl
    · rw [bits_extract, modulus_zero, Nat.mod_one]
      rfl
  | succ width ih =>
    have hshift : (List.range width).reverse.map (fun j => Word.ofBool (v.bit (k + (j + 1)))) =
        (List.range width).reverse.map fun j => Word.ofBool (v.bit (k + 1 + j)) := by
      refine List.map_congr_left fun j _ => ?_
      rw [Nat.add_right_comm, Nat.add_assoc]
    rw [List.range_succ_eq_map, List.reverse_cons, List.map_append, List.map_singleton,
      concat_append_singleton, ← List.map_reverse, List.map_map]
    show (concat ((List.range width).reverse.map fun j => Word.ofBool (v.bit (k + (j + 1))))).append
      (.ofBool (v.bit k)) = _
    rw [hshift, ih _ (by omega), ← extract_one, append_extract v k h]

end Word

namespace Expr

variable {env : Env} {body base index : Expr} {t : Tree} {v i p : Word} {log log' : Log}
  {k width : Nat}

/-! ## Bit by bit -/

theorem value_select (hv : (body.eval env).run.value = .ok v)
    (hp : (index.eval env).run.value = .ok p) :
    ((select body index).eval env).run.value = .ok (.ofBool (v.bit p.bits)) := by
  rw [eval_select, Work.value_bind_eq_ok]
  exact ⟨v, hv, Work.value_bind_eq_ok.2 ⟨p, hp, value_evalSelect _ _ _⟩⟩

theorem value_concat_selects {indices : Nat → Expr} (hwidth : width < Count.limit)
    (hv : (body.eval env).run.value = .ok v)
    (hindices : ∀ j < width, ∃ p, ((indices j).eval env).run.value = .ok p ∧ p.bits = k + j) :
    ((concat ((List.range width).reverse.map fun j => select body (indices j))).eval env).run.value =
      .ok (v.extract k width) := by
  have hbits : ∀ j ∈ (List.range width).reverse,
      ((select body (indices j)).eval env).run.value = .ok (.ofBool (v.bit (k + j))) := by
    intro j hj
    obtain ⟨p, hp, hbits⟩ := hindices j (List.mem_range.1 (List.mem_reverse.1 hj))
    rw [← hbits]
    exact value_select hv hp
  rw [← Word.concat_bits v k hwidth]
  refine (value_concat ?_).trans (if_neg fun hstops => nomatch hstops.1)
  rw [List.forall₂_map_left_iff, List.forall₂_map_right_iff, List.forall₂_same]
  exact hbits

/-! ## All forms -/

/-- A selection downwards that does not run below bit zero has its lower end where it should be. -/
theorem lowest_eq {lowest : Word} (hi : i.bits = k + width - 1) (hwidth : 0 < width)
    (hlowest : (lowest.bits : ℤ) = ((i.bits : ℤ) - (width - 1 : ℕ)) % 2 ^ i.width) :
    lowest.bits = k := by
  have hlt : (i.bits : ℤ) < 2 ^ i.width := by exact_mod_cast i.bits_lt_two_pow
  rw [Int.emod_eq_of_lt (by omega) (by omega)] at hlowest
  omega

/-- The slice of so many bits with ascending bounds. -/
theorem run_slice_upwards (hv : (body.eval env).run = ⟨.ok v, log⟩) (hwidth : 0 < width)
    (hcount : k + width < Count.limit) :
    ((slice body k (k + width - 1)).eval env).run =
      ⟨.ok (v.extract k width), log ++ reportIf (v.width < k + width)
        (.sliceOutOfRange (slice body k (k + width - 1)) v.width)⟩ := by
  have hdistance : Count.saturate (Count.distance k (k + width - 1) + 1) = width := by
    rw [Count.distance, if_pos (by omega), Count.saturate_eq_self (by omega)]
    omega
  have hreport : v.width < Count.saturate (min k (k + width - 1) +
      Count.saturate (Count.distance k (k + width - 1) + 1)) ↔ v.width < k + width := by
    rw [slice_overruns_iff (.inr (by omega))]
    omega
  rw [run_slice hv, reportIf_congr hreport, hdistance]

/-- All forms of a selection agree. Fixed bounds, a computed position, a computed position that is the
upper end, a computed index if it is one bit, and single bits put together yield one word, which holds
the bits from bit `k` up. All but the last report that the bits go past the top of the word exactly if
they do, once, and behind what their parts report. -/
theorem selections_agree (hv : (body.eval env).run = ⟨.ok v, log⟩) (hwidth : 0 < width)
    (hlimit : k + width < 2 ^ 63) :
    ∃ u : Word, u.IsWindow v k width ∧
      ((slice body k (k + width - 1)).eval env).run =
        ⟨.ok u, log ++ reportIf (v.width < k + width)
          (.sliceOutOfRange (slice body k (k + width - 1)) v.width)⟩ ∧
      (∀ base p log', (base.eval env).run = ⟨.ok p, log'⟩ → p.bits = k →
        ((partSelect body base width).eval env).run =
          ⟨.ok u, log ++ (log' ++ reportIf (v.width < k + width)
            (.partSelectOutOfRange (partSelect body base width) p v.width))⟩) ∧
      (∀ t base i log', Tree.SelectsDown body base width t → (base.eval env).run = ⟨.ok i, log'⟩ →
        i.bits = k + width - 1 →
        ∃ lowest : Word, lowest.bits = k ∧
          t.evaluate env =
            ⟨some (.ok u), log ++ (log' ++ reportIf (v.width < k + width)
              (.partSelectOutOfRange (selectDown body base width) lowest v.width))⟩) ∧
      (width = 1 → ∀ index p log', (index.eval env).run = ⟨.ok p, log'⟩ → p.bits = k →
        ((select body index).eval env).run =
          ⟨.ok u, log ++ (log' ++ reportIf (v.width < k + width)
            (.selectOutOfRange (select body index) p v.width))⟩) ∧
      ∀ indices : Nat → Expr,
        (∀ j < width, ∃ p, ((indices j).eval env).run.value = .ok p ∧ p.bits = k + j) →
        ((concat ((List.range width).reverse.map fun j => select body (indices j))).eval
          env).run.value = .ok u := by
  have hcount : k + width < Count.limit := by
    unfold Count.limit
    omega
  have hpast : Overruns v.width k width ↔ v.width < k + width := overruns_iff (.inr hcount)
  refine ⟨v.extract k width, v.isWindow_extract k width, run_slice_upwards hv hwidth hcount,
    ?_, ?_, ?_, ?_⟩
  · rintro base p log' hp rfl
    rw [run_partSelect hv hp, reportIf_congr hpast]
  · intro t base i log' ht hi hbits
    obtain ⟨lowest, hlowest, hrun⟩ := ht.evaluate hwidth hv hi
    have hk : lowest.bits = k := lowest_eq hbits hwidth hlowest
    refine ⟨lowest, hk, ?_⟩
    rw [hrun, hk, reportIf_congr hpast]
  · rintro rfl index p log' hp rfl
    have hreport : v.width ≤ p.bits ↔ v.width < p.bits + 1 := Nat.lt_succ_iff.symm
    rw [run_select hv hp, Word.extract_one, reportIf_congr hreport]
  · intro indices hindices
    have hvalue : (body.eval env).run.value = .ok v := by rw [hv]
    exact value_concat_selects (by omega) hvalue hindices

/-- Four bits of `a` from bit nine downwards. -/
def fourFromNine : Tree :=
  .branch .indexedRangeSelect
    [.leaf .simpleIdentifier "a", .leaf .number "9", .leaf .indexedRangeOperator "-:",
      .leaf .number "4"]

/-- Of the eight bits of `a` bits six and seven are selected, and two more that are past the top. -/
theorem selections_agree_pastTop :
    ((signal "a").eval eightBits).run = ⟨.ok (.ofNat 8 180), []⟩ ∧ 0 < 4 ∧ 6 + 4 < 2 ^ 63 ∧
    ((constant "6").eval eightBits).run = ⟨.ok (.ofNat 3 6), []⟩ ∧
    fourFromNine.SelectsDown (signal "a") (constant "9") 4 ∧
    ((constant "9").eval eightBits).run = ⟨.ok (.ofNat 4 9), []⟩ ∧
    (∃ u : Word, u.IsWindow (.ofNat 8 180) 6 4 ∧
      ((slice (signal "a") 6 9).eval eightBits).run =
        ⟨.ok u, [⟨.warning, none, .sliceOutOfRange (slice (signal "a") 6 9) 8⟩]⟩ ∧
      ((partSelect (signal "a") (constant "6") 4).eval eightBits).run =
        ⟨.ok u, [⟨.warning, none,
          .partSelectOutOfRange (partSelect (signal "a") (constant "6") 4) (.ofNat 3 6) 8⟩]⟩ ∧
      (∃ lowest : Word, lowest.bits = 6 ∧ fourFromNine.evaluate eightBits =
        ⟨some (.ok u), [⟨.warning, none,
          .partSelectOutOfRange (selectDown (signal "a") (constant "9") 4) lowest 8⟩]⟩) ∧
      ((concat ((List.range 4).reverse.map fun j => select (signal "a")
        (constant (Radix.decimal.numeral (6 + j))))).eval eightBits).run.value = .ok u) ∧
    ∃ u : Word, u.IsWindow (.ofNat 8 180) 6 1 ∧
      ((select (signal "a") (constant "6")).eval eightBits).run = ⟨.ok u, []⟩ := by
  have hv : ((signal "a").eval eightBits).run = ⟨.ok (.ofNat 8 180), []⟩ := rfl
  have hfirst : ((constant "6").eval eightBits).run = ⟨.ok (.ofNat 3 6), []⟩ := rfl
  have hlast : ((constant "9").eval eightBits).run = ⟨.ok (.ofNat 4 9), []⟩ := rfl
  have htree : fourFromNine.SelectsDown (signal "a") (constant "9") 4 :=
    .node rfl rfl rfl (by decide +kernel)
  have hindices : ∀ j < 4, ∃ p,
      ((constant (Radix.decimal.numeral (6 + j))).eval eightBits).run.value = .ok p ∧
        p.bits = 6 + j := by
    intro j _
    exact ⟨_, congrArg Logged.value (run_numeral eightBits (6 + j)), Literal.bits_bareWidth _⟩
  have hfour : 0 < 4 := by decide
  have hlimit : 6 + 4 < 2 ^ 63 := by decide
  obtain ⟨u, hwindow, hslice, hup, hdown, -, hconcat⟩ := selections_agree hv hfour hlimit
  obtain ⟨u', hwindow', -, -, -, hbit, -⟩ :=
    selections_agree hv Nat.one_pos (show 6 + 1 < 2 ^ 63 by decide)
  refine ⟨hv, hfour, hlimit, hfirst, htree, hlast, ⟨u, hwindow, hslice, hup _ _ _ hfirst rfl,
    hdown _ _ _ _ htree hlast rfl, hconcat _ hindices⟩, u', hwindow', hbit rfl _ _ _ hfirst rfl⟩

end Expr

end Netlist
