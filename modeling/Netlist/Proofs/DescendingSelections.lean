/-
Selections that run downwards.

A selection of so many bits downwards from a base is lowered to one that runs upwards from its other
end (`SelectsDown.run_ofTree`). That end is worked out when the expression is evaluated, by a
subtraction at the width of the base (`SelectsDown.evaluate`). As long as it lies at bit zero or above,
it is what it should be. If it lies below, the subtraction wraps, and the bits that are selected are
others, which stand above the right ones by a multiple of the number of words of that width.

Such a selection is reported if those bits lie past the top of the operand, which they do if the base is
wide enough to count the bits of the operand, and it goes unreported if they do not
(`descending_selection_reports`).
-/
import Netlist.Proofs.Operators
import Netlist.Proofs.Selections

set_option autoImplicit false

namespace Netlist

/-! ## The lower end -/

/-- A difference that wraps is above the true one by the modulus at least. -/
theorem add_le_of_emod_eq {i amount start : Nat} {M : ℤ} (hbelow : i < amount)
    (hstart : (start : ℤ) = ((i : ℤ) - amount) % M) : (i : ℤ) + M ≤ start + amount := by
  have hdvd : M ∣ (start : ℤ) + amount - i := by
    have hself : M ∣ ((i : ℤ) - amount) - start := by
      rw [hstart]
      exact Int.dvd_self_sub_emod
    have hneg := (Int.dvd_neg).2 hself
    rwa [show -((i : ℤ) - amount - start) = start + amount - i by ring] at hneg
  have hle := Int.le_of_dvd (by omega) hdvd
  omega

namespace Expr

variable {env : Env} {base : Expr} {i : Word} {log : Log}

/-- The selection of so many bits from the base downwards: upwards from its other end. -/
def selectDown (body base : Expr) (width : Nat) : Expr :=
  partSelect body (binary "-" base (constant (Radix.decimal.numeral (width - 1)))) width

theorem run_numeral (env : Env) (n : Nat) :
    ((constant (Radix.decimal.numeral n)).eval env).run =
      ⟨.ok (.ofNat (Literal.bareWidth n) n), []⟩ := by
  rw [eval_constant, Literal.read_numeral]
  rfl

/-- The end is worked out at the width of the base, and nothing is recorded for it. -/
theorem run_lessNumeral (hi : (base.eval env).run = ⟨.ok i, log⟩) (n : Nat) :
    ((binary "-" base (constant (Radix.decimal.numeral n))).eval env).run =
      ⟨.ok (i.sub (.ofNat (Literal.bareWidth n) n)), log⟩ := by
  have hop : BinaryOperator.ofText? "-" = some .sub := rfl
  rw [eval_binary, hop]
  dsimp only
  rw [Work.run_bind_of_ok hi, Work.run_bind_of_ok (run_numeral env n), Tree.run_evalBinary]
  exact Logged.ext rfl (List.append_nil _)

theorem bits_sub_numeral (i : Word) (n : Nat) :
    ((i.sub (.ofNat (Literal.bareWidth n) n)).bits : ℤ) = ((i.bits : ℤ) - n) % 2 ^ i.width := by
  rw [Word.bits_sub_eq, Literal.bits_bareWidth]

end Expr

/-! ## Trees -/

namespace Tree

open Netlist.Expr

variable {t : Tree} {env : Env} {body base : Expr} {width : Nat} {v i : Word} {log log' : Log}

/-- The tree selects so many bits downwards. The expressions are what it selects from and what it
starts at. -/
inductive SelectsDown (body base : Expr) (width : Nat) : Tree → Prop
  | node {l : Location} {operand first op size : Tree} :
      (ofTree operand).run.value = some body → (ofTree first).run.value = some base →
      Text.trim op.text = "-:" → size.constant? = some (width : Int) →
      SelectsDown body base width (.node .indexedRangeSelect l [operand, first, op, size])

theorem SelectsDown.run_ofTree (ht : t.SelectsDown body base width) (hwidth : 0 < width) :
    (ofTree t).run = ⟨some (selectDown body base width), []⟩ := by
  obtain ⟨hbody, hbase, hop, hsize⟩ := ht
  obtain ⟨size, rfl⟩ := Nat.exists_eq_succ_of_ne_zero hwidth.ne'
  rw [ofTree, run_bind_of_some (run_ofTree_of_value hbody),
    run_bind_of_some (run_ofTree_of_value hbase), partSelectOf, run_bind_of_some (run_bound hsize)]
  dsimp only
  rw [hop]
  rfl

/-- What a selection downwards evaluates to, and what it records. -/
theorem SelectsDown.evaluate (ht : t.SelectsDown body base width) (hwidth : 0 < width)
    (hv : (body.eval env).run = ⟨.ok v, log⟩) (hi : (base.eval env).run = ⟨.ok i, log'⟩) :
    ∃ lowest : Word,
      (lowest.bits : ℤ) = ((i.bits : ℤ) - (width - 1 : ℕ)) % 2 ^ i.width ∧
      t.evaluate env =
        ⟨some (.ok (v.extract lowest.bits width)),
          log ++ (log' ++ reportIf (Overruns v.width lowest.bits width)
            (.partSelectOutOfRange (selectDown body base width) lowest v.width))⟩ :=
  ⟨_, bits_sub_numeral i (width - 1), evaluate_of_run_eq (ht.run_ofTree hwidth)
    (run_partSelect hv (run_lessNumeral hi (width - 1)) width)⟩

/-- What a selection downwards reports if it runs below bit zero. Its lower end wraps, at the width of
the base, and it is reported exactly if the bits from there up go past the top of the operand. They do
if the base can count all bits of the operand. Words of the largest width that there is are left out,
where counts cannot tell. -/
theorem descending_selection_reports (ht : t.SelectsDown body base width)
    (hv : (body.eval env).run = ⟨.ok v, log⟩) (hi : (base.eval env).run = ⟨.ok i, log'⟩)
    (hbelow : i.bits < width - 1) :
    ∃ lowest : Word,
      (lowest.bits : ℤ) = ((i.bits : ℤ) - (width - 1 : ℕ)) % 2 ^ i.width ∧
      t.evaluate env =
        ⟨some (.ok (v.extract lowest.bits width)),
          log ++ (log' ++ reportIf (Overruns v.width lowest.bits width)
            (.partSelectOutOfRange (selectDown body base width) lowest v.width))⟩ ∧
      (v.width < Count.limit - 1 →
        (Overruns v.width lowest.bits width ↔ v.width < lowest.bits + width)) ∧
      (v.width < Count.limit - 1 → v.width ≤ i.bits + 2 ^ i.width →
        Overruns v.width lowest.bits width) := by
  obtain ⟨lowest, hlowest, hrun⟩ := ht.evaluate (by omega) hv hi
  refine ⟨lowest, hlowest, hrun, fun hcount => overruns_iff (.inl hcount), ?_⟩
  intro hcount hcounts
  rw [overruns_iff (.inl hcount)]
  have hwrapped : i.bits + 2 ^ i.width ≤ lowest.bits + (width - 1) := by
    exact_mod_cast add_le_of_emod_eq hbelow hlowest
  omega

/-- Two bits downwards from `i`, of `a`. -/
def pairFromIndex : Tree :=
  branch .indexedRangeSelect
    [leaf .simpleIdentifier "a", leaf .simpleIdentifier "i", leaf .indexedRangeOperator "-:",
      leaf .number "2"]

/-- An environment in which `i` is zero, at three bits, and `a` has so many bits, none of them set. -/
def indexedAtZero (size : Nat) : Env :=
  .ofList [("a", .zero size), ("i", .zero 3)]

theorem selectsDown_pairFromIndex : pairFromIndex.SelectsDown (signal "a") (signal "i") 2 :=
  .node rfl rfl rfl (by decide +kernel)

/-- Three bits can count the eight bits of `a`, so the bit below bit zero is reported. -/
theorem descending_selection_reports_eightBits :
    pairFromIndex.SelectsDown (signal "a") (signal "i") 2 ∧
    ((signal "a").eval (indexedAtZero 8)).run = ⟨.ok (.zero 8), []⟩ ∧
    ((signal "i").eval (indexedAtZero 8)).run = ⟨.ok (.zero 3), []⟩ ∧
    (Word.zero 3).bits < 2 - 1 ∧ 8 < Count.limit - 1 ∧ 8 ≤ (Word.zero 3).bits + 2 ^ 3 ∧
    ∃ lowest : Word,
      (pairFromIndex.evaluate (indexedAtZero 8)).log =
        [⟨.warning, none, .partSelectOutOfRange (selectDown (signal "a") (signal "i") 2) lowest 8⟩] := by
  have hv : ((signal "a").eval (indexedAtZero 8)).run = ⟨.ok (.zero 8), []⟩ := rfl
  have hi : ((signal "i").eval (indexedAtZero 8)).run = ⟨.ok (.zero 3), []⟩ := rfl
  have hbelow : (Word.zero 3).bits < 2 - 1 := by decide
  have hcount : 8 < Count.limit - 1 := by decide
  have hcounts : 8 ≤ (Word.zero 3).bits + 2 ^ 3 := by decide
  obtain ⟨lowest, -, hrun, -, hreported⟩ :=
    descending_selection_reports selectsDown_pairFromIndex hv hi hbelow
  refine ⟨selectsDown_pairFromIndex, hv, hi, hbelow, hcount, hcounts, lowest, ?_⟩
  rw [hrun, reportIf, if_pos (hreported hcount hcounts)]
  rfl

/-- Of sixteen bits the ones that are selected are bits seven and eight, and nothing is reported. -/
theorem descending_selection_unreported :
    pairFromIndex.SelectsDown (signal "a") (signal "i") 2 ∧
    ((signal "a").eval (indexedAtZero 16)).run = ⟨.ok (.zero 16), []⟩ ∧
    ((signal "i").eval (indexedAtZero 16)).run = ⟨.ok (.zero 3), []⟩ ∧
    (Word.zero 3).bits < 2 - 1 ∧
    pairFromIndex.evaluate (indexedAtZero 16) = ⟨some (.ok ((Word.zero 16).extract 7 2)), []⟩ ∧
    ¬∃ d ∈ (pairFromIndex.evaluate (indexedAtZero 16)).log, d.isWarning = true := by
  have hrun : pairFromIndex.evaluate (indexedAtZero 16) =
      ⟨some (.ok ((Word.zero 16).extract 7 2)), []⟩ := rfl
  refine ⟨selectsDown_pairFromIndex, rfl, rfl, by decide, hrun, ?_⟩
  rw [hrun]
  simp

end Tree

end Netlist
