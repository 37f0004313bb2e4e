/-
Builds that look at the widths.

Two words side by side may be wider than can be counted. A build that checks the sum of the widths breaks
the work off there, and one that does not goes on with what is left of the sum. Nothing else depends on
the build: as long as the work is not broken off, values, errors and diagnostics are the same in both
(`Expr.checks_evalWith`, `Module.checks_simulateWith`). So what is shown of the build that does not check
holds of the other one too, up to where that one stops.
-/
import Netlist.Proofs.Simulation

set_option autoImplicit false

namespace Netlist

/-! ## Work that may be broken off -/

namespace Evaluation

variable {α β σ : Type}

/-- The first work is the second one, unless it is broken off. -/
def Checks (x y : Evaluation α) : Prop :=
  x = y ∨ x.run.value = .error .overflow

theorem Checks.refl (x : Evaluation α) : Checks x x := .inl rfl

theorem Checks.bind {x y : Evaluation α} {f g : α → Evaluation β} (hx : Checks x y)
    (hf : ∀ a, Checks (f a) (g a)) : Checks (x >>= f) (y >>= g) := by
  rcases hx with rfl | hstops
  · -- the first parts are the same, so it is up to what follows their result
    cases hvalue : x.run.value with
    | error err =>
      exact .inl (Work.bind_congr fun a ha => nomatch hvalue.symm.trans ha)
    | ok a =>
      rcases hf a with hsame | hstops
      · exact .inl (Work.bind_congr_of_ok hvalue hsame)
      · exact .inr (by rw [Work.value_bind, hvalue]; exact hstops)
  · exact .inr (by rw [Work.value_bind, hstops])

theorem Checks.foldlM {f g : σ → α → Evaluation σ} (h : ∀ s a, Checks (f s a) (g s a)) (as : List α)
    (s : σ) : Checks (as.foldlM f s) (as.foldlM g s) := by
  induction as generalizing s with
  | nil => exact .refl _
  | cons a as ih =>
    rw [List.foldlM_cons, List.foldlM_cons]
    exact (h s a).bind ih

end Evaluation

open Evaluation (Checks)

/-! ## Expressions -/

namespace Expr

variable {env : Env}

theorem checks_join (high low : Word) : Checks (join .stops high low) (join .wraps high low) := by
  by_cases h : Count.limit ≤ high.width + low.width
  · exact .inr (by rw [join, if_pos ⟨rfl, h⟩]; rfl)
  · exact .inl (by rw [join, join, if_neg fun hstops => h hstops.2, if_neg fun hstops => h hstops.2])

/-- The induction is on the number of copies. -/
theorem checks_joinCopies (n : Nat) (copies there : Word) :
    Checks (Word.joinCopies (join .stops) n copies there)
      (Word.joinCopies (join .wraps) n copies there) := by
  induction n using Nat.strongRecOn generalizing copies there with
  | ind n ih =>
    rw [Word.joinCopies, Word.joinCopies]
    by_cases hn : n = 0
    · rw [if_pos hn, if_pos hn]
      exact .refl _
    · rw [if_neg hn, if_neg hn]
      refine Checks.bind ?_ fun there => Checks.bind ?_ fun copies =>
        ih _ (Nat.div_lt_self (Nat.pos_of_ne_zero hn) (by decide)) copies there
      · split
        · exact checks_join there copies
        · exact .refl _
      · split
        · exact .refl _
        · exact checks_join copies copies

theorem checks_evalBelow {parts : List Expr}
    (h : ∀ e ∈ parts, Checks (evalWith .stops env e) (evalWith .wraps env e)) (there : Word) :
    Checks (evalBelow .stops env there parts) (evalBelow .wraps env there parts) := by
  induction parts generalizing there with
  | nil => exact .refl _
  | cons e es ih =>
    rw [evalBelow, evalBelow]
    exact (h e List.mem_cons_self).bind fun v => (checks_join there v).bind fun there =>
      ih (fun e he => h e (List.mem_cons_of_mem _ he)) there

/-- An expression has the same outcome in both builds, unless it is broken off. -/
theorem checks_evalWith (env : Env) (e : Expr) : Checks (evalWith .stops env e) (eval env e) := by
  show Checks (evalWith .stops env e) (evalWith .wraps env e)
  induction e using Expr.induction with
  | constant text | signal name =>
    rw [evalWith, evalWith]
    exact .refl _
  | binary op left right ihl ihr =>
    rw [evalWith, evalWith]
    split
    · exact ihl.bind fun a => ihr.bind fun b => .refl _
    · exact .refl _
  | unary op operand ih =>
    rw [evalWith, evalWith]
    split
    · exact ih.bind fun a => .refl _
    · exact .refl _
  | conditional condition yes no ihc ihy ihn =>
    rw [evalWith, evalWith]
    refine ihc.bind fun c => ?_
    split
    · exact ihn
    · exact ihy
  | concat parts ih =>
    rw [evalWith, evalWith]
    exact checks_evalBelow ih (.zero 0)
  | replicate body count ihb ihc =>
    rw [evalWith, evalWith]
    refine ihc.bind fun n => ?_
    split
    · exact .refl _
    · exact .refl _
    · exact ihb.bind fun v => checks_joinCopies _ v (.zero 0)
  | slice body start stop ih =>
    rw [evalWith, evalWith]
    exact ih.bind fun v => .refl _
  | partSelect body base width ihe ihb =>
    rw [evalWith, evalWith]
    exact ihe.bind fun v => ihb.bind fun p => .refl _
  | select body index ihe ihi =>
    rw [evalWith, evalWith]
    exact ihe.bind fun v => ihi.bind fun p => .refl _

end Expr

/-! ## Modules -/

namespace Module

theorem checks_bindWireWith (env : Env) (w : Wire) :
    Checks (bindWireWith .stops env w) (bindWire env w) :=
  ((Expr.checks_evalWith env w.definition).bind fun _ => .refl _).bind fun _ => .refl _

/-- A module has the same outcome in both builds, unless it is broken off. -/
theorem checks_simulateWith (m : Module) (given : Env) :
    Checks (m.simulateWith .stops given) (m.simulate given) :=
  (Checks.refl _).bind fun env => Checks.foldlM checks_bindWireWith m.wires env

end Module

end Netlist
