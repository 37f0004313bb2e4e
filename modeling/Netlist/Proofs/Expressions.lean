/-
Induction over expressions, and where their parts stand.

An expression holds a row of expressions at one constructor, so the induction that Lean
generates speaks of rows as well. `Expr.induction` speaks of expressions alone: a row is
good if all its members are. Every proof about evaluation, about signals and about
operators is one use of it, with one case a constructor.
-/
import Netlist.Expr
import Netlist.Proofs.Names

set_option autoImplicit false

namespace Netlist.Expr

/-! ## Induction -/

section Induction

variable {motive : Expr → Prop}
  (constant : ∀ text, motive (.constant text))
  (signal : ∀ name, motive (.signal name))
  (binary : ∀ op left right, motive left → motive right → motive (.binary op left right))
  (unary : ∀ op operand, motive operand → motive (.unary op operand))
  (conditional : ∀ condition yes no, motive condition → motive yes → motive no →
    motive (.conditional condition yes no))
  (concat : ∀ parts, (∀ e ∈ parts, motive e) → motive (.concat parts))
  (replicate : ∀ body count, motive body → motive count → motive (.replicate body count))
  (slice : ∀ body start stop, motive body → motive (.slice body start stop))
  (partSelect : ∀ body base width, motive body → motive base →
    motive (.partSelect body base width))
  (select : ∀ body index, motive body → motive index → motive (.select body index))

include constant signal binary unary conditional concat replicate slice partSelect select

/-- What holds of an expression whenever it holds of its parts holds of all expressions. -/
@[elab_as_elim]
theorem induction (e : Expr) : motive e :=
  Expr.rec (motive_1 := motive) (motive_2 := fun parts => ∀ e ∈ parts, motive e)
    constant signal binary unary conditional concat replicate slice partSelect select
    (by simp)
    (fun first rest hfirst hrest e he => by
      rcases List.mem_cons.1 he with rfl | he
      · exact hfirst
      · exact hrest e he)
    e

end Induction

/-! ## Parts -/

/-- The expressions right below the top of an expression. -/
def parts : Expr → List Expr
  | constant _ | signal _ => []
  | binary _ left right => [left, right]
  | unary _ operand => [operand]
  | conditional condition yes no => [condition, yes, no]
  | concat parts => parts
  | replicate body count => [body, count]
  | slice body _ _ => [body]
  | partSelect body base _ => [body, base]
  | select body index => [body, index]

theorem subexprsAll_eq (parts : List Expr) : subexprsAll parts = parts.flatMap subexprs := by
  induction parts with
  | nil => rfl
  | cons e es ih => rw [subexprsAll, ih, List.flatMap_cons]

theorem subexprs_eq (e : Expr) : e.subexprs = e :: e.parts.flatMap subexprs := by
  cases e <;> simp [subexprs, parts, subexprsAll_eq]

theorem mem_subexprs_self (e : Expr) : e ∈ e.subexprs := by
  rw [subexprs_eq]
  exact List.mem_cons_self

theorem mem_subexprs_of_mem_parts {s part e : Expr} (hpart : part ∈ e.parts)
    (hs : s ∈ part.subexprs) : s ∈ e.subexprs := by
  rw [subexprs_eq]
  exact List.mem_cons_of_mem _ (List.mem_flatMap.2 ⟨part, hpart, hs⟩)

/-- What holds of all subexpressions holds of the expression and of all that is in its parts. -/
theorem forall_mem_subexprs_iff {P : Expr → Prop} {e : Expr} :
    (∀ s ∈ e.subexprs, P s) ↔ P e ∧ ∀ part ∈ e.parts, ∀ s ∈ part.subexprs, P s := by
  rw [subexprs_eq, List.forall_mem_cons]
  refine and_congr_right fun _ => ?_
  constructor
  · intro h part hpart s hs
    exact h s (List.mem_flatMap.2 ⟨part, hpart, hs⟩)
  · intro h s hs
    obtain ⟨part, hpart, hs⟩ := List.mem_flatMap.1 hs
    exact h part hpart s hs

@[simp] theorem mem_signals {e : Expr} {name : String} :
    name ∈ e.signals.keys ↔ .signal name ∈ e.subexprs := by
  rw [signals, NameSet.mem_keys_ofNames, List.mem_filterMap]
  constructor
  · rintro ⟨s, hs, hname⟩
    cases s <;> simp [signalName?] at hname
    exact hname ▸ hs
  · intro h
    exact ⟨_, h, rfl⟩

end Netlist.Expr
