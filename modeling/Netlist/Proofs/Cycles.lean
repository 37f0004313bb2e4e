/-
Rows in order, and rows that are stuck.

Two facts about a relation `r`, read as "has to come after". A row in which everything
stands behind all that it has to come after reaches no cycle of `r`. A row in which
everything has to come after something else of the row reaches a cycle from each of its
members: following `r` inside the row never ends, and the row is finite.
-/
import Mathlib.Data.Fintype.Pigeonhole
import Mathlib.Data.Set.Finite.Basic
import Mathlib.Logic.Relation

set_option autoImplicit false

namespace Netlist

open Relation

variable {α : Type}

/-- Some walk along `r` gets to a place from which a walk leads back to that place. -/
def ReachesCycle (r : α → α → Prop) (a : α) : Prop :=
  ∃ c, ReflTransGen r a c ∧ TransGen r c c

/-- Everything in the row stands behind all that it has to come after. -/
def InOrderOf (r : α → α → Prop) (row : List α) : Prop :=
  ∀ before a after, row = before ++ a :: after → ∀ b, r a b → b ∈ before

section Ordered

variable {r : α → α → Prop} {row : List α}

theorem inOrderOf_nil : InOrderOf r [] := by
  intro before a after hsplit
  cases before <;> cases hsplit

/-- A row stays ordered when something is put behind all that it has to come after. -/
theorem InOrderOf.append_singleton (hord : InOrderOf r row) {a : α}
    (ha : ∀ b, r a b → b ∈ row) : InOrderOf r (row ++ [a]) := by
  intro before c after hsplit
  -- the last of the row is `a`; any other member has stood there before
  rcases List.eq_nil_or_concat after with rfl | ⟨init, last, rfl⟩
  · obtain ⟨rfl, heq⟩ := List.append_inj' hsplit rfl
    cases heq
    exact ha
  · rw [List.concat_eq_append, ← List.cons_append, ← List.append_assoc] at hsplit
    exact hord before c init (List.append_inj' hsplit rfl).1

theorem InOrderOf.mem (hord : InOrderOf r row) {a b : α} (ha : a ∈ row) (hab : r a b) :
    b ∈ row := by
  obtain ⟨before, after, hsplit⟩ := List.append_of_mem ha
  rw [hsplit]
  exact List.mem_append_left _ (hord before a after hsplit b hab)

/-- A row stays ordered when its members are renamed, and some left out, as long as what a
new member has to come after stems from something that the old one has to come after. -/
theorem InOrderOf.filterMap {β : Type} {s : β → β → Prop} {f : α → Option β}
    (hord : InOrderOf r row)
    (hrs : ∀ a u v, f a = some u → s u v → ∃ b, r a b ∧ f b = some v) :
    InOrderOf s (row.filterMap f) := by
  intro before u after hsplit v huv
  obtain ⟨row₁, row₂, rfl, rfl, hrest⟩ := List.filterMap_eq_append_iff.1 hsplit
  obtain ⟨skipped, a, row₃, rfl, hskipped, ha, -⟩ := List.filterMap_eq_cons_iff.1 hrest
  obtain ⟨b, hab, hb⟩ := hrs a u v ha huv
  have hmem : b ∈ row₁ ++ skipped :=
    hord (row₁ ++ skipped) a row₃ (List.append_assoc _ _ _).symm b hab
  rcases List.mem_append.1 hmem with hmem | hmem
  · exact List.mem_filterMap.2 ⟨b, hmem, hb⟩
  · rw [hskipped b hmem] at hb
    cases hb

/-- What a member of an ordered row has to come after stands at an earlier place. -/
theorem InOrderOf.idxOf_lt [DecidableEq α] (hord : InOrderOf r row) {a b : α} (ha : a ∈ row)
    (hab : r a b) : b ∈ row ∧ row.idxOf b < row.idxOf a := by
  -- the first place of `a` is the one to look at: before it there is no other `a`
  obtain ⟨before, after, hsplit, hnew⟩ := List.eq_append_cons_of_mem ha
  have hb : b ∈ before := hord before a after hsplit b hab
  have hidx : row.idxOf a = before.length := by
    rw [hsplit, List.idxOf_append_of_notMem hnew, List.idxOf_cons_self, Nat.add_zero]
  refine ⟨hsplit ▸ List.mem_append_left _ hb, ?_⟩
  rw [hidx, hsplit, List.idxOf_append_of_mem hb]
  exact List.idxOf_lt_length_of_mem hb

theorem InOrderOf.idxOf_lt_of_transGen [DecidableEq α] (hord : InOrderOf r row) {a b : α}
    (ha : a ∈ row) (hab : TransGen r a b) : b ∈ row ∧ row.idxOf b < row.idxOf a := by
  induction hab with
  | single h => exact hord.idxOf_lt ha h
  | tail _ h ih =>
    obtain ⟨hmem, hlt⟩ := hord.idxOf_lt ih.1 h
    exact ⟨hmem, hlt.trans ih.2⟩

theorem InOrderOf.not_reachesCycle [DecidableEq α] (hord : InOrderOf r row) {a : α}
    (ha : a ∈ row) : ¬ ReachesCycle r a := by
  rintro ⟨c, hac, hcc⟩
  have hc : c ∈ row := by
    rcases (reflTransGen_iff_eq_or_transGen.1 hac) with rfl | hac
    · exact ha
    · exact (hord.idxOf_lt_of_transGen ha hac).1
  exact Nat.lt_irrefl _ (hord.idxOf_lt_of_transGen hc hcc).2

end Ordered

section Stuck

variable {r : α → α → Prop}

/-- A function that follows `r` follows it any number of times. -/
theorem transGen_iterate {f : α → α} (hf : ∀ a, r a (f a)) (n : ℕ) (a : α) :
    TransGen r a (f^[n + 1] a) := by
  induction n with
  | zero => exact .single (hf a)
  | succ n ih =>
    rw [Function.iterate_succ_apply']
    exact ih.tail (hf _)

/-- If everything in a finite type has to come after something, cycles are everywhere. -/
theorem reachesCycle_of_finite [Finite α] {f : α → α} (hf : ∀ a, r a (f a)) (a : α) :
    ReachesCycle r a := by
  obtain ⟨m, n, hne, heq⟩ := Finite.exists_ne_map_eq_of_infinite fun n : ℕ => f^[n + 1] a
  have hloop : ∀ m n : ℕ, m < n → f^[m + 1] a = f^[n + 1] a →
      TransGen r (f^[m + 1] a) (f^[m + 1] a) := by
    intro m n hlt heq
    obtain ⟨d, rfl⟩ := Nat.exists_eq_add_of_lt hlt
    have hsplit : f^[m + d + 1 + 1] a = f^[d + 1] (f^[m + 1] a) := by
      rw [← Function.iterate_add_apply]
      congr 1
      omega
    have hwalk := transGen_iterate hf d (f^[m + 1] a)
    rwa [← hsplit, ← heq] at hwalk
  rcases Nat.lt_or_gt_of_ne hne with hlt | hlt
  · exact ⟨_, (transGen_iterate hf m a).to_reflTransGen, hloop m n hlt heq⟩
  · exact ⟨_, (transGen_iterate hf n a).to_reflTransGen, hloop n m hlt heq.symm⟩

/-- Whatever is in a row that is stuck reaches a cycle. -/
theorem reachesCycle_of_stuck {row : List α} (hstuck : ∀ a ∈ row, ∃ b ∈ row, r a b) {a : α}
    (ha : a ∈ row) : ReachesCycle r a := by
  choose f hmem hf using hstuck
  let next : {a // a ∈ row} → {a // a ∈ row} := fun a => ⟨f a a.2, hmem a a.2⟩
  have : Finite {a // a ∈ row} := row.finite_toSet.to_subtype
  obtain ⟨c, hac, hcc⟩ := reachesCycle_of_finite (r := fun a b => r a.1 b.1) (f := next)
    (fun a => hf a a.2) ⟨a, ha⟩
  exact ⟨c, hac.lift Subtype.val fun _ _ h => h, hcc.lift Subtype.val fun _ _ h => h⟩

end Stuck

end Netlist
