/-
Which wires keep the order in which they are listed.

Where neither of two wires has to come after the other, one would like a schedule to leave them in the
order in which they are listed. The queue does not: a wire joins it when the last of its sources is
done, and wires that were ready all along are in front of it by then. So a wire that is listed first
stays first exactly if what it waits for is done no later than what the other one waits for
(`schedule_keeps_order`). Wires with the same last source do keep their order.

No schedule could do better everywhere. If a wire is listed in front of a wire that it has to come
after, and an independent one is listed between the two, then every order of evaluation moves the
third past one of them (`IsOrderingOf.not_stableFor`).
-/
import Netlist.Proofs.ScheduleOrder

set_option autoImplicit false

namespace Netlist.Module

open Relation

variable {m s : Module} {u v : Wire}

/-! ## Stable orders -/

/-- Neither of two signals has to come after the other, directly or through others. -/
def Independent (m : Module) (u v : String) : Prop :=
  ¬ TransGen m.Reads u v ∧ ¬ TransGen m.Reads v u

/-- Independent wires of `m` stand in `s` in the order in which `m` lists them. -/
def StableFor (s m : Module) : Prop :=
  ∀ u ∈ m.wireNames, ∀ v ∈ m.wireNames, m.Independent u v →
    (s.placeOf u < s.placeOf v ↔ m.placeOf u < m.placeOf v)

/-- All that `u` waits for is done no later in `s` than something that `v` waits for. -/
def WaitsNoLonger (s m : Module) (u v : Wire) : Prop :=
  ∀ p ∈ m.needs u, ∃ q ∈ m.needs v, s.placeOf p ≤ s.placeOf q

theorem Independent.symm {u v : String} (h : m.Independent u v) : m.Independent v u :=
  ⟨h.2, h.1⟩

/-- It is enough to look at each pair from the wire that is listed first. -/
theorem stableFor_iff :
    s.StableFor m ↔ ∀ u ∈ m.wireNames, ∀ v ∈ m.wireNames, m.placeOf u < m.placeOf v →
      m.Independent u v → s.placeOf u < s.placeOf v := by
  constructor
  · intro h u hu v hv hlisted hindep
    exact (h u hu v hv hindep).2 hlisted
  · intro h u hu v hv hindep
    rcases Nat.lt_trichotomy (m.placeOf u) (m.placeOf v) with hlt | heq | hgt
    · have := h u hu v hv hlt hindep
      omega
    · obtain rfl := (List.idxOf_inj hu).1 heq
      omega
    · have := h v hv u hu hgt hindep.symm
      omega

/-- No order of evaluation is stable where a wire is listed in front of one that it has to come after,
with a wire between them that is independent of both. -/
theorem IsOrderingOf.not_stableFor {u v x : String} (hs : s.IsOrderingOf m)
    (hu : u ∈ m.wireNames) (hx : x ∈ m.wireNames) (hreads : TransGen m.Reads u v)
    (hux : m.placeOf u < m.placeOf x) (hxv : m.placeOf x < m.placeOf v)
    (hindep : m.Independent u x) (hindep' : m.Independent x v) : ¬ s.StableFor m := by
  intro hstable
  obtain ⟨hv, hlast⟩ := hs.ordered.idxOf_lt_of_transGen (hs.perm_wireNames.mem_iff.2 hu) hreads
  have hfirst := (hstable u hu x hx hindep).2 hux
  have hsecond := (hstable x hx v (hs.perm_wireNames.mem_iff.1 hv) hindep').2 hxv
  -- `v` has to stand in front of `u`, which has to stand in front of `x`, and that in front of `v`
  unfold placeOf at hfirst hsecond
  omega

/-! ## Places of wires -/

theorem placeOf_getElem (hnodup : m.wireNames.Nodup) {i : Nat} (hi : i < m.wires.length) :
    m.placeOf m.wires[i].name = i :=
  placeOf_of_nameAt hnodup (nameAt_eq_some_iff.2 ⟨hi, rfl⟩)

theorem pairwise_placeOf (hnodup : m.wireNames.Nodup) :
    m.wires.Pairwise fun u v => m.placeOf u.name < m.placeOf v.name := by
  rw [List.pairwise_iff_getElem]
  intro i j hi hj hlt
  rwa [placeOf_getElem hnodup hi, placeOf_getElem hnodup hj]

section Schedule

variable (h : m.schedule = .ok s)
include h

/-- Ranks compare as what wires wait for. -/
theorem rankOf_le_rankOf_iff : s.rankOf u ≤ s.rankOf v ↔ s.WaitsNoLonger m u v := by
  rw [WaitsNoLonger, ← needs_of_schedule h]
  constructor
  · intro hle p hp
    have hlt : s.placeOf p < s.rankOf u := placeOf_lt_rankOf hp
    obtain ⟨q, hq, heq⟩ := exists_need_of_rankOf_pos (s := s) (w := v) (by omega)
    exact ⟨q, hq, by omega⟩
  · intro hwaits
    by_cases hzero : s.rankOf u = 0
    · omega
    · obtain ⟨p, hp, heq⟩ := exists_need_of_rankOf_pos (s := s) (w := u) (by omega)
      obtain ⟨q, hq, hle⟩ := hwaits p hp
      have hlt : s.placeOf q < s.rankOf v := placeOf_lt_rankOf hq
      omega

/-- A wire that is listed first stays first if it does not wait longer, and only then. -/
theorem placeOf_lt_iff_of_listed (hu : u ∈ m.wires) (hv : v ∈ m.wires)
    (hlisted : m.placeOf u.name < m.placeOf v.name) :
    s.placeOf u.name < s.placeOf v.name ↔ s.WaitsNoLonger m u v := by
  rw [placeOf_lt_iff h hu hv, ← rankOf_le_rankOf_iff h]
  omega

/-- The wires with one last source are listed in the schedule as in the module. -/
theorem filter_lastNeed (last : Option Nat) :
    s.wires.filter (fun w => s.lastNeed w = last) =
      m.wires.filter (fun w => s.lastNeed w = last) := by
  obtain ⟨hm, hs⟩ := of_schedule_eq_ok h
  have hnodup : s.wireNames.Nodup := hs.perm_wireNames.nodup_iff.2 hm.nodup
  have hlisted := (pairwise_placeOf hm.nodup).filter fun w => decide (s.lastNeed w = last)
  have hscheduled : (s.wires.filter fun w => s.lastNeed w = last).Pairwise
      fun u v => m.placeOf u.name < m.placeOf v.name := by
    refine ((pairwise_placeOf hnodup).filter _).imp_of_mem ?_
    intro a b ha hb hlt
    obtain ⟨ha, halast⟩ := List.mem_filter.1 ha
    obtain ⟨hb, hblast⟩ := List.mem_filter.1 hb
    have hrank : s.rankOf a = s.rankOf b := by
      rw [rankOf, rankOf, of_decide_eq_true halast, of_decide_eq_true hblast]
    -- of two wires of one rank the schedule has the one in front that the module has in front
    have horder := (placeOf_lt_iff h (hs.perm.mem_iff.1 ha) (hs.perm.mem_iff.1 hb)).1 hlt
    omega
  refine List.Perm.eq_of_pairwise ?_ hscheduled hlisted (hs.perm.filter _)
  intro a b _ _ hab hba
  omega

/-! ## What is kept -/

/-- Which wires keep their order. Of two wires the one that is listed first stays first exactly if all
that it waits for is done no later than something that the other one waits for. So the schedule is
stable if this is so of all independent wires, and only then. Wires with one last source keep their
order, and among them are those that wait for nothing. -/
theorem schedule_keeps_order :
    (∀ u ∈ m.wires, ∀ v ∈ m.wires, m.placeOf u.name < m.placeOf v.name →
      (s.placeOf u.name < s.placeOf v.name ↔ s.WaitsNoLonger m u v)) ∧
    (s.StableFor m ↔
      ∀ u ∈ m.wires, ∀ v ∈ m.wires, m.placeOf u.name < m.placeOf v.name →
        m.Independent u.name v.name → s.WaitsNoLonger m u v) ∧
    ∀ last, s.wires.filter (fun w => s.lastNeed w = last) =
      m.wires.filter (fun w => s.lastNeed w = last) := by
  refine ⟨fun u hu v hv hlisted => placeOf_lt_iff_of_listed h hu hv hlisted, ?_,
    filter_lastNeed h⟩
  rw [stableFor_iff]
  constructor
  · intro hstable u hu v hv hlisted hindep
    rw [← placeOf_lt_iff_of_listed h hu hv hlisted]
    exact hstable _ (List.mem_map_of_mem hu) _ (List.mem_map_of_mem hv) hlisted hindep
  · intro hwaits name hname name' hname' hlisted hindep
    obtain ⟨u, hu, rfl⟩ := List.mem_map.1 hname
    obtain ⟨v, hv, rfl⟩ := List.mem_map.1 hname'
    rw [placeOf_lt_iff_of_listed h hu hv hlisted]
    exact hwaits u hu v hv hlisted hindep

end Schedule

/-- A module whose wires are listed in an order of evaluation: `y` reads `p`, and `q` reads no
wire. -/
def listedReady : Module where
  name := "listed_ready"
  inputs := [⟨"a", 1⟩, ⟨"b", 1⟩]
  wires :=
    [.ofExpr "p" 1 (.signal "a"), .ofExpr "y" 1 (.signal "p"), .ofExpr "q" 1 (.signal "b")]
  outputs := ["y", "q"]

/-- Its schedule. -/
def scheduledReady : Module :=
  { listedReady with wires := ["p", "q", "y"].filterMap listedReady.wire? }

/-- Only `y` has to come after something, and that is `p`. -/
theorem eq_of_transGen_listedReady {u v : String} (h : TransGen listedReady.Reads u v) :
    u = "y" ∧ v = "p" := by
  have hreads : ∀ w ∈ listedReady.wires, ∀ name ∈ w.deps.keys, name ∉ listedReady.inputNames →
      w.name = "y" ∧ name = "p" := by
    decide
  induction h with
  | single hstep =>
    obtain ⟨w, hw, rfl, hdep, hinput⟩ := hstep
    exact hreads w hw _ hdep hinput
  | tail _ hstep ih =>
    obtain ⟨w, hw, rfl, hdep, hinput⟩ := hstep
    exact ⟨ih.1, (hreads w hw _ hdep hinput).2⟩

/-- `p` and `q`, which wait for nothing, keep their order. `y` waits for `p`, and falls behind `q`. -/
theorem schedule_keeps_order_listedReady :
    listedReady.schedule = .ok scheduledReady ∧
    (scheduledReady.placeOf "p" < scheduledReady.placeOf "q" ↔
      scheduledReady.WaitsNoLonger listedReady (.ofExpr "p" 1 (.signal "a"))
        (.ofExpr "q" 1 (.signal "b"))) ∧
    (scheduledReady.placeOf "y" < scheduledReady.placeOf "q" ↔
      scheduledReady.WaitsNoLonger listedReady (.ofExpr "y" 1 (.signal "p"))
        (.ofExpr "q" 1 (.signal "b"))) ∧
    scheduledReady.wires.filter (fun w => scheduledReady.lastNeed w = none) =
      listedReady.wires.filter (fun w => scheduledReady.lastNeed w = none) := by
  have hs : listedReady.schedule = .ok scheduledReady := rfl
  have hp : Wire.ofExpr "p" 1 (.signal "a") ∈ listedReady.wires := by decide
  have hy : Wire.ofExpr "y" 1 (.signal "p") ∈ listedReady.wires := by decide
  have hq : Wire.ofExpr "q" 1 (.signal "b") ∈ listedReady.wires := by decide
  obtain ⟨horder, -, hgroups⟩ := schedule_keeps_order hs
  exact ⟨hs, horder _ hp _ hq (by decide), horder _ hy _ hq (by decide), hgroups none⟩

/-- The schedule of a module that is listed in an order of evaluation already is not stable: `y` and
`q` change places, although neither has to come after the other. -/
theorem not_stableFor_listedReady :
    listedReady.schedule = .ok scheduledReady ∧ listedReady.Independent "y" "q" ∧
    listedReady.placeOf "y" < listedReady.placeOf "q" ∧
    scheduledReady.placeOf "q" < scheduledReady.placeOf "y" ∧
    ¬ scheduledReady.StableFor listedReady := by
  have hindep : listedReady.Independent "y" "q" := by
    constructor
    · intro h
      exact absurd (eq_of_transGen_listedReady h).2 (by decide)
    · intro h
      exact absurd (eq_of_transGen_listedReady h).1 (by decide)
  refine ⟨rfl, hindep, by decide, by decide, ?_⟩
  intro hstable
  have hkept := (hstable "y" (by decide) "q" (by decide) hindep).2 (by decide)
  exact absurd hkept (by decide)

end Netlist.Module
