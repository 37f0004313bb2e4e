/-
The order in which wires are evaluated.

A schedule is one of many rows in which every wire stands behind what it reads. Which one it is
follows from the queue being first in, first out: a wire joins the queue when the last of its
sources is done, and wires that join it together do so as they are listed. So whoever has the
earlier last source comes first (`Queue.pairwise_done`). The proof is the usual one, a start, a step
and a run: the wires that are done or ready stand in that order, and those that a step makes ready
have the wire of that step as their last source.

Places become names next, and two things follow from the order. The longest walk that starts at a
wire and follows what wires read never gets shorter along the schedule. And new names change nothing.
-/
import Mathlib.Data.Finset.Lattice.Fold
import Mathlib.Order.Lattice.Nat
import Netlist.Proofs.Renaming

set_option autoImplicit false

namespace Netlist.Queue

variable {sources : List (List Nat)} {row : List Nat} {q : Queue} {i j n : Nat}

/-! ## Ranks -/

/-- The rank of a wire in a row: one more than the place of its last source, and zero if it has
no source. -/
def rank (sources : List (List Nat)) (row : List Nat) (i : Nat) : Nat :=
  (sourcesOf sources i).toFinset.sup fun j => row.idxOf j + 1

theorem rank_le_iff :
    rank sources row i ≤ n ↔ ∀ j ∈ sourcesOf sources i, row.idxOf j < n := by
  simp only [rank, Finset.sup_le_iff, List.mem_toFinset, Nat.succ_le_iff]

theorem lt_rank_of_mem (h : j ∈ sourcesOf sources i) : row.idxOf j < rank sources row i :=
  rank_le_iff.1 (Nat.le_refl _) j h

/-- Wires of lower rank come first, and of two wires with one rank the one that is listed
first. -/
def Precedes (sources : List (List Nat)) (row : List Nat) (i j : Nat) : Prop :=
  rank sources row i < rank sources row j ∨ rank sources row i = rank sources row j ∧ i < j

theorem Precedes.asymm (h : Precedes sources row i j) : ¬ Precedes sources row j i := by
  unfold Precedes at h ⊢
  omega

/-- In a row that is sorted by a relation, places tell which of two members is related to the
other. -/
theorem idxOf_lt_iff_of_pairwise {r : Nat → Nat → Prop} {row : List Nat} (h : row.Pairwise r)
    (hasymm : ∀ i j, r i j → ¬ r j i) {i j : Nat} (hi : i ∈ row) (hj : j ∈ row) :
    row.idxOf i < row.idxOf j ↔ r i j := by
  have hforward : ∀ {i j : Nat}, i ∈ row → j ∈ row → row.idxOf i < row.idxOf j → r i j := by
    intro i j hi hj hlt
    have hrel := List.pairwise_iff_getElem.1 h _ _ (List.idxOf_lt_length_of_mem hi)
      (List.idxOf_lt_length_of_mem hj) hlt
    rwa [List.getElem_idxOf, List.getElem_idxOf] at hrel
  refine ⟨hforward hi hj, fun hrel => ?_⟩
  by_contra hge
  rcases Nat.lt_or_eq_of_le (Nat.not_lt.1 hge) with hlt | heq
  · exact hasymm i j hrel (hforward hj hi hlt)
  · obtain rfl := (List.idxOf_inj hj).1 heq
    exact hasymm _ _ hrel hrel

/-! ## What is done first -/

theorem done_prefix_step (sources : List (List Nat)) (q : Queue) :
    q.done <+: (step sources q).done := by
  cases hq : q.ready with
  | nil => rw [step_of_ready_nil hq]
  | cons i rest =>
    rw [done_step hq]
    exact List.prefix_append _ _

theorem done_prefix_run (sources : List (List Nat)) (n : Nat) (q : Queue) :
    q.done <+: (run sources n q).done := by
  induction n generalizing q with
  | zero => exact List.prefix_refl _
  | succ n ih => exact (done_prefix_step sources q).trans (ih _)

/-- What stands in a beginning of the row has its place there. -/
theorem idxOf_lt_of_prefix {front : List Nat} (h : front <+: row) (hi : i ∈ front) :
    row.idxOf i < front.length := by
  obtain ⟨back, rfl⟩ := h
  rw [List.idxOf_append_of_mem hi]
  exact List.idxOf_lt_length_of_mem hi

theorem idxOf_of_prefix_concat {front : List Nat} (h : front ++ [i] <+: row) (hi : i ∉ front) :
    row.idxOf i = front.length := by
  obtain ⟨back, rfl⟩ := h
  rw [List.append_assoc, List.idxOf_append_of_notMem hi, List.singleton_append,
    List.idxOf_cons_self, Nat.add_zero]

/-! ## The order of a queue -/

/-- Whatever is done or ready has all its sources among the first ones of the row. -/
theorem Invariant.rank_le (h : Invariant sources q) (hrow : q.done <+: row) (hi : i ∈ q.lineup) :
    rank sources row i ≤ q.done.length := by
  have hnil : pending sources q.done i = [] := by
    rcases List.mem_append.1 hi with hi | hi
    · exact h.pending_of_mem_done hi
    · exact ((h.mem_ready i).1 hi).2.2
  exact rank_le_iff.2 fun j hj => idxOf_lt_of_prefix hrow (pending_eq_nil_iff.1 hnil j hj)

/-- A wire that a step makes ready has the wire of that step as its last source. -/
theorem Invariant.rank_eq {rest : List Nat} (h : Invariant sources q) (hsimple : Simple sources)
    (hq : q.ready = i :: rest) (hrow : (Queue.step sources q).done <+: row)
    (hj : j ∈ readers sources i) (hready : j ∈ (Queue.step sources q).ready) :
    rank sources row j = q.done.length + 1 := by
  have hlength : (Queue.step sources q).done.length = q.done.length + 1 := by
    rw [done_step hq, List.length_append, List.length_singleton]
  refine Nat.le_antisymm ?_ ?_
  · rw [← hlength]
    exact (h.step hsimple).rank_le hrow (List.mem_append_right _ hready)
  · rw [done_step hq] at hrow
    rw [← idxOf_of_prefix_concat hrow (h.front hq).2.1]
    exact lt_rank_of_mem (mem_readers.1 hj).2

theorem pairwise_start (sources : List (List Nat)) (row : List Nat) :
    (start sources).lineup.Pairwise (Precedes sources row) := by
  have hzero : ∀ i ∈ (start sources).lineup, rank sources row i = 0 := by
    intro i hi
    have hrank : rank sources row i ≤ (start sources).done.length :=
      (invariant_start sources).rank_le List.nil_prefix hi
    exact Nat.le_zero.1 hrank
  have hsorted : (start sources).lineup.Pairwise (· < ·) := places_sorted _ _
  refine hsorted.imp_of_mem fun hi hj hlt => .inr ⟨?_, hlt⟩
  rw [hzero _ hi, hzero _ hj]

/-- The wires that a step makes ready follow those that were done or ready, whose rank is lower,
and have one rank among themselves. -/
theorem Invariant.pairwise_step (h : Invariant sources q) (hsimple : Simple sources)
    (hrow : (Queue.step sources q).done <+: row) (hq : q.lineup.Pairwise (Precedes sources row)) :
    (Queue.step sources q).lineup.Pairwise (Precedes sources row) := by
  cases hready : q.ready with
  | nil => rwa [step_of_ready_nil hready]
  | cons i rest =>
    have hrank : ∀ j ∈ (readers sources i).filter fun k => decide (q.waiting.getD k 0 ≤ 1),
        rank sources row j = q.done.length + 1 := by
      intro j hj
      refine h.rank_eq hsimple hready hrow (List.mem_of_mem_filter hj) ?_
      rw [ready_step hready]
      exact List.mem_append_right _ hj
    -- readers are listed by their places, and a filter keeps them so
    have hsorted := (places_sorted (fun s => s.contains i) sources).filter
      fun k => decide (q.waiting.getD k 0 ≤ 1)
    rw [lineup_step hready]
    refine List.pairwise_append.2 ⟨hq, ?_, fun a ha b hb => .inl ?_⟩
    · refine hsorted.imp_of_mem fun ha hb hlt => .inr ⟨?_, hlt⟩
      rw [hrank _ ha, hrank _ hb]
    · rw [hrank b hb, Nat.lt_succ_iff]
      exact h.rank_le ((done_prefix_step sources q).trans hrow) ha

theorem Invariant.pairwise_run (h : Invariant sources q) (hsimple : Simple sources) (n : Nat)
    (hrow : (Queue.run sources n q).done <+: row) (hq : q.lineup.Pairwise (Precedes sources row)) :
    (Queue.run sources n q).lineup.Pairwise (Precedes sources row) := by
  induction n generalizing q with
  | zero => exact hq
  | succ n ih =>
    -- ranks are those of the final row, of which what is done at any time is a beginning
    have hstep := h.pairwise_step hsimple ((done_prefix_run sources n _).trans hrow) hq
    exact ih (h.step hsimple) hrow hstep

/-- The order in which a queue does the wires: by the place of the last source, then as they are
listed. -/
theorem pairwise_done (hsimple : Simple sources) (n : Nat) :
    (run sources n (start sources)).done.Pairwise
      (Precedes sources (run sources n (start sources)).done) := by
  have hrun := (invariant_start sources).pairwise_run hsimple n (List.prefix_refl _)
    (pairwise_start sources _)
  exact hrun.sublist (List.sublist_append_left _ _)

end Netlist.Queue

namespace Netlist.Module

open Queue (rank)

variable {m s : Module} {u v w : Wire} {name : String} {i n : Nat}

/-! ## Places of names -/

/-- The place of a name among the wires. -/
def placeOf (m : Module) (name : String) : Nat :=
  m.wireNames.idxOf name

/-- The place of the last wire that a wire has to come after, if there is one. -/
def lastNeed (m : Module) (w : Wire) : Option Nat :=
  ((m.needs w).map m.placeOf).max?

theorem placeOf_of_nameAt (hnodup : m.wireNames.Nodup) (h : m.nameAt i = some name) :
    m.placeOf name = i := by
  obtain ⟨hi, rfl⟩ := nameAt_eq_some_iff.1 h
  have hlength : i < m.wireNames.length := by rwa [wireNames, List.length_map]
  have hname : m.wireNames[i] = m.wires[i].name := List.getElem_map _
  rw [placeOf, ← hname, hnodup.idxOf_getElem i hlength]

/-- In a schedule a name stands where the queue has done its wire. -/
theorem placeOf_schedule (h : m.schedule = .ok s) (hi : m.nameAt i = some name) :
    s.placeOf name = m.finalQueue.done.idxOf i := by
  obtain ⟨hm, hs⟩ := of_schedule_eq_ok h
  have hlt : i < m.graph.length := m.length_graph ▸ (nameAt_eq_some_iff.1 hi).1
  have hdone : i ∈ m.finalQueue.done := hm.done_perm.mem_iff.2 (List.mem_range.2 hlt)
  have hplace := List.idxOf_lt_length_of_mem hdone
  have hwire : s.nameAt (m.finalQueue.done.idxOf i) = m.nameAt i := by
    rw [nameAt, getElem?_wires_of_schedule h hplace, Queue.placeIn, List.getD_eq_getElem _ _ hplace,
      List.getElem_idxOf, nameAt]
  exact placeOf_of_nameAt (hs.perm_wireNames.nodup_iff.2 hm.nodup) (hwire.trans hi)

/-! ## Ranks of wires -/

/-- The rank of a wire: one more than the place of the last wire that it has to come after, and zero
if there is none. -/
def rankOf (m : Module) (w : Wire) : Nat :=
  (m.lastNeed w).elim 0 (· + 1)

theorem lastNeed_eq_none_iff : s.lastNeed w = none ↔ s.needs w = [] := by
  rw [lastNeed, List.max?_eq_none_iff, List.map_eq_nil_iff]

theorem rankOf_eq_zero_iff : s.rankOf w = 0 ↔ s.needs w = [] := by
  rw [← lastNeed_eq_none_iff, rankOf]
  cases s.lastNeed w <;> simp

theorem placeOf_lt_rankOf (h : name ∈ s.needs w) : s.placeOf name < s.rankOf w := by
  rw [rankOf]
  cases hlast : s.lastNeed w with
  | none =>
    rw [lastNeed_eq_none_iff.1 hlast] at h
    cases h
  | some place =>
    have hmax := (List.max?_eq_some_iff.1 hlast).2 _ (List.mem_map_of_mem h)
    exact Nat.lt_succ_of_le hmax

theorem exists_need_of_rankOf_pos (h : 0 < s.rankOf w) :
    ∃ name ∈ s.needs w, s.rankOf w = s.placeOf name + 1 := by
  rw [rankOf] at h ⊢
  cases hlast : s.lastNeed w with
  | none =>
    rw [hlast] at h
    cases h
  | some place =>
    obtain ⟨name, hname, rfl⟩ := List.mem_map.1 (List.max?_eq_some_iff.1 hlast).1
    exact ⟨name, hname, rfl⟩

section Schedule

variable (h : m.schedule = .ok s)
include h

theorem needs_of_schedule : s.needs = m.needs := by
  obtain ⟨-, hs⟩ := of_schedule_eq_ok h
  funext w
  simp only [needs, isInput, input?, hs.inputs]

/-- The rank of a wire in a schedule is the rank of its place in the row of what the queue has
done. -/
theorem rankOf_schedule (hi : i < m.wires.length) :
    s.rankOf m.wires[i] = rank m.graph m.finalQueue.done i := by
  obtain ⟨hm, -⟩ := of_schedule_eq_ok h
  have hsource : ∀ j, j ∈ Queue.sourcesOf m.graph i ↔
      ∃ name ∈ m.needs m.wires[i], m.nameAt j = some name := by
    intro j
    rw [sourcesOf_graph hi, mem_sources_iff hm.nodup]
  refine Nat.le_antisymm ?_ (Queue.rank_le_iff.2 fun j hj => ?_)
  · rcases Nat.eq_zero_or_pos (s.rankOf m.wires[i]) with hzero | hpos
    · rw [hzero]
      exact Nat.zero_le _
    · obtain ⟨name, hname, heq⟩ := exists_need_of_rankOf_pos hpos
      rw [needs_of_schedule h] at hname
      obtain ⟨j, hj⟩ := mem_wireNames_iff.1
        (hm.closed.mem_wireNames (List.getElem_mem hi) hname)
      rw [heq, placeOf_schedule h hj]
      exact Queue.lt_rank_of_mem ((hsource j).2 ⟨name, hname, hj⟩)
  · obtain ⟨name, hname, hj⟩ := (hsource j).1 hj
    rw [← placeOf_schedule h hj]
    exact placeOf_lt_rankOf (needs_of_schedule h ▸ hname)

/-- Which of two wires comes first in a schedule: the one of lower rank or, if they have one rank,
the one that is listed first. -/
theorem placeOf_lt_iff (hu : u ∈ m.wires) (hv : v ∈ m.wires) :
    s.placeOf u.name < s.placeOf v.name ↔
      s.rankOf u < s.rankOf v ∨
        s.rankOf u = s.rankOf v ∧ m.placeOf u.name < m.placeOf v.name := by
  obtain ⟨hm, -⟩ := of_schedule_eq_ok h
  obtain ⟨i, hi, rfl⟩ := List.mem_iff_getElem.1 hu
  obtain ⟨j, hj, rfl⟩ := List.mem_iff_getElem.1 hv
  have hiname : m.nameAt i = some m.wires[i].name := nameAt_eq_some_iff.2 ⟨hi, rfl⟩
  have hjname : m.nameAt j = some m.wires[j].name := nameAt_eq_some_iff.2 ⟨hj, rfl⟩
  have hdone : ∀ {k : Nat}, k < m.wires.length → k ∈ m.finalQueue.done := fun hk =>
    hm.done_perm.mem_iff.2 (List.mem_range.2 (m.length_graph.symm ▸ hk))
  have hsorted := Queue.pairwise_done m.simple_graph m.wires.length
  have hplaces := Queue.idxOf_lt_iff_of_pairwise hsorted (fun _ _ => Queue.Precedes.asymm) (hdone hi)
    (hdone hj)
  rw [placeOf_schedule h hiname, placeOf_schedule h hjname, rankOf_schedule h hi,
    rankOf_schedule h hj, placeOf_of_nameAt hm.nodup hiname, placeOf_of_nameAt hm.nodup hjname]
  exact hplaces

end Schedule

/-! ## Depth -/

/-- A walk of that many steps starts at the name, each step from a wire to one that it reads. -/
def Walk (m : Module) : Nat → String → Prop
  | 0, _ => True
  | n + 1, u => ∃ v, m.Reads u v ∧ m.Walk n v

/-- The names that a wire of the module reads are those that it needs. -/
theorem reads_iff (hnodup : m.wireNames.Nodup) (hw : w ∈ m.wires) :
    m.Reads w.name name ↔ name ∈ m.needs w := by
  rw [mem_needs]
  constructor
  · rintro ⟨w', hw', heq, hdep, hinput⟩
    obtain rfl := List.inj_on_of_nodup_map hnodup hw' hw heq
    exact ⟨hdep, hinput⟩
  · exact fun ⟨hdep, hinput⟩ => ⟨w, hw, rfl, hdep, hinput⟩

section Schedule

variable (h : m.schedule = .ok s)
include h

/-- No walk is longer than the place of its start. -/
theorem walk_le_placeOf (hname : name ∈ m.wireNames) (hwalk : m.Walk n name) :
    n ≤ s.placeOf name := by
  obtain ⟨-, hs⟩ := of_schedule_eq_ok h
  induction n generalizing name with
  | zero => exact Nat.zero_le _
  | succ n ih =>
    obtain ⟨next, hreads, hwalk⟩ := hwalk
    obtain ⟨hmem, hlt⟩ := hs.ordered.idxOf_lt (hs.perm_wireNames.mem_iff.2 hname) hreads
    exact Nat.lt_of_le_of_lt (ih (hs.perm_wireNames.mem_iff.1 hmem) hwalk) hlt

/-- Whoever stands further behind has walks that are as long. The induction is on the walk: its
first step leads to a wire that is not behind the last source of the other one. -/
theorem Walk.of_placeOf_le (hu : u ∈ m.wires) (hv : v ∈ m.wires)
    (hle : s.placeOf u.name ≤ s.placeOf v.name) (hwalk : m.Walk n u.name) : m.Walk n v.name := by
  obtain ⟨hm, hs⟩ := of_schedule_eq_ok h
  have hneeds := needs_of_schedule h
  induction n generalizing u v with
  | zero => trivial
  | succ n ih =>
    rcases Nat.lt_or_eq_of_le hle with hlt | heq
    · have hrank : s.rankOf u ≤ s.rankOf v := by
        rcases (placeOf_lt_iff h hu hv).1 hlt with hlt | ⟨heq, -⟩
        · exact Nat.le_of_lt hlt
        · exact Nat.le_of_eq heq
      obtain ⟨next, hreads, hwalk⟩ := hwalk
      have hnext : next ∈ s.needs u := hneeds ▸ (reads_iff hm.nodup hu).1 hreads
      have hplace := placeOf_lt_rankOf hnext
      -- the other wire has a source too, and its last one is no further in front
      obtain ⟨last, hlast, hlastRank⟩ := exists_need_of_rankOf_pos (w := v) (s := s) (by omega)
      rw [hneeds] at hnext hlast
      obtain ⟨a, ha, rfl⟩ := List.mem_map.1 (hm.closed.mem_wireNames hu hnext)
      obtain ⟨b, hb, rfl⟩ := List.mem_map.1 (hm.closed.mem_wireNames hv hlast)
      exact ⟨b.name, (reads_iff hm.nodup hv).2 hlast, ih ha hb (by omega) hwalk⟩
    · have hmem : ∀ {w : Wire}, w ∈ m.wires → w.name ∈ s.wireNames := fun hw =>
        hs.perm_wireNames.mem_iff.2 (List.mem_map_of_mem hw)
      rwa [← (List.idxOf_inj (hmem hu)).1 heq]

/-- The lengths of the walks from a wire have a maximum, its depth, which does not get smaller along
the schedule. -/
theorem exists_depth : ∃ depth : String → Nat,
    (∀ name ∈ m.wireNames, IsGreatest {n | m.Walk n name} (depth name)) ∧
      s.wireNames.Pairwise fun u v => depth u ≤ depth v := by
  obtain ⟨hm, hs⟩ := of_schedule_eq_ok h
  have hgreatest : ∀ name ∈ m.wireNames,
      IsGreatest {n | m.Walk n name} (sSup {n | m.Walk n name}) := by
    intro name hname
    have hbound : BddAbove {n | m.Walk n name} :=
      ⟨s.placeOf name, fun n hn => walk_le_placeOf h hname hn⟩
    exact ⟨Nat.sSup_mem ⟨0, trivial⟩ hbound, fun n hn => le_csSup hbound hn⟩
  refine ⟨fun name => sSup {n | m.Walk n name}, hgreatest, ?_⟩
  refine List.pairwise_iff_getElem.2 fun i j hi hj hlt => ?_
  have hnodup := hs.perm_wireNames.nodup_iff.2 hm.nodup
  have hmem : ∀ {k : Nat} (hk : k < s.wireNames.length), s.wireNames[k] ∈ m.wireNames := fun hk =>
    hs.perm_wireNames.mem_iff.1 (List.getElem_mem hk)
  have hle : s.placeOf s.wireNames[i] ≤ s.placeOf s.wireNames[j] := by
    rw [placeOf, placeOf, hnodup.idxOf_getElem i hi, hnodup.idxOf_getElem j hj]
    exact Nat.le_of_lt hlt
  obtain ⟨a, ha, haname⟩ := List.mem_map.1 (hmem hi)
  obtain ⟨b, hb, hbname⟩ := List.mem_map.1 (hmem hj)
  rw [← haname, ← hbname] at hle ⊢
  have hwalk := (hgreatest a.name (List.mem_map_of_mem ha)).1
  exact (hgreatest b.name (List.mem_map_of_mem hb)).2 (Walk.of_placeOf_le h ha hb hle hwalk)

/-! ## The order -/

/-- The order of a schedule, for every module that has one. Wires that come after no wire stand
first, as they are listed. Any two others stand as the last wires stand that they come after and,
where it is one wire, as they are listed. So wires stand by their depth; and whichever names signals
have, as long as they tell them apart, the schedule is the same. -/
theorem schedule_order :
    s.wires.Perm m.wires ∧
    (∀ u ∈ m.wires, ∀ v ∈ m.wires,
      (m.needs u = [] → m.needs v = [] →
        (s.placeOf u.name < s.placeOf v.name ↔ m.placeOf u.name < m.placeOf v.name)) ∧
      (m.needs u = [] → m.needs v ≠ [] → s.placeOf u.name < s.placeOf v.name) ∧
      (m.needs u ≠ [] → m.needs v ≠ [] →
        ∃ a b, s.lastNeed u = some a ∧ s.lastNeed v = some b ∧
          (s.placeOf u.name < s.placeOf v.name ↔
            a < b ∨ a = b ∧ m.placeOf u.name < m.placeOf v.name))) ∧
    (∃ depth : String → Nat,
      (∀ name ∈ m.wireNames, IsGreatest {n | m.Walk n name} (depth name)) ∧
        s.wireNames.Pairwise fun u v => depth u ≤ depth v) ∧
    ∀ f : String → String, m.KeepsApart f → (m.rename f).schedule = .ok (s.rename f) := by
  have hzero : ∀ w, s.rankOf w = 0 ↔ m.needs w = [] := fun w => by
    rw [rankOf_eq_zero_iff, needs_of_schedule h]
  refine ⟨(of_schedule_eq_ok h).2.perm, fun u hu v hv => ?_, exists_depth h,
    fun f hf => hf.schedule_rename h⟩
  have horder := placeOf_lt_iff h hu hv
  refine ⟨fun hnone hnone' => ?_, fun hnone hsome => ?_, fun hsome hsome' => ?_⟩
  · rw [horder, (hzero u).2 hnone, (hzero v).2 hnone']
    simp
  · refine horder.2 (.inl ?_)
    rw [(hzero u).2 hnone]
    exact Nat.pos_of_ne_zero fun hcontra => hsome ((hzero v).1 hcontra)
  · have hlast : ∀ {w : Wire}, m.needs w ≠ [] → ∃ a, s.lastNeed w = some a := fun hne =>
      Option.ne_none_iff_exists'.1 fun hcontra =>
        hne (needs_of_schedule h ▸ lastNeed_eq_none_iff.1 hcontra)
    obtain ⟨a, ha⟩ := hlast hsome
    obtain ⟨b, hb⟩ := hlast hsome'
    refine ⟨a, b, ha, hb, ?_⟩
    rw [horder, rankOf, rankOf, ha, hb]
    simp

end Schedule

/-- A module whose wires are listed the wrong way round: `y` reads both `q` and `p`, and `z` reads
`p` alone. -/
def listedBackwards : Module where
  name := "listed_backwards"
  inputs := [⟨"a", 1⟩, ⟨"b", 1⟩]
  wires :=
    [.ofExpr "y" 1 (.binary "&" (.signal "q") (.signal "p")), .ofExpr "z" 1 (.signal "p"),
      .ofExpr "p" 1 (.signal "a"), .ofExpr "q" 1 (.signal "b")]
  outputs := ["y", "z"]

/-- Its schedule. -/
def listedForwards : Module :=
  { listedBackwards with wires := ["p", "q", "z", "y"].filterMap listedBackwards.wire? }

/-- Gives each of `p` and `q` the name of the other. -/
def exchange (name : String) : String :=
  if name = "p" then "q" else if name = "q" then "p" else name

/-- `p` stands before `y`, which reads it, and `z` before `y`, since `q` is done after `p`. Under
exchanged names the sources of `y` change places in its set of names and not in the schedule. -/
theorem schedule_order_listedBackwards :
    listedBackwards.schedule = .ok listedForwards ∧
    listedForwards.placeOf "p" < listedForwards.placeOf "y" ∧
    (∃ a b, listedForwards.lastNeed (.ofExpr "z" 1 (.signal "p")) = some a ∧
      listedForwards.lastNeed (.ofExpr "y" 1 (.binary "&" (.signal "q") (.signal "p"))) = some b ∧
      (listedForwards.placeOf "z" < listedForwards.placeOf "y" ↔
        a < b ∨ a = b ∧ listedBackwards.placeOf "z" < listedBackwards.placeOf "y")) ∧
    listedBackwards.KeepsApart exchange ∧
    (listedBackwards.rename exchange).schedule = .ok (listedForwards.rename exchange) := by
  have hs : listedBackwards.schedule = .ok listedForwards := rfl
  have hp : Wire.ofExpr "p" 1 (.signal "a") ∈ listedBackwards.wires := by decide
  have hz : Wire.ofExpr "z" 1 (.signal "p") ∈ listedBackwards.wires := by decide
  have hy : Wire.ofExpr "y" 1 (.binary "&" (.signal "q") (.signal "p")) ∈ listedBackwards.wires := by
    decide
  have hexchange : ∀ name, exchange (exchange name) = name := by
    intro name
    simp only [exchange]
    split <;> simp_all
  have hapart : listedBackwards.KeepsApart exchange :=
    (Function.LeftInverse.injective hexchange).injOn
  obtain ⟨-, horder, -, hrename⟩ := schedule_order hs
  exact ⟨hs, (horder _ hp _ hy).2.1 (by decide) (by decide),
    (horder _ hz _ hy).2.2 (by decide) (by decide), hapart, hrename exchange hapart⟩

end Netlist.Module
