/-
The queue that puts wires into order.

A wire waits for its sources, each by its place. `Queue.Invariant` says what holds before
and after every step: the number a wire waits for is the number of its sources that are not
done, the wires that are ready are exactly those that wait for nothing and are not done
themselves, none of them stands in the queue twice, and what is done stands behind its own
sources. One step keeps it (`Invariant.step`), so every run does.

Each step does one wire while any is ready. As no wire is done twice, as many steps as there
are wires leave none ready (`ready_run`); a wire that is not done by then waits for another
one that is not done either.
-/
import Mathlib.Data.List.Nodup
import Mathlib.Data.List.Perm.Subperm
import Netlist.Module.Schedule
import Netlist.Proofs.Cycles

set_option autoImplicit false

namespace Netlist.Queue

/-! ## Places -/

theorem mem_places {α : Type} {test : α → Bool} {xs : List α} {i : Nat} :
    i ∈ places test xs ↔ ∃ h : i < xs.length, test xs[i] = true := by
  simp only [places, List.mem_map, List.mem_filter, Prod.exists, List.mem_zipIdx_iff_getElem?,
    exists_eq_right]
  constructor
  · rintro ⟨x, hx, htest⟩
    obtain ⟨h, rfl⟩ := List.getElem?_eq_some_iff.1 hx
    exact ⟨h, htest⟩
  · rintro ⟨h, htest⟩
    exact ⟨xs[i], List.getElem?_eq_getElem h, htest⟩

theorem places_sorted {α : Type} (test : α → Bool) (xs : List α) :
    (places test xs).Pairwise (· < ·) := by
  have hsub : (places test xs).Sublist (xs.zipIdx.map Prod.snd) := List.filter_sublist.map _
  rw [List.zipIdx_map_snd] at hsub
  exact List.Pairwise.sublist hsub List.pairwise_lt_range'

theorem places_nodup {α : Type} (test : α → Bool) (xs : List α) : (places test xs).Nodup :=
  (places_sorted test xs).imp Nat.ne_of_lt

/-! ## Graphs -/

/-- The places that the wire at place `i` waits for at first. -/
def sourcesOf (sources : List (List Nat)) (i : Nat) : List Nat :=
  sources.getD i []

/-- No wire waits for another one twice. -/
def Simple (sources : List (List Nat)) : Prop :=
  ∀ i, (sourcesOf sources i).Nodup

theorem sourcesOf_getElem {sources : List (List Nat)} {i : Nat} (h : i < sources.length) :
    sourcesOf sources i = sources[i] := by
  rw [sourcesOf, List.getD_eq_getElem?_getD, List.getElem?_eq_getElem h, Option.getD_some]

theorem lt_length_of_mem_sourcesOf {sources : List (List Nat)} {i j : Nat}
    (h : j ∈ sourcesOf sources i) : i < sources.length := by
  by_contra hge
  rw [sourcesOf, List.getD_eq_getElem?_getD, List.getElem?_eq_none (Nat.not_lt.1 hge)] at h
  exact List.not_mem_nil h

theorem mem_readers {sources : List (List Nat)} {i k : Nat} :
    k ∈ readers sources i ↔ k < sources.length ∧ i ∈ sourcesOf sources k := by
  rw [readers, mem_places]
  constructor
  · rintro ⟨hk, hi⟩
    exact ⟨hk, by rw [sourcesOf_getElem hk]; simpa using hi⟩
  · rintro ⟨hk, hi⟩
    exact ⟨hk, by rw [sourcesOf_getElem hk] at hi; simpa using hi⟩

theorem readers_nodup (sources : List (List Nat)) (i : Nat) : (readers sources i).Nodup :=
  places_nodup _ _

/-- The sources of a wire that are not done. -/
def pending (sources : List (List Nat)) (done : List Nat) (i : Nat) : List Nat :=
  (sourcesOf sources i).filter fun j => !done.contains j

theorem mem_pending {sources : List (List Nat)} {done : List Nat} {i j : Nat} :
    j ∈ pending sources done i ↔ j ∈ sourcesOf sources i ∧ j ∉ done := by
  simp [pending, List.mem_filter]

theorem pending_eq_nil_iff {sources : List (List Nat)} {done : List Nat} {i : Nat} :
    pending sources done i = [] ↔ ∀ j ∈ sourcesOf sources i, j ∈ done := by
  simp [pending, List.filter_eq_nil_iff]

/-- Doing one more wire takes that wire out of what is pending. -/
theorem pending_append_singleton {sources : List (List Nat)} (hsimple : Simple sources)
    (done : List Nat) (i k : Nat) :
    pending sources (done ++ [i]) k = (pending sources done k).erase i := by
  have hnodup : (pending sources done k).Nodup := (hsimple k).filter _
  rw [hnodup.erase_eq_filter, pending, pending, List.filter_filter]
  refine List.filter_congr fun j _ => ?_
  by_cases h : j = i <;> simp [h]

/-! ## Releasing -/

/-- Releasing wires takes one off the number that each of them waits for. -/
theorem getD_waiting_foldl_release (rs : List Nat) (hrs : rs.Nodup) (q : Queue) (k : Nat) :
    (rs.foldl release q).waiting.getD k 0 = q.waiting.getD k 0 - if k ∈ rs then 1 else 0 := by
  induction rs generalizing q with
  | nil => simp
  | cons i rs ih =>
    obtain ⟨hi, hrs⟩ := List.nodup_cons.1 hrs
    have hone : (release q i).waiting.getD k 0 = q.waiting.getD k 0 - if k = i then 1 else 0 := by
      simp only [release, List.getD_eq_getElem?_getD, List.getElem?_modify]
      by_cases h : i = k
      · cases q.waiting[k]? <;> simp [h]
      · cases q.waiting[k]? <;> simp [h, Ne.symm h]
    rw [List.foldl_cons, ih hrs, hone]
    -- `i` occurs in the row only once, so at most one of the two subtractions counts
    by_cases hk : k = i
    · rw [if_pos hk, if_neg (hk ▸ hi), if_pos (hk ▸ List.mem_cons_self)]
      omega
    · rw [if_neg hk, Nat.sub_zero]
      simp only [List.mem_cons, hk, false_or]

theorem length_waiting_foldl_release (rs : List Nat) (q : Queue) :
    (rs.foldl release q).waiting.length = q.waiting.length := by
  induction rs generalizing q with
  | nil => rfl
  | cons i rs ih =>
    rw [List.foldl_cons, ih]
    exact List.length_modify _ _ _

theorem done_foldl_release (rs : List Nat) (q : Queue) :
    (rs.foldl release q).done = q.done := by
  induction rs generalizing q with
  | nil => rfl
  | cons i rs ih =>
    rw [List.foldl_cons, ih]
    rfl

/-- Releasing wires makes those ready that waited for nothing else. -/
theorem ready_foldl_release (rs : List Nat) (hrs : rs.Nodup) (q : Queue) :
    (rs.foldl release q).ready =
      q.ready ++ rs.filter fun i => decide (q.waiting.getD i 0 ≤ 1) := by
  induction rs generalizing q with
  | nil => simp
  | cons i rs ih =>
    obtain ⟨hi, hrs⟩ := List.nodup_cons.1 hrs
    have hwaiting : ∀ k, (release q i).waiting.getD k 0 =
        q.waiting.getD k 0 - if k ∈ [i] then 1 else 0 :=
      fun k => getD_waiting_foldl_release [i] (List.nodup_singleton i) q k
    have hready : (release q i).ready =
        if q.waiting.getD i 0 ≤ 1 then q.ready ++ [i] else q.ready := by
      have hzero : (release q i).waiting.getD i 0 = 0 ↔ q.waiting.getD i 0 ≤ 1 := by
        rw [hwaiting, if_pos (List.mem_singleton_self i)]
        omega
      show (if (release q i).waiting.getD i 0 = 0 then q.ready ++ [i] else q.ready) = _
      simp only [hzero]
    -- releasing `i` leaves the counters of the others alone, and `i` is not among them
    have hrest : (rs.filter fun k => decide ((release q i).waiting.getD k 0 ≤ 1)) =
        rs.filter fun k => decide (q.waiting.getD k 0 ≤ 1) := by
      refine List.filter_congr fun k hk => ?_
      have hne : k ∉ [i] := fun h => hi (List.mem_singleton.1 h ▸ hk)
      rw [hwaiting, if_neg hne, Nat.sub_zero]
    rw [List.foldl_cons, ih hrs, hrest, hready, List.filter_cons]
    by_cases h : q.waiting.getD i 0 ≤ 1
    · rw [if_pos h, if_pos (decide_eq_true h), List.append_assoc, List.singleton_append]
    · rw [if_neg h, if_neg (by simpa using h)]

/-! ## One step -/

section Step

variable {sources : List (List Nat)} {q : Queue} {i : Nat} {rest : List Nat}

theorem step_of_ready_nil (h : q.ready = []) : step sources q = q := by
  unfold step
  rw [h]

theorem step_of_ready_cons (h : q.ready = i :: rest) :
    step sources q =
      (readers sources i).foldl release { q with done := q.done ++ [i], ready := rest } := by
  unfold step
  rw [h]

theorem done_step (h : q.ready = i :: rest) : (step sources q).done = q.done ++ [i] := by
  rw [step_of_ready_cons h, done_foldl_release]

theorem ready_step (h : q.ready = i :: rest) :
    (step sources q).ready =
      rest ++ (readers sources i).filter fun k => decide (q.waiting.getD k 0 ≤ 1) := by
  rw [step_of_ready_cons h, ready_foldl_release _ (readers_nodup sources i)]

theorem getD_waiting_step (h : q.ready = i :: rest) (k : Nat) :
    (step sources q).waiting.getD k 0 =
      q.waiting.getD k 0 - if k ∈ readers sources i then 1 else 0 := by
  rw [step_of_ready_cons h, getD_waiting_foldl_release _ (readers_nodup sources i)]

theorem length_waiting_step : (step sources q).waiting.length = q.waiting.length := by
  cases h : q.ready with
  | nil => rw [step_of_ready_nil h]
  | cons i rest => rw [step_of_ready_cons h, length_waiting_foldl_release]

end Step

/-! ## The invariant -/

/-- What holds of the queue before and after every step. -/
structure Invariant (sources : List (List Nat)) (q : Queue) : Prop where
  /-- No wire is done twice, is ready twice, or is done and ready. -/
  nodup : (q.done ++ q.ready).Nodup
  done_lt : ∀ i ∈ q.done, i < sources.length
  length_waiting : q.waiting.length = sources.length
  /-- A wire waits for its sources that are not done. -/
  waiting : ∀ i, q.waiting.getD i 0 = (pending sources q.done i).length
  /-- The wires that are ready are those that wait for nothing and are not done. -/
  mem_ready : ∀ i, i ∈ q.ready ↔
    i < sources.length ∧ i ∉ q.done ∧ pending sources q.done i = []
  /-- What is done stands behind its sources. -/
  ordered : InOrderOf (fun i j => j ∈ sourcesOf sources i) q.done

section Invariant

variable {sources : List (List Nat)} {q : Queue}

theorem Invariant.pending_of_mem_done (h : Invariant sources q) {i : Nat} (hi : i ∈ q.done) :
    pending sources q.done i = [] :=
  pending_eq_nil_iff.2 fun _ hj => h.ordered.mem hi hj

theorem invariant_start (sources : List (List Nat)) : Invariant sources (start sources) := by
  have hpending : ∀ i, pending sources [] i = sourcesOf sources i := by
    intro i
    simp [pending]
  refine ⟨?_, ?_, ?_, ?_, ?_, ?_⟩
  · exact places_nodup _ _
  · intro i hi
    cases hi
  · exact List.length_map _
  · intro i
    show (sources.map List.length).getD i 0 = (pending sources [] i).length
    rw [hpending, sourcesOf, List.getD_eq_getElem?_getD, List.getD_eq_getElem?_getD,
      List.getElem?_map]
    cases sources[i]? <;> rfl
  · intro i
    show i ∈ places List.isEmpty sources ↔ i < sources.length ∧ i ∉ [] ∧ pending sources [] i = []
    rw [hpending, mem_places]
    constructor
    · rintro ⟨hi, hempty⟩
      exact ⟨hi, List.not_mem_nil, by rw [sourcesOf_getElem hi]; simpa using hempty⟩
    · rintro ⟨hi, -, hempty⟩
      exact ⟨hi, by rw [sourcesOf_getElem hi] at hempty; simpa using hempty⟩
  · exact inOrderOf_nil

/-! ## A step keeps the invariant -/

section Front

variable {i : Nat} {rest : List Nat} (h : Invariant sources q) (hq : q.ready = i :: rest)

include h hq

/-- The wire at the front waits for nothing and is not done. -/
theorem Invariant.front : i < sources.length ∧ i ∉ q.done ∧ pending sources q.done i = [] :=
  (h.mem_ready i).1 (hq ▸ List.mem_cons_self)

/-- Whoever reads the wire at the front waits for it. -/
theorem Invariant.mem_pending_of_mem_readers {k : Nat} (hk : k ∈ readers sources i) :
    i ∈ pending sources q.done k :=
  mem_pending.2 ⟨(mem_readers.1 hk).2, (h.front hq).2.1⟩

theorem Invariant.mem_pending_iff_mem_readers {k : Nat} :
    i ∈ pending sources q.done k ↔ k ∈ readers sources i := by
  refine ⟨fun hmem => mem_readers.2 ⟨?_, (mem_pending.1 hmem).1⟩,
    h.mem_pending_of_mem_readers hq⟩
  exact lt_length_of_mem_sourcesOf (mem_pending.1 hmem).1

/-- So it is neither done nor ready. -/
theorem Invariant.notMem_of_mem_readers {k : Nat} (hk : k ∈ readers sources i) :
    k ∉ q.done ++ i :: rest := by
  intro hmem
  have hnil : pending sources q.done k = [] := by
    rcases List.mem_append.1 hmem with hmem | hmem
    · exact h.pending_of_mem_done hmem
    · exact ((h.mem_ready k).1 (hq ▸ hmem)).2.2
  exact List.not_mem_nil (hnil ▸ h.mem_pending_of_mem_readers hq hk)

theorem Invariant.nodup_step :
    ((Queue.step sources q).done ++ (Queue.step sources q).ready).Nodup := by
  have hnodup := h.nodup
  rw [hq] at hnodup
  rw [done_step hq, ready_step hq, List.append_assoc, List.singleton_append,
    ← List.cons_append, ← List.append_assoc]
  refine hnodup.append ((readers_nodup sources i).filter _) ?_
  intro k hk hmem
  exact h.notMem_of_mem_readers hq (List.mem_of_mem_filter hmem) hk

theorem Invariant.done_lt_step : ∀ k ∈ (Queue.step sources q).done, k < sources.length := by
  rw [done_step hq]
  intro k hk
  rcases List.mem_append.1 hk with hk | hk
  · exact h.done_lt k hk
  · rw [List.mem_singleton.1 hk]
    exact (h.front hq).1

theorem Invariant.waiting_step (hsimple : Simple sources) (k : Nat) :
    (Queue.step sources q).waiting.getD k 0 =
      (pending sources (Queue.step sources q).done k).length := by
  rw [getD_waiting_step hq, done_step hq, pending_append_singleton hsimple, h.waiting,
    List.length_erase]
  by_cases hk : k ∈ readers sources i
  · rw [if_pos hk, if_pos (h.mem_pending_of_mem_readers hq hk)]
  · rw [if_neg hk, if_neg fun hmem => hk ((h.mem_pending_iff_mem_readers hq).1 hmem),
      Nat.sub_zero]

/-- Among the wires that read the one at the front, those that waited for it alone wait for
nothing afterwards. -/
theorem Invariant.length_le_one_iff {k : Nat} (hk : k ∈ readers sources i) :
    (pending sources q.done k).length ≤ 1 ↔ (pending sources q.done k).erase i = [] := by
  have hlen := List.length_erase_of_mem (h.mem_pending_of_mem_readers hq hk)
  rw [← List.length_eq_zero_iff, hlen]
  omega

theorem Invariant.mem_ready_step (hsimple : Simple sources) (k : Nat) :
    k ∈ (Queue.step sources q).ready ↔ k < sources.length ∧ k ∉ (Queue.step sources q).done ∧
      pending sources (Queue.step sources q).done k = [] := by
  rw [ready_step hq, done_step hq, pending_append_singleton hsimple, List.mem_append,
    List.mem_filter, decide_eq_true_iff, h.waiting, List.mem_append, List.mem_singleton, not_or]
  constructor
  · rintro (hk | ⟨hk, hone⟩)
    -- what was ready behind the front stays ready, and is not the front
    · obtain ⟨hklt, hknew, hnil⟩ := (h.mem_ready k).1 (hq ▸ List.mem_cons_of_mem _ hk)
      have hnodup := (List.nodup_append.1 h.nodup).2.1
      rw [hq] at hnodup
      have hne : k ≠ i := fun heq => (List.nodup_cons.1 hnodup).1 (heq ▸ hk)
      exact ⟨hklt, ⟨hknew, hne⟩, by rw [hnil]; rfl⟩
    -- what is released now waited for the front alone
    · have hout := h.notMem_of_mem_readers hq hk
      rw [List.mem_append, List.mem_cons, not_or, not_or] at hout
      exact ⟨(mem_readers.1 hk).1, ⟨hout.1, hout.2.1⟩, (h.length_le_one_iff hq hk).1 hone⟩
  · rintro ⟨hklt, ⟨hknew, hne⟩, hnil⟩
    by_cases hk : k ∈ readers sources i
    · exact .inr ⟨hk, (h.length_le_one_iff hq hk).2 hnil⟩
    -- whoever does not read the front waited for nothing before, so it was ready already
    · rw [List.erase_of_not_mem fun hmem => hk ((h.mem_pending_iff_mem_readers hq).1 hmem)]
        at hnil
      have hready := (h.mem_ready k).2 ⟨hklt, hknew, hnil⟩
      rw [hq] at hready
      exact .inl ((List.mem_cons.1 hready).resolve_left hne)

theorem Invariant.ordered_step :
    InOrderOf (fun i j => j ∈ sourcesOf sources i) (Queue.step sources q).done := by
  rw [done_step hq]
  exact h.ordered.append_singleton (pending_eq_nil_iff.1 (h.front hq).2.2)

end Front

theorem Invariant.step (hsimple : Simple sources) (h : Invariant sources q) :
    Invariant sources (step sources q) := by
  cases hq : q.ready with
  | nil =>
    rw [step_of_ready_nil hq]
    exact h
  | cons i rest =>
    exact {
      nodup := h.nodup_step hq
      done_lt := h.done_lt_step hq
      length_waiting := length_waiting_step.trans h.length_waiting
      waiting := h.waiting_step hq hsimple
      mem_ready := h.mem_ready_step hq hsimple
      ordered := h.ordered_step hq }

/-! ## Runs -/

theorem Invariant.run (hsimple : Simple sources) (n : Nat) (h : Invariant sources q) :
    Invariant sources (run sources n q) := by
  induction n generalizing q with
  | zero => exact h
  | succ n ih => exact ih (h.step hsimple)

theorem run_of_ready_nil (h : q.ready = []) (n : Nat) : run sources n q = q := by
  induction n with
  | zero => rfl
  | succ n ih => rw [run, step_of_ready_nil h, ih]

/-- A run does one wire a step, unless nothing is ready in the end. -/
theorem ready_run_or_length (sources : List (List Nat)) (n : Nat) (q : Queue) :
    (run sources n q).ready = [] ∨ (run sources n q).done.length = q.done.length + n := by
  induction n generalizing q with
  | zero => exact .inr rfl
  | succ n ih =>
    cases hq : q.ready with
    | nil =>
      rw [run_of_ready_nil hq]
      exact .inl hq
    | cons i rest =>
      rw [run]
      refine (ih _).imp_right fun h => ?_
      rw [h, done_step hq, List.length_append, List.length_singleton]
      omega

theorem Invariant.subset_range (h : Invariant sources q) :
    q.done ++ q.ready ⊆ List.range sources.length := by
  intro i hi
  rw [List.mem_range]
  rcases List.mem_append.1 hi with hi | hi
  · exact h.done_lt i hi
  · exact ((h.mem_ready i).1 hi).1

theorem Invariant.done_subset (h : Invariant sources q) : q.done ⊆ List.range sources.length :=
  fun _ hi => h.subset_range (List.mem_append_left _ hi)

/-- As many steps as there are wires leave none ready. -/
theorem ready_run (hsimple : Simple sources) :
    (run sources sources.length (start sources)).ready = [] := by
  have hinv := (invariant_start sources).run hsimple sources.length
  rcases ready_run_or_length sources sources.length (start sources) with h | h
  · exact h
  · refine List.eq_nil_of_length_eq_zero ?_
    -- as many are done as there are places, so no place is left for one that is ready
    have hlen := (hinv.nodup.subperm hinv.subset_range).length_le
    rw [List.length_append, h, List.length_range] at hlen
    omega

theorem Invariant.done_nodup (h : Invariant sources q) : q.done.Nodup :=
  (List.nodup_append.1 h.nodup).1

/-- Fewer wires are done than there are exactly if some wire is not done. -/
theorem Invariant.length_done_lt_iff (h : Invariant sources q) :
    q.done.length < sources.length ↔ ∃ i < sources.length, i ∉ q.done := by
  constructor
  · intro hlt
    by_contra hall
    have hsub : List.range sources.length ⊆ q.done := by
      intro i hi
      by_contra hnew
      exact hall ⟨i, List.mem_range.1 hi, hnew⟩
    have hlen := (List.nodup_range.subperm hsub).length_le
    rw [List.length_range] at hlen
    omega
  · rintro ⟨i, hi, hnew⟩
    have hsub : i :: q.done ⊆ List.range sources.length :=
      List.cons_subset.2 ⟨List.mem_range.2 hi, h.done_subset⟩
    have hlen := ((List.nodup_cons.2 ⟨hnew, h.done_nodup⟩).subperm hsub).length_le
    rw [List.length_range, List.length_cons] at hlen
    omega

/-- If no fewer wires are done than there are, all are, in some order. -/
theorem Invariant.done_perm (h : Invariant sources q) (hlen : ¬ q.done.length < sources.length) :
    q.done.Perm (List.range sources.length) := by
  refine (h.done_nodup.subperm h.done_subset).perm_of_length_le ?_
  rw [List.length_range]
  omega

/-- With nothing ready, a wire waits for something exactly if it is not done. -/
theorem Invariant.waiting_pos_iff (h : Invariant sources q) (hready : q.ready = []) {i : Nat}
    (hi : i < sources.length) : 0 < q.waiting.getD i 0 ↔ i ∉ q.done := by
  rw [h.waiting, List.length_pos_iff]
  constructor
  · intro hne hmem
    exact hne (h.pending_of_mem_done hmem)
  · intro hnew hnil
    have hmem := (h.mem_ready i).2 ⟨hi, hnew, hnil⟩
    rw [hready] at hmem
    cases hmem

/-- With nothing ready, a wire that is not done waits for another one that is not done. -/
theorem Invariant.exists_pending (h : Invariant sources q) (hready : q.ready = []) {i : Nat}
    (hi : i < sources.length) (hnew : i ∉ q.done) :
    ∃ j ∈ sourcesOf sources i, j ∉ q.done := by
  have hpos := (h.waiting_pos_iff hready hi).2 hnew
  rw [h.waiting] at hpos
  obtain ⟨j, hj⟩ := List.exists_mem_of_length_pos hpos
  exact ⟨j, mem_pending.1 hj⟩

end Invariant

end Netlist.Queue
