/-
Scheduling what is scheduled.

A schedule puts the wires into the order in which the queue did them, and the queue that
runs on the schedule meets the same wires under new places: what was done `k`-th stands at
place `k`. That the first order was an order of evaluation does not say that the second run
keeps it, since among the wires that are released together the place decides who is first.
So the two queues are followed side by side.

A queue takes from the front and appends at the end, so what is done and what is ready,
one behind the other, is at every moment a beginning of what is done in the end
(`prefix_run`). Hence the wires that a step of the first run releases stand next to each
other in the final order, whatever their places were; the step of the second run releases
the same wires, in the order of their new places, and that is the same order
(`Abreast.of_ready`).
-/
import Mathlib.Data.List.Sort
import Mathlib.Data.List.GetD
import Netlist.Proofs.Schedule

set_option autoImplicit false

namespace Netlist.Queue

/-! ## A queue is first in, first out -/

/-- The wires that are done, then those that are ready. -/
def lineup (q : Queue) : List Nat :=
  q.done ++ q.ready

/-- A step puts the wires that it releases at the end. -/
theorem lineup_step {sources : List (List Nat)} {q : Queue} {i : Nat} {rest : List Nat}
    (h : q.ready = i :: rest) : (step sources q).lineup =
      q.lineup ++ (readers sources i).filter fun k => decide (q.waiting.getD k 0 ≤ 1) := by
  rw [lineup, lineup, done_step h, ready_step h, h, List.append_assoc, List.singleton_append,
    ← List.cons_append, ← List.append_assoc]

theorem prefix_step (sources : List (List Nat)) (q : Queue) :
    q.lineup <+: (step sources q).lineup := by
  cases hq : q.ready with
  | nil =>
    rw [step_of_ready_nil hq]
  | cons i rest =>
    rw [lineup_step hq]
    exact List.prefix_append _ _

theorem prefix_run (sources : List (List Nat)) (n : Nat) (q : Queue) :
    q.lineup <+: (run sources n q).lineup := by
  induction n generalizing q with
  | zero => exact List.prefix_refl _
  | succ n ih => exact (prefix_step sources q).trans (ih _)

/-! ## New places -/

/-- The old place of the wire that stands at a place of the row. -/
def placeIn (row : List Nat) (i : Nat) : Nat :=
  row.getD i 0

theorem map_placeIn_range' {row : List Nat} {n k : Nat} (h : n + k ≤ row.length) :
    (List.range' n k).map (placeIn row) = (row.drop n).take k := by
  refine List.ext_getElem ?_ fun i hi hi' => ?_
  · rw [List.length_map, List.length_range', List.length_take, List.length_drop]
    omega
  · rw [List.length_map, List.length_range'] at hi
    rw [List.getElem_map, List.getElem_range', List.getElem_take, List.getElem_drop, placeIn,
      Nat.one_mul, List.getD_eq_getElem _ _ (by omega)]

/-- The graph `sources'` is `sources` with the wires moved into the order of the row. -/
structure Renumbers (row : List Nat) (sources sources' : List (List Nat)) : Prop where
  nodup : row.Nodup
  mem_row : ∀ i, i ∈ row ↔ i < sources.length
  length_eq : sources'.length = row.length
  /-- Sources are places of the graph. -/
  source_lt : ∀ i, ∀ j ∈ sourcesOf sources i, j < sources.length
  source_lt' : ∀ i, ∀ j ∈ sourcesOf sources' i, j < row.length
  mem_sources : ∀ i < row.length, ∀ j < row.length,
    j ∈ sourcesOf sources' i ↔ placeIn row j ∈ sourcesOf sources (placeIn row i)

section Renumbers

variable {row : List Nat} {sources sources' : List (List Nat)}

theorem Renumbers.placeIn_inj (h : Renumbers row sources sources') {i j : Nat}
    (hi : i < row.length) (hj : j < row.length) (heq : placeIn row i = placeIn row j) :
    i = j := by
  rw [placeIn, placeIn, List.getD_eq_getElem _ _ hi, List.getD_eq_getElem _ _ hj] at heq
  exact h.nodup.getElem_inj_iff.1 heq

theorem placeIn_mem {i : Nat} (hi : i < row.length) : placeIn row i ∈ row := by
  rw [placeIn, List.getD_eq_getElem _ _ hi]
  exact List.getElem_mem hi

theorem Renumbers.placeIn_lt (h : Renumbers row sources sources') {i : Nat}
    (hi : i < row.length) : placeIn row i < sources.length :=
  (h.mem_row _).1 (placeIn_mem hi)

theorem Renumbers.exists_placeIn (h : Renumbers row sources sources') {i : Nat}
    (hi : i < sources.length) : ∃ i' < row.length, placeIn row i' = i := by
  obtain ⟨i', hi', heq⟩ := List.mem_iff_getElem.1 ((h.mem_row i).2 hi)
  exact ⟨i', hi', by rw [placeIn, List.getD_eq_getElem _ _ hi', heq]⟩

theorem Renumbers.mem_map_iff (h : Renumbers row sources sources') {is : List Nat}
    (his : ∀ i ∈ is, i < row.length) {i : Nat} (hi : i < row.length) :
    placeIn row i ∈ is.map (placeIn row) ↔ i ∈ is := by
  rw [List.mem_map]
  constructor
  · rintro ⟨j, hj, heq⟩
    exact h.placeIn_inj (his j hj) hi heq ▸ hj
  · intro hmem
    exact ⟨i, hmem, rfl⟩

/-- Nothing is pending under the new places exactly if nothing is under the old ones. -/
theorem Renumbers.pending_eq_nil_iff (h : Renumbers row sources sources') {done' : List Nat}
    (hdone : ∀ i ∈ done', i < row.length) {i : Nat} (hi : i < row.length) :
    pending sources' done' i = [] ↔
      pending sources (done'.map (placeIn row)) (placeIn row i) = [] := by
  rw [Queue.pending_eq_nil_iff, Queue.pending_eq_nil_iff]
  constructor
  · intro hall j hj
    obtain ⟨j', hj', rfl⟩ := h.exists_placeIn (h.source_lt _ j hj)
    exact List.mem_map_of_mem (hall j' ((h.mem_sources i hi j' hj').2 hj))
  · intro hall j hj
    have hlt := h.source_lt' i j hj
    exact (h.mem_map_iff hdone hlt).1 (hall _ ((h.mem_sources i hi j hlt).1 hj))

end Renumbers

/-! ## Side by side -/

/-- Two queues at the same point of their runs: the second one has done, and has ready, the
wires of the first one in the same order, and its places are the first ones. -/
structure Abreast (row : List Nat) (q q' : Queue) : Prop where
  done : q'.done.map (placeIn row) = q.done
  ready : q'.ready.map (placeIn row) = q.ready
  lineup : q'.lineup = List.range q'.lineup.length

section Abreast

variable {row : List Nat} {sources sources' : List (List Nat)} {q q' : Queue}

/-- What is ready stands at places of the row, and is ready under the old place. -/
theorem Renumbers.mem_ready_iff (h : Renumbers row sources sources')
    (hinv : Invariant sources q) (hinv' : Invariant sources' q')
    (hdone : q'.done.map (placeIn row) = q.done) {i : Nat} :
    i ∈ q'.ready ↔ i < row.length ∧ placeIn row i ∈ q.ready := by
  have hlt : ∀ i ∈ q'.done, i < row.length := fun i hi => h.length_eq ▸ hinv'.done_lt i hi
  rw [hinv'.mem_ready, h.length_eq]
  refine and_congr_right fun hi => ?_
  rw [hinv.mem_ready, ← hdone, h.mem_map_iff hlt hi, h.pending_eq_nil_iff hlt hi]
  exact (and_iff_right (h.placeIn_lt hi)).symm

/-- The wires that get ready in the second run are sorted, and places have only one sorted
order. So if the wires that get ready in the first run stand in a stretch of the row, those
of the second run are the places of the stretch. -/
theorem Renumbers.released_eq (h : Renumbers row sources sources') (hinv : Invariant sources q)
    (hinv' : Invariant sources' q') {rest' new' : List Nat} {n k : Nat}
    (hq : q.ready = rest'.map (placeIn row) ++ (List.range' n k).map (placeIn row))
    (hq' : q'.ready = rest' ++ new') (hdone : q'.done.map (placeIn row) = q.done)
    (hrest : ∀ i ∈ rest', i < n) (hle : n + k ≤ row.length)
    (hsorted : new'.Pairwise (· < ·)) : new' = List.range' n k := by
  have hrestlt : ∀ i ∈ rest', i < row.length := fun i hi =>
    Nat.lt_of_lt_of_le (hrest i hi) (Nat.le_of_add_right_le hle)
  have hnewlt : ∀ i ∈ List.range' n k, i < row.length := fun i hi =>
    Nat.lt_of_lt_of_le (List.mem_range'_1.1 hi).2 hle
  refine hsorted.eq_of_mem_iff List.pairwise_lt_range' fun i => ?_
  have hmem := h.mem_ready_iff hinv hinv' hdone (i := i)
  rw [hq', hq, List.mem_append, List.mem_append] at hmem
  constructor
  · intro hi
    obtain ⟨hlt, hold | hnew⟩ := hmem.1 (.inr hi)
    · have hnodup := (List.nodup_append.1 hinv'.nodup).2.1
      rw [hq'] at hnodup
      have hi' := (h.mem_map_iff hrestlt hlt).1 hold
      exact absurd rfl ((List.nodup_append.1 hnodup).2.2 i hi' i hi)
    · exact (h.mem_map_iff hnewlt hlt).1 hnew
  · intro hi
    refine (hmem.2 ⟨hnewlt i hi, .inr (List.mem_map_of_mem hi)⟩).resolve_left fun hi' => ?_
    exact absurd (List.mem_range'_1.1 hi).1 (Nat.not_le.2 (hrest i hi'))

/-- Two queues that have done the same are abreast, if what was ready before is a first part
of the places and what got ready now stands in order in the second one. -/
theorem Abreast.of_ready (h : Renumbers row sources sources')
    (hinv : Invariant sources q) (hinv' : Invariant sources' q') (hrow : q.lineup <+: row)
    {rest new rest' new' : List Nat} (hq : q.ready = rest ++ new)
    (hq' : q'.ready = rest' ++ new') (hdone : q'.done.map (placeIn row) = q.done)
    (hrest : rest'.map (placeIn row) = rest)
    (hfront : q'.done ++ rest' = List.range (q'.done ++ rest').length)
    (hsorted : new'.Pairwise (· < ·)) : Abreast row q q' := by
  obtain ⟨n, hfront⟩ : ∃ n, q'.done ++ rest' = List.range n := ⟨_, hfront⟩
  obtain ⟨behind, hrow⟩ := hrow
  rw [Queue.lineup, hq, ← List.append_assoc, ← hdone, ← hrest, ← List.map_append, hfront,
    List.append_assoc] at hrow
  have hlen : row.length = n + (new.length + behind.length) := by
    rw [← hrow, List.length_append, List.length_map, List.length_range, List.length_append]
  -- what got ready in the first run stands in the row right behind what was there before
  have hnew : (List.range' n new.length).map (placeIn row) = new := by
    rw [map_placeIn_range' (by omega)]
    nth_rewrite 1 [← hrow]
    rw [List.drop_left' (by rw [List.length_map, List.length_range]), List.take_left' rfl]
  have hplaces : new' = List.range' n new.length :=
    h.released_eq hinv hinv' (by rw [hq, hrest, hnew]) hq' hdone
      (fun i hi => List.mem_range.1 (hfront ▸ List.mem_append_right _ hi)) (by omega) hsorted
  refine ⟨hdone, ?_, ?_⟩
  · rw [hq', hq, List.map_append, hrest, hplaces, hnew]
  · rw [Queue.lineup, hq', ← List.append_assoc, hfront, hplaces, List.length_append,
      List.length_range, List.length_range', List.range_add, List.range'_eq_map_range]

theorem abreast_start (h : Renumbers row sources sources')
    (hrow : (start sources).lineup <+: row) :
    Abreast row (start sources) (start sources') :=
  .of_ready h (invariant_start sources) (invariant_start sources') hrow
    (List.nil_append _).symm (List.nil_append _).symm rfl rfl rfl (places_sorted _ _)

/-- A step of both queues keeps them abreast, as long as the first one stays a beginning of
the row. -/
theorem Abreast.step (hab : Abreast row q q') (h : Renumbers row sources sources')
    (hsimple : Simple sources) (hsimple' : Simple sources') (hinv : Invariant sources q)
    (hinv' : Invariant sources' q') (hrow : (Queue.step sources q).lineup <+: row) :
    Abreast row (Queue.step sources q) (Queue.step sources' q') := by
  cases hq' : q'.ready with
  | nil =>
    have hq : q.ready = [] := by rw [← hab.ready, hq', List.map_nil]
    rw [step_of_ready_nil hq, step_of_ready_nil hq']
    exact hab
  | cons i rest =>
    have hq : q.ready = placeIn row i :: rest.map (placeIn row) := by
      rw [← hab.ready, hq', List.map_cons]
    have hlineup := hab.lineup
    rw [Queue.lineup, hq'] at hlineup
    refine .of_ready h (hinv.step hsimple) (hinv'.step hsimple') hrow (ready_step hq)
      (ready_step hq') ?_ rfl ?_ ((places_sorted _ _).filter _)
    · rw [done_step hq, done_step hq', List.map_append, hab.done, List.map_singleton]
    · rwa [done_step hq', List.append_assoc, List.singleton_append]

theorem Abreast.run (hab : Abreast row q q') (h : Renumbers row sources sources')
    (hsimple : Simple sources) (hsimple' : Simple sources') (hinv : Invariant sources q)
    (hinv' : Invariant sources' q') (n : Nat) (hrow : (Queue.run sources n q).lineup <+: row) :
    Abreast row (Queue.run sources n q) (Queue.run sources' n q') := by
  induction n generalizing q q' with
  | zero => exact hab
  | succ n ih =>
    refine ih ?_ (hinv.step hsimple) (hinv'.step hsimple') hrow
    exact hab.step h hsimple hsimple' hinv hinv' ((prefix_run sources n _).trans hrow)

/-- The run on the graph that is renumbered along the order of the first run does the wires
in the order of their places. -/
theorem done_run_of_renumbers (hsimple : Simple sources) (hsimple' : Simple sources') {n : Nat}
    (hready : (run sources n (start sources)).ready = [])
    (h : Renumbers (run sources n (start sources)).done sources sources') :
    (run sources' n (start sources')).done = List.range sources'.length := by
  have hlineup : (run sources n (start sources)).lineup = (run sources n (start sources)).done := by
    rw [lineup, hready, List.append_nil]
  have hab := (abreast_start h (hlineup ▸ prefix_run sources n _)).run h hsimple hsimple'
    (invariant_start sources) (invariant_start sources') n (hlineup ▸ List.prefix_refl _)
  have hready' : (run sources' n (start sources')).ready = [] := by
    have hmap := hab.ready
    rwa [hready, List.map_eq_nil_iff] at hmap
  have hdone := hab.lineup
  rw [lineup, hready', List.append_nil] at hdone
  rw [hdone, h.length_eq, ← hab.done, List.length_map]

end Abreast

end Netlist.Queue

namespace Netlist.Module

/-! ## Schedules of schedules -/

section Schedule

variable {m s : Module} {w : Wire} {i j : Nat}

/-- With different names the sources of a wire are the places of the names that the wire
comes after. -/
theorem mem_sources_iff (hnodup : m.wireNames.Nodup) :
    j ∈ m.sources w ↔ ∃ name ∈ m.needs w, m.nameAt j = some name := by
  refine ⟨nameAt_of_mem_sources, fun ⟨name, hneed, hname⟩ => ?_⟩
  obtain ⟨k, hk, hkname⟩ := exists_mem_sources hneed (mem_wireNames_iff.2 ⟨j, hname⟩)
  rwa [nameAt_inj hnodup hname hkname]

theorem source_lt {i j : Nat} (h : j ∈ Queue.sourcesOf m.graph i) : j < m.wires.length := by
  have hi := Queue.lt_length_of_mem_sourcesOf h
  rw [length_graph] at hi
  rw [sourcesOf_graph hi] at h
  obtain ⟨name, -, hname⟩ := nameAt_of_mem_sources h
  exact (nameAt_eq_some_iff.1 hname).1

/-- What a schedule is made of: the wires in the order in which the queue did them all. -/
theorem schedule_eq_ok_iff :
    m.schedule = .ok s ↔ m.Schedulable ∧
      s = { m with wires := m.finalQueue.done.filterMap fun i => m.wires[i]? } := by
  constructor
  · intro h
    have hm := (of_schedule_eq_ok h).1
    refine ⟨hm, ?_⟩
    have hlen := (length_done_lt_iff_cyclic hm.nodup hm.closed).not.2 hm.acyclic
    rw [schedule, nodup_wireNames_iff.2 hm.nodup, firstMissing_eq_none.2 hm.closed] at h
    change (if _ then _ else _) = _ at h
    rw [if_neg hlen] at h
    exact (Except.ok.inj h).symm
  · rintro ⟨hm, rfl⟩
    have hlen := (length_done_lt_iff_cyclic hm.nodup hm.closed).not.2 hm.acyclic
    rw [schedule, nodup_wireNames_iff.2 hm.nodup, firstMissing_eq_none.2 hm.closed]
    show (if _ then _ else _) = _
    rw [if_neg hlen]

/-- The wires at some places of a row, each found at the place of the place. -/
theorem getElem?_filterMap_places {ws : List Wire} {is : List Nat}
    (his : ∀ i ∈ is, i < ws.length) (k : Nat) :
    (is.filterMap fun i => ws[i]?)[k]? = is[k]?.bind fun i => ws[i]? := by
  induction is generalizing k with
  | nil => rfl
  | cons i is ih =>
    obtain ⟨hi, his⟩ := List.forall_mem_cons.1 his
    rw [List.filterMap_cons_some (List.getElem?_eq_getElem hi)]
    cases k with
    | zero => exact (List.getElem?_eq_getElem hi).symm
    | succ k => exact ih his k

theorem Schedulable.done_perm (h : m.Schedulable) :
    m.finalQueue.done.Perm (List.range m.graph.length) := by
  refine m.invariant_finalQueue.done_perm ?_
  rw [length_graph]
  exact (length_done_lt_iff_cyclic h.nodup h.closed).not.2 h.acyclic

theorem getElem?_wires_of_schedule (h : m.schedule = .ok s) {k : Nat}
    (hk : k < m.finalQueue.done.length) :
    s.wires[k]? = m.wires[Queue.placeIn m.finalQueue.done k]? := by
  obtain ⟨-, rfl⟩ := schedule_eq_ok_iff.1 h
  have hlt : ∀ i ∈ m.finalQueue.done, i < m.wires.length := fun i hi =>
    m.length_graph ▸ m.invariant_finalQueue.done_lt i hi
  show (m.finalQueue.done.filterMap fun i => m.wires[i]?)[k]? = _
  rw [getElem?_filterMap_places hlt, List.getElem?_eq_getElem hk, Option.bind_some,
    Queue.placeIn, List.getD_eq_getElem _ _ hk]

/-- The graph of a schedule is the graph of the module, with the wires moved into the order
in which the queue did them. -/
theorem renumbers_of_schedule (h : m.schedule = .ok s) :
    Queue.Renumbers m.finalQueue.done m.graph s.graph := by
  obtain ⟨hm, hs⟩ := of_schedule_eq_ok h
  have hperm := hm.done_perm
  have hlen : s.wires.length = m.finalQueue.done.length := by
    rw [hs.perm.length_eq, hperm.length_eq, List.length_range, length_graph]
  refine ⟨m.invariant_finalQueue.done_nodup, fun i => ?_, ?_, fun i j => ?_, fun i j => ?_, ?_⟩
  · rw [hperm.mem_iff, List.mem_range]
  · rw [length_graph, hlen]
  · rw [length_graph]
    exact source_lt
  · rw [← hlen]
    exact source_lt
  · intro i hi j hj
    have hwire := getElem?_wires_of_schedule h hi
    have hname : s.nameAt j = m.nameAt (Queue.placeIn m.finalQueue.done j) :=
      congrArg (Option.map Wire.name) (getElem?_wires_of_schedule h hj)
    have hi' : Queue.placeIn m.finalQueue.done i < m.wires.length :=
      m.length_graph ▸ m.invariant_finalQueue.done_lt _ (Queue.placeIn_mem hi)
    rw [List.getElem?_eq_getElem (hlen ▸ hi), List.getElem?_eq_getElem hi', Option.some.injEq]
      at hwire
    have hneeds : s.needs = m.needs := by
      funext w
      simp only [needs, isInput, input?, hs.inputs]
    rw [sourcesOf_graph (hlen ▸ hi), sourcesOf_graph hi',
      mem_sources_iff ((hs.perm_wireNames.nodup_iff).2 hm.nodup), mem_sources_iff hm.nodup, hwire,
      hneeds, hname]

/-- Scheduling a schedule gives it back: its wires stand in the order in which the queue
does them already, and no other order of evaluation is chosen. -/
theorem schedule_schedule (h : m.schedule = .ok s) : s.schedule = .ok s := by
  obtain ⟨hm, hs⟩ := of_schedule_eq_ok h
  have hrun : s.finalQueue.done = List.range s.graph.length := by
    have hlen : s.wires.length = m.wires.length := hs.perm.length_eq
    have hready := m.ready_finalQueue
    have hdone := Queue.done_run_of_renumbers m.simple_graph s.simple_graph hready
      (renumbers_of_schedule h)
    rwa [← hlen] at hdone
  refine schedule_eq_ok_iff.2 ⟨hs.toSameSignals.schedulable_iff.2 hm, ?_⟩
  rw [hrun, length_graph, filterMap_range_getElem?]

/-- A module whose first wire reads the last one, and its second wire the third. -/
def crossed : Module where
  name := "crossed"
  inputs := [⟨"a", 1⟩, ⟨"b", 1⟩]
  wires :=
    [.ofExpr "y" 1 (.signal "q"), .ofExpr "z" 1 (.signal "p"), .ofExpr "p" 1 (.signal "a"),
      .ofExpr "q" 1 (.signal "b")]
  outputs := ["y", "z"]

/-- The same module with its wires in the order of some names. -/
def crossedAs (names : List String) : Module :=
  { crossed with wires := names.filterMap crossed.wire? }

/-- Its schedule does `z` before `y`, since `p` is done before `q`, and is its own schedule.
The row with `y` before `z` is an order of evaluation too, and does not stay as it is. -/
theorem schedule_schedule_crossed :
    crossed.schedule = .ok (crossedAs ["p", "q", "z", "y"]) ∧
    (crossedAs ["p", "q", "z", "y"]).schedule = .ok (crossedAs ["p", "q", "z", "y"]) ∧
    (crossedAs ["p", "q", "y", "z"]).schedule = .ok (crossedAs ["p", "q", "z", "y"]) :=
  ⟨rfl, schedule_schedule (m := crossed) rfl, rfl⟩

end Schedule

end Netlist.Module
