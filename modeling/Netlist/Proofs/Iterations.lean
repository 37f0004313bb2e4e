/-
The loop of the queue, iteration by iteration.

An iteration takes the wire at the front and releases the wires that read it, one after the other.
Between two iterations the parts of the queue say what is left to do: a counter says how many of the
names that its wire has to come after are outstanding, and the queue holds the wires that are not done
and for which nothing is (`Tracks`). This is `Queue.Invariant` in the words of the module, so it holds
of every module that passes the first two checks, cyclic ones too.

Amid an iteration the counters lag behind: a wire that has still to be released waits for the wire that
was taken. That is why no release takes from a counter that is zero, and why no wire gets ready that is
ready or done (`Invariant.releasesSafely`). Each iteration does a wire that was not done, so the loop
comes to its end, and a wire that waits then is never done.
-/
import Mathlib.Data.Finset.Card
import Netlist.Proofs.ScheduleOrder

set_option autoImplicit false

namespace Netlist.Queue

variable {sources : List (List Nat)} {q : Queue} {i k : Nat} {rest : List Nat}

/-! ## Amid an iteration -/

/-- The queue after its front is taken, when no wire has been released yet. -/
def take (q : Queue) : Queue :=
  match q.ready with
  | [] => q
  | i :: rest => { q with done := q.done ++ [i], ready := rest }

theorem take_of_ready_cons (h : q.ready = i :: rest) :
    q.take = { q with done := q.done ++ [i], ready := rest } := by
  unfold take
  rw [h]

/-- An iteration takes the front and then releases the wires that read it. -/
theorem step_eq_foldl_take (h : q.ready = i :: rest) :
    step sources q = (readers sources i).foldl release q.take := by
  rw [step_of_ready_cons h, take_of_ready_cons h]

/-- The next iteration releases the wires that read its front one after the other. Whenever it
releases a wire, that wire waits for something and is neither ready nor done. -/
def ReleasesSafely (sources : List (List Nat)) (q : Queue) : Prop :=
  ∀ i rest, q.ready = i :: rest →
    step sources q = (readers sources i).foldl release q.take ∧
    ∀ before k late, readers sources i = before ++ k :: late →
      0 < (before.foldl release q.take).waiting.getD k 0 ∧
        k ∉ (before.foldl release q.take).lineup

theorem Invariant.releasesSafely (h : Invariant sources q) : ReleasesSafely sources q := by
  intro i rest hq
  refine ⟨step_eq_foldl_take hq, fun before k late hsplit => ?_⟩
  have hreader : k ∈ readers sources i := by
    rw [hsplit]
    exact List.mem_append_right _ List.mem_cons_self
  have hnodup := readers_nodup sources i
  rw [hsplit] at hnodup
  obtain ⟨hbefore, -, hapart⟩ := List.nodup_append.1 hnodup
  have hk : k ∉ before := fun hmem => hapart k hmem k List.mem_cons_self rfl
  constructor
  -- no earlier release has changed the counter, and `k` waits at least for the front
  · rw [getD_waiting_foldl_release _ hbefore, if_neg hk, Nat.sub_zero, take_of_ready_cons hq]
    show 0 < q.waiting.getD k 0
    rw [h.waiting]
    exact List.length_pos_of_mem (h.mem_pending_of_mem_readers hq hreader)
  · have hout := h.notMem_of_mem_readers hq hreader
    rw [lineup, done_foldl_release, ready_foldl_release _ hbefore, take_of_ready_cons hq]
    show k ∉ (q.done ++ [i]) ++ (rest ++ before.filter fun k => decide (q.waiting.getD k 0 ≤ 1))
    rw [List.append_assoc, List.singleton_append, ← List.cons_append, ← List.append_assoc,
      List.mem_append, not_or]
    exact ⟨hout, fun hmem => hk (List.mem_of_mem_filter hmem)⟩

/-! ## The end of the loop -/

theorem run_add (sources : List (List Nat)) (n k : Nat) (q : Queue) :
    run sources (n + k) q = run sources k (run sources n q) := by
  induction n generalizing q with
  | zero => rw [Nat.zero_add, run]
  | succ n ih => rw [Nat.succ_add, run, run, ih]

/-- Once nothing is ready, the queue stays as it is. -/
theorem run_eq_of_le {n : Nat} (h : (run sources n q).ready = []) (hle : n ≤ k) :
    run sources k q = run sources n q := by
  obtain ⟨d, rfl⟩ := Nat.exists_eq_add_of_le hle
  rw [run_add, run_of_ready_nil h]

/-- The loop ends, after at most as many iterations as there are wires, and leaves the queue as it
is after that many. -/
theorem exists_last_iteration (hsimple : Simple sources) :
    ∃ n ≤ sources.length, ∀ k, ((run sources k (start sources)).ready = [] ↔ n ≤ k) ∧
      (n ≤ k → run sources k (start sources) = run sources sources.length (start sources)) := by
  have hends : ∃ n, (run sources n (start sources)).ready = [] := ⟨_, ready_run hsimple⟩
  have hlast := Nat.find_spec hends
  have hle : Nat.find hends ≤ sources.length := Nat.find_min' hends (ready_run hsimple)
  refine ⟨Nat.find hends, hle, fun k => ⟨⟨Nat.find_min' hends, fun hk => ?_⟩, fun hk => ?_⟩⟩
  · rw [run_eq_of_le hlast hk]
    exact hlast
  · rw [run_eq_of_le hlast hk, run_eq_of_le hlast hle]

/-- What is done after some iterations is done in the end. -/
theorem done_run_subset (hsimple : Simple sources) (n : Nat) :
    (run sources n (start sources)).done ⊆
      (run sources sources.length (start sources)).done := by
  have hprefix := done_prefix_run sources sources.length (run sources n (start sources))
  rw [← run_add, run_eq_of_le (ready_run hsimple) (Nat.le_add_left _ _)] at hprefix
  exact hprefix.subset

end Netlist.Queue

namespace Netlist.Module

open Queue (pending mem_pending)

variable {m : Module} {w : Wire} {done : List Nat} {i j : Nat} {name : String}

/-! ## What is outstanding -/

/-- The names that a wire has to come after, without the inputs and without the names of the wires
that are done. -/
def outstanding (m : Module) (done : List Nat) (w : Wire) : Finset String :=
  (w.deps.keys.toFinset \ m.inputNames.toFinset) \ (done.filterMap m.nameAt).toFinset

theorem mem_outstanding : name ∈ m.outstanding done w ↔
    name ∈ m.needs w ∧ ∀ j ∈ done, m.nameAt j ≠ some name := by
  simp only [outstanding, Finset.mem_sdiff, List.mem_toFinset, ← mem_needs, List.mem_filterMap,
    not_exists, not_and, ne_eq]

/-- A place is pending for a wire if its name is outstanding. -/
theorem mem_pending_graph_iff (hnodup : m.wireNames.Nodup) (hi : i < m.wires.length)
    (hj : m.nameAt j = some name) :
    j ∈ pending m.graph done i ↔ name ∈ m.outstanding done m.wires[i] := by
  rw [mem_pending, sourcesOf_graph hi, mem_sources_iff hnodup, mem_outstanding]
  constructor
  · rintro ⟨⟨name', hneed, hname'⟩, hnew⟩
    obtain rfl : name' = name := Option.some.inj (hname'.symm.trans hj)
    exact ⟨hneed, fun k hk hkname => hnew (nameAt_inj hnodup hj hkname ▸ hk)⟩
  · rintro ⟨hneed, hnew⟩
    exact ⟨⟨name, hneed, hj⟩, fun hdone => hnew j hdone hj⟩

/-- As many places are pending as names are outstanding. -/
theorem length_pending_graph (hnodup : m.wireNames.Nodup) (hclosed : m.Closed)
    (hi : i < m.wires.length) :
    (pending m.graph done i).length = (m.outstanding done m.wires[i]).card := by
  have hplaces : (pending m.graph done i).Nodup := (m.simple_graph i).filter _
  have hwire : ∀ name ∈ m.outstanding done m.wires[i], name ∈ m.wireNames := fun _ hname =>
    hclosed.mem_wireNames (List.getElem_mem hi) (mem_outstanding.1 hname).1
  rw [← List.toFinset_card_of_nodup hplaces]
  symm
  -- each outstanding name has a place, and each pending place has a name
  refine Finset.card_bij (fun name _ => m.placeOf name) (fun name hname => ?_)
    (fun a ha b _ heq => (List.idxOf_inj (hwire a ha)).1 heq) fun j hj => ?_
  · obtain ⟨j, hj⟩ := mem_wireNames_iff.1 (hwire name hname)
    rw [placeOf_of_nameAt hnodup hj, List.mem_toFinset]
    exact (mem_pending_graph_iff hnodup hi hj).2 hname
  · rw [List.mem_toFinset] at hj
    have hsource := (mem_pending.1 hj).1
    rw [sourcesOf_graph hi] at hsource
    obtain ⟨name, -, hname⟩ := nameAt_of_mem_sources hsource
    exact ⟨name, (mem_pending_graph_iff hnodup hi hname).1 hj, placeOf_of_nameAt hnodup hname⟩

/-! ## The queue of a module -/

/-- The queue of a module after some iterations of its loop. -/
def queueAfter (m : Module) : Nat → Queue
  | 0 => Queue.start m.graph
  | n + 1 => Queue.step m.graph (m.queueAfter n)

theorem queueAfter_eq_run (m : Module) (n : Nat) :
    m.queueAfter n = Queue.run m.graph n (Queue.start m.graph) := by
  induction n with
  | zero => rfl
  | succ n ih =>
    rw [Queue.run_add, ← ih]
    rfl

theorem finalQueue_eq_run (m : Module) :
    m.finalQueue = Queue.run m.graph m.graph.length (Queue.start m.graph) := by
  rw [length_graph]
  rfl

theorem invariant_queueAfter (m : Module) (n : Nat) : Queue.Invariant m.graph (m.queueAfter n) := by
  induction n with
  | zero => exact Queue.invariant_start m.graph
  | succ n ih => exact ih.step m.simple_graph

/-- What the parts of a queue say about a module between two iterations. -/
structure Tracks (m : Module) (q : Queue) : Prop where
  /-- There is one counter a wire. -/
  length_waiting : q.waiting.length = m.wires.length
  /-- A counter is the number of names that are outstanding for its wire. -/
  waiting : ∀ i (_ : i < m.wires.length),
    q.waiting.getD i 0 = (m.outstanding q.done m.wires[i]).card
  /-- The wires that are ready are those that are not done and for which nothing is outstanding. -/
  mem_ready : ∀ i, i ∈ q.ready ↔
    i ∉ q.done ∧ ∃ _ : i < m.wires.length, m.outstanding q.done m.wires[i] = ∅
  /-- No wire has been ready twice: those that are ready now and those that were before, which are
  done, all differ. -/
  nodup : q.lineup.Nodup

theorem tracks_of_invariant {q : Queue} (hnodup : m.wireNames.Nodup) (hclosed : m.Closed)
    (h : Queue.Invariant m.graph q) : m.Tracks q := by
  refine ⟨h.length_waiting.trans m.length_graph, fun i hi => ?_, fun i => ?_, h.nodup⟩
  · rw [h.waiting, length_pending_graph hnodup hclosed hi]
  · have hempty : ∀ hi : i < m.wires.length,
        pending m.graph q.done i = [] ↔ m.outstanding q.done m.wires[i] = ∅ := by
      intro hi
      rw [← List.length_eq_zero_iff, length_pending_graph hnodup hclosed hi, Finset.card_eq_zero]
    rw [h.mem_ready, length_graph]
    constructor
    · rintro ⟨hi, hnew, hnil⟩
      exact ⟨hnew, hi, (hempty hi).1 hnil⟩
    · rintro ⟨hnew, hi, hnone⟩
      exact ⟨hi, hnew, (hempty hi).2 hnone⟩

/-- The loop that puts the wires of a module into order, for every module in which no name is
repeated and none is missing, whether some wire comes after itself or not. Between all iterations the
counters are the numbers of outstanding names, and the queue holds the wires that are not done and
for which nothing is outstanding, none of them for the second time. A release never takes from a
counter that is zero, and never meets a wire that is ready or done. The loop ends after at most one
iteration a wire, and the wires that wait then are those that are never done. -/
theorem queue_tracks_wires (m : Module) (hrepeated : firstRepeated [] m.wireNames = none)
    (hmissing : m.firstMissing = none) :
    (∀ n, m.Tracks (m.queueAfter n)) ∧
    (∀ n, (m.queueAfter n).ReleasesSafely m.graph) ∧
    (∃ n ≤ m.wires.length, ∀ k, ((m.queueAfter k).ready = [] ↔ n ≤ k) ∧
      (n ≤ k → m.queueAfter k = m.finalQueue)) ∧
    ∀ i < m.wires.length,
      (0 < m.finalQueue.waiting.getD i 0 ↔ ∀ n, i ∉ (m.queueAfter n).done) := by
  have hnodup := nodup_wireNames_iff.1 hrepeated
  have hclosed := firstMissing_eq_none.1 hmissing
  refine ⟨fun n => tracks_of_invariant hnodup hclosed (m.invariant_queueAfter n),
    fun n => (m.invariant_queueAfter n).releasesSafely, ?_, fun i hi => ?_⟩
  · simp only [queueAfter_eq_run, finalQueue_eq_run, ← length_graph]
    exact Queue.exists_last_iteration m.simple_graph
  · rw [m.invariant_finalQueue.waiting_pos_iff m.ready_finalQueue (by rwa [length_graph]),
      finalQueue_eq_run]
    simp only [queueAfter_eq_run]
    exact ⟨fun hnew n hdone => hnew (Queue.done_run_subset m.simple_graph n hdone),
      fun hnever => hnever _⟩

/-- A module in which `q` and `r` come after each other and `s` after itself; `y` and `q` read `p`,
which is listed last. -/
def entangled : Module where
  name := "entangled"
  inputs := [⟨"a", 1⟩]
  wires :=
    [.ofExpr "y" 1 (.binary "|" (.signal "p") (.signal "a")),
      .ofExpr "q" 1 (.binary "&" (.signal "p") (.signal "r")), .ofExpr "r" 1 (.signal "q"),
      .ofExpr "s" 1 (.unary "~" (.signal "s")), .ofExpr "p" 1 (.signal "a")]
  outputs := ["y", "s"]

/-- After the first iteration `p` is done, `y` is ready and `q` waits for `r` alone. In that iteration
`q` is released second, when it waits for something and has not been ready. In the end `q`, `r` and
`s` wait, and they are never done. -/
theorem queue_tracks_wires_entangled :
    firstRepeated [] entangled.wireNames = none ∧ entangled.firstMissing = none ∧
    entangled.queueAfter 1 = ⟨[4], [0], [0, 1, 1, 1, 0]⟩ ∧
    entangled.Tracks ⟨[4], [0], [0, 1, 1, 1, 0]⟩ ∧
    (0 < ([0].foldl Queue.release (entangled.queueAfter 0).take).waiting.getD 1 0 ∧
      1 ∉ ([0].foldl Queue.release (entangled.queueAfter 0).take).lineup) ∧
    entangled.finalQueue = ⟨[4, 0], [], [0, 1, 1, 1, 0]⟩ ∧
    ∀ i ∈ [1, 2, 3], ∀ n, i ∉ (entangled.queueAfter n).done := by
  have hrepeated : firstRepeated [] entangled.wireNames = none := by decide
  have hmissing : entangled.firstMissing = none := by decide
  obtain ⟨htracks, hsafe, -, hnever⟩ := queue_tracks_wires entangled hrepeated hmissing
  refine ⟨hrepeated, hmissing, rfl, htracks 1, (hsafe 0 4 [] rfl).2 [0] 1 [] rfl, rfl, fun i hi => ?_⟩
  have hlt : i < 5 := by
    simp only [List.mem_cons, List.not_mem_nil, or_false] at hi
    omega
  refine (hnever i hlt).1 ?_
  revert i
  decide

end Netlist.Module
