/-
What a schedule is, and when there is none.

The wires of a module can be put into order exactly if their names differ, each of them
comes after wires of the module only, and no wire comes after itself, directly or not. The
three conditions are checked in that order. The first two checks point at the first wire at
fault. The third one is the queue at work: what it leaves undone waits for something else
that is left undone, and so reaches a cycle, and what it does reaches none.

Wires are known by their names in the statements and by their places in the queue;
`exists_source_of_reads` goes from the one to the other.
-/
import Netlist.Proofs.Queue
import Netlist.Proofs.Signals

set_option autoImplicit false

namespace Netlist.Module

/-! ## The first repeated name -/

theorem firstRepeated_eq_none {seen names : List String} :
    firstRepeated seen names = none ↔ names.Nodup ∧ ∀ name ∈ names, name ∉ seen := by
  induction names generalizing seen with
  | nil => simp [firstRepeated]
  | cons name rest ih =>
    rw [firstRepeated, List.nodup_cons, List.forall_mem_cons]
    by_cases h : name ∈ seen
    · simp [h]
    · rw [if_neg (by simpa using h), ih]
      simp only [List.mem_cons, not_or, h, not_false_eq_true, true_and]
      constructor
      · rintro ⟨hrest, hnew⟩
        exact ⟨⟨fun hmem => (hnew name hmem).1 rfl, hrest⟩, fun n hn => (hnew n hn).2⟩
      · rintro ⟨⟨hname, hrest⟩, hnew⟩
        exact ⟨hrest, fun n hn => ⟨fun heq => hname (heq ▸ hn), hnew n hn⟩⟩

/-- The first repeated name stands behind names that differ from each other, and is one of
them or has been seen before. -/
theorem firstRepeated_eq_some {seen names : List String} {name : String}
    (h : firstRepeated seen names = some name) :
    ∃ before after, names = before ++ name :: after ∧ before.Nodup ∧
      (∀ n ∈ before, n ∉ seen) ∧ (name ∈ seen ∨ name ∈ before) := by
  induction names generalizing seen with
  | nil => cases h
  | cons first rest ih =>
    rw [firstRepeated] at h
    by_cases hseen : first ∈ seen
    · rw [if_pos (by simpa using hseen)] at h
      cases h
      exact ⟨[], rest, rfl, List.nodup_nil, by simp, .inl hseen⟩
    · rw [if_neg (by simpa using hseen)] at h
      obtain ⟨before, after, rfl, hnodup, hnew, hname⟩ := ih h
      have hfirst : first ∉ before := fun hmem => hnew first hmem List.mem_cons_self
      refine ⟨first :: before, after, rfl, List.nodup_cons.2 ⟨hfirst, hnodup⟩, ?_, ?_⟩
      · intro n hn
        rcases List.mem_cons.1 hn with rfl | hn
        · exact hseen
        · exact fun hmem => hnew n hn (List.mem_cons_of_mem _ hmem)
      · rcases hname with hname | hname
        · exact (List.mem_cons.1 hname).elim (fun heq => .inr (heq ▸ List.mem_cons_self)) .inl
        · exact .inr (List.mem_cons_of_mem _ hname)

/-! ## The first missing name -/

section Missing

variable {m : Module} {w : Wire}

theorem any_wires_iff {name : String} :
    (m.wires.any fun v => v.name == name) = true ↔ name ∈ m.wireNames := by
  rw [wireNames, List.any_eq_true, List.mem_map]
  simp

theorem dangling_iff {name : String} :
    m.Dangling w name ↔
      name ∈ m.needs w ∧ (!m.wires.any fun v => v.name == name) = true := by
  rw [Dangling, mem_needs, and_assoc, ← any_wires_iff (m := m), Bool.not_eq_true',
    Bool.not_eq_true]

theorem find?_needs_eq_none :
    ((m.needs w).find? fun name => !m.wires.any fun v => v.name == name) = none ↔
      ∀ name, ¬ m.Dangling w name := by
  rw [List.find?_eq_none]
  refine forall_congr' fun name => ?_
  rw [dangling_iff, not_and]

/-- Names are looked at in their order, so the first dangling one is the least. -/
theorem find?_needs_eq_some {name : String}
    (h : ((m.needs w).find? fun name => !m.wires.any fun v => v.name == name) = some name) :
    m.Dangling w name ∧ ∀ other, m.Dangling w other → name ≤ other := by
  have hmem := List.mem_of_find?_eq_some h
  obtain ⟨hname, before, after, hsplit, hbefore⟩ := List.find?_eq_some_iff_append.1 h
  refine ⟨dangling_iff.2 ⟨hmem, hname⟩, fun other hother => ?_⟩
  obtain ⟨hneed, hmissing⟩ := dangling_iff.1 hother
  have hsorted : (before ++ name :: after).Pairwise (· < ·) :=
    hsplit ▸ w.deps.keys_sorted.filter _
  rw [hsplit] at hneed
  -- nothing before `name` dangles, and what stands behind it is greater
  rcases List.mem_append.1 hneed with hneed | hneed
  · have := hbefore other hneed
    simp only [hmissing] at this
    cases this
  rcases List.mem_cons.1 hneed with rfl | hneed
  · exact String.le_refl _
  · have hlt := (List.pairwise_cons.1 (List.pairwise_append.1 hsorted).2.1).1 other hneed
    exact String.not_lt.1 fun hgt => String.lt_irrefl _ (String.lt_trans hlt hgt)

theorem firstMissing_eq_none : m.firstMissing = none ↔ m.Closed := by
  rw [firstMissing, List.findSome?_eq_none_iff]
  refine forall₂_congr fun w _ => ?_
  rw [Option.map_eq_none_iff, find?_needs_eq_none]

/-- The first missing name is the least dangling name of the first wire that has one. -/
theorem firstMissing_eq_some {wire name : String} (h : m.firstMissing = some (wire, name)) :
    ∃ before w after, m.wires = before ++ w :: after ∧ w.name = wire ∧
      (∀ v ∈ before, ∀ other, ¬ m.Dangling v other) ∧ m.Dangling w name ∧
      ∀ other, m.Dangling w other → name ≤ other := by
  obtain ⟨before, w, after, hsplit, hw, hbefore⟩ := List.findSome?_eq_some_iff.1 h
  obtain ⟨found, hfound, heq⟩ := Option.map_eq_some_iff.1 hw
  cases heq
  refine ⟨before, w, after, hsplit, rfl, fun v hv => ?_, find?_needs_eq_some hfound⟩
  have := hbefore v hv
  rwa [Option.map_eq_none_iff, find?_needs_eq_none] at this

end Missing

/-! ## Names and places -/

section Places

variable {m : Module} {w : Wire} {i j : Nat} {u v : String}

/-- The name of the wire at a place. -/
def nameAt (m : Module) (i : Nat) : Option String :=
  m.wires[i]?.map Wire.name

/-- For each place the places of the wires that the wire there comes after. -/
def graph (m : Module) : List (List Nat) :=
  m.wires.map m.sources

@[simp] theorem length_graph (m : Module) : m.graph.length = m.wires.length :=
  List.length_map _

theorem nameAt_eq_some_iff :
    m.nameAt i = some u ↔ ∃ h : i < m.wires.length, m.wires[i].name = u := by
  rw [nameAt, Option.map_eq_some_iff]
  constructor
  · rintro ⟨w, hw, rfl⟩
    obtain ⟨h, rfl⟩ := List.getElem?_eq_some_iff.1 hw
    exact ⟨h, rfl⟩
  · rintro ⟨h, rfl⟩
    exact ⟨m.wires[i], List.getElem?_eq_getElem h, rfl⟩

theorem mem_wireNames_iff : u ∈ m.wireNames ↔ ∃ i, m.nameAt i = some u := by
  rw [wireNames, List.mem_map]
  constructor
  · rintro ⟨w, hw, rfl⟩
    obtain ⟨i, hi, rfl⟩ := List.mem_iff_getElem.1 hw
    exact ⟨i, nameAt_eq_some_iff.2 ⟨hi, rfl⟩⟩
  · rintro ⟨i, hi⟩
    obtain ⟨h, rfl⟩ := nameAt_eq_some_iff.1 hi
    exact ⟨m.wires[i], List.getElem_mem h, rfl⟩

theorem nameAt_inj (hnodup : m.wireNames.Nodup) (hi : m.nameAt i = some u)
    (hj : m.nameAt j = some u) : i = j := by
  obtain ⟨hilt, rfl⟩ := nameAt_eq_some_iff.1 hi
  obtain ⟨hjlt, heq⟩ := nameAt_eq_some_iff.1 hj
  have hlen : m.wireNames.length = m.wires.length := List.length_map _
  have hi : i < m.wireNames.length := hlen ▸ hilt
  have hj : j < m.wireNames.length := hlen ▸ hjlt
  have hnames : m.wireNames[i] = m.wireNames[j] := by
    simp only [wireNames, List.getElem_map, heq]
  exact hnodup.getElem_inj_iff.1 hnames

theorem sourcesOf_graph (h : i < m.wires.length) :
    Queue.sourcesOf m.graph i = m.sources m.wires[i] := by
  rw [Queue.sourcesOf_getElem (by rwa [length_graph])]
  exact List.getElem_map _

/-- A source is the place of a name that the wire comes after. -/
theorem nameAt_of_mem_sources (h : j ∈ m.sources w) :
    ∃ name ∈ m.needs w, m.nameAt j = some name := by
  obtain ⟨name, hname, hfind⟩ := List.mem_filterMap.1 h
  obtain ⟨hj, heq, -⟩ := List.findIdx?_eq_some_iff_getElem.1 hfind
  exact ⟨name, hname, nameAt_eq_some_iff.2 ⟨hj, by simpa using heq⟩⟩

/-- A name that the wire comes after has a source, if some wire has the name. -/
theorem exists_mem_sources {name : String} (hneed : name ∈ m.needs w)
    (hname : name ∈ m.wireNames) : ∃ j ∈ m.sources w, m.nameAt j = some name := by
  have hsome : (m.wires.findIdx? fun v => v.name == name).isSome = true := by
    rw [List.findIdx?_isSome]
    exact any_wires_iff.2 hname
  obtain ⟨j, hj⟩ := Option.isSome_iff_exists.1 hsome
  obtain ⟨hlt, heq, -⟩ := List.findIdx?_eq_some_iff_getElem.1 hj
  exact ⟨j, List.mem_filterMap.2 ⟨name, hneed, hj⟩,
    nameAt_eq_some_iff.2 ⟨hlt, by simpa using heq⟩⟩

/-- The wires at all places, from the first to the last, are all wires. -/
theorem filterMap_range_getElem? (ws : List Wire) :
    (List.range ws.length).filterMap (fun i => ws[i]?) = ws := by
  induction ws with
  | nil => rfl
  | cons w ws ih =>
    rw [List.length_cons, List.range_succ_eq_map, List.filterMap_cons, List.filterMap_map]
    exact congrArg (List.cons w) ih

/-- No wire has a source twice, because it comes after no name twice. -/
theorem sources_nodup (m : Module) (w : Wire) : (m.sources w).Nodup := by
  refine List.Nodup.filterMap ?_ (w.deps.keys_nodup.filter _)
  intro a b i ha hb
  obtain ⟨_, hia, -⟩ := List.findIdx?_eq_some_iff_getElem.1 ha
  obtain ⟨_, hib, -⟩ := List.findIdx?_eq_some_iff_getElem.1 hb
  rw [beq_iff_eq] at hia hib
  rw [← hia, ← hib]

theorem simple_graph (m : Module) : Queue.Simple m.graph := by
  intro i
  by_cases h : i < m.wires.length
  · rw [sourcesOf_graph h]
    exact m.sources_nodup _
  · have hnil : Queue.sourcesOf m.graph i = [] := by
      rw [Queue.sourcesOf, List.getD_eq_getElem?_getD, List.getElem?_eq_none]
      · rfl
      · rw [length_graph]
        omega
    rw [hnil]
    exact List.nodup_nil

/-- What a wire reads stands at one of its sources. -/
theorem exists_source_of_reads (hnodup : m.wireNames.Nodup) (hclosed : m.Closed)
    (hi : m.nameAt i = some u) (h : m.Reads u v) :
    ∃ j, j ∈ Queue.sourcesOf m.graph i ∧ m.nameAt j = some v := by
  obtain ⟨w, hw, rfl, hdep, hinput⟩ := h
  obtain ⟨k, hk, rfl⟩ := List.mem_iff_getElem.1 hw
  have heq : i = k := nameAt_inj hnodup hi (nameAt_eq_some_iff.2 ⟨hk, rfl⟩)
  have hneed : v ∈ m.needs m.wires[k] := mem_needs.2 ⟨hdep, hinput⟩
  rw [heq, sourcesOf_graph hk]
  exact exists_mem_sources hneed (hclosed.mem_wireNames hw hneed)

/-- What stands at a source of a wire is read by the wire. -/
theorem reads_of_source (hi : m.nameAt i = some u) (hj : j ∈ Queue.sourcesOf m.graph i) :
    ∃ v, m.nameAt j = some v ∧ m.Reads u v := by
  obtain ⟨hlt, rfl⟩ := nameAt_eq_some_iff.1 hi
  rw [sourcesOf_graph hlt] at hj
  obtain ⟨name, hneed, hname⟩ := nameAt_of_mem_sources hj
  exact ⟨name, hname, m.wires[i], List.getElem_mem hlt, rfl, mem_needs.1 hneed⟩

end Places

/-! ## What the queue does and what it leaves -/

section Outcome

variable {m : Module} {u : String}

theorem invariant_finalQueue (m : Module) : Queue.Invariant m.graph m.finalQueue :=
  (Queue.invariant_start m.graph).run m.simple_graph _

theorem ready_finalQueue (m : Module) : m.finalQueue.ready = [] := by
  have h := Queue.ready_run m.simple_graph
  rwa [length_graph] at h

/-- The names of the wires that the queue does, in the order in which it does them. -/
def doneNames (m : Module) : List String :=
  m.finalQueue.done.filterMap m.nameAt

/-- The names of the wires that the queue leaves waiting, in the order of the module. -/
def stuckNames (m : Module) : List String :=
  ((m.wires.zip m.finalQueue.waiting).filter fun (_, n) => decide (0 < n)).map fun (w, _) => w.name

theorem inOrderOf_doneNames (hnodup : m.wireNames.Nodup) (hclosed : m.Closed) :
    InOrderOf m.Reads m.doneNames :=
  m.invariant_finalQueue.ordered.filterMap fun _ _ _ => exists_source_of_reads hnodup hclosed

theorem stuckNames_sublist (m : Module) : m.stuckNames.Sublist m.wireNames := by
  have hlen : m.wires.length ≤ m.finalQueue.waiting.length := by
    rw [m.invariant_finalQueue.length_waiting, length_graph]
  have hmap : ((m.wires.zip m.finalQueue.waiting).map fun (w, _) => w.name) = m.wireNames := by
    have hfst := congrArg (List.map Wire.name) (List.map_fst_zip hlen)
    rwa [List.map_map] at hfst
  rw [← hmap]
  exact List.filter_sublist.map _

theorem mem_stuckNames_iff :
    u ∈ m.stuckNames ↔ ∃ i, m.nameAt i = some u ∧ i ∉ m.finalQueue.done := by
  have hinv := m.invariant_finalQueue
  have hlen : m.finalQueue.waiting.length = m.wires.length := by
    rw [hinv.length_waiting, length_graph]
  have hpos : ∀ i, i < m.wires.length →
      (0 < m.finalQueue.waiting.getD i 0 ↔ i ∉ m.finalQueue.done) :=
    fun i hi => hinv.waiting_pos_iff m.ready_finalQueue (by rwa [length_graph])
  rw [stuckNames, List.mem_map]
  constructor
  · rintro ⟨⟨w, n⟩, hmem, rfl⟩
    obtain ⟨hzip, hn⟩ := List.mem_filter.1 hmem
    -- a pair of the zip is a wire and the counter at the place of that wire
    obtain ⟨i, hi, heq⟩ := List.mem_iff_getElem.1 hzip
    rw [List.getElem_zip, Prod.mk.injEq] at heq
    rw [List.length_zip] at hi
    obtain ⟨rfl, rfl⟩ := heq
    refine ⟨i, nameAt_eq_some_iff.2 ⟨by omega, rfl⟩, (hpos i (by omega)).1 ?_⟩
    rw [List.getD_eq_getElem?_getD, List.getElem?_eq_getElem (by omega), Option.getD_some]
    simpa using hn
  · rintro ⟨i, hi, hnew⟩
    obtain ⟨hlt, rfl⟩ := nameAt_eq_some_iff.1 hi
    have hn := (hpos i hlt).2 hnew
    rw [List.getD_eq_getElem?_getD, List.getElem?_eq_getElem (by omega), Option.getD_some] at hn
    refine ⟨(m.wires[i], m.finalQueue.waiting[i]), List.mem_filter.2 ⟨?_, by simpa using hn⟩, rfl⟩
    refine List.mem_iff_getElem.2 ⟨i, ?_, List.getElem_zip⟩
    rw [List.length_zip]
    omega

/-- What is left waiting is exactly what reaches a cycle. -/
theorem mem_stuckNames_iff_reachesCycle (hnodup : m.wireNames.Nodup) (hclosed : m.Closed) :
    u ∈ m.stuckNames ↔ u ∈ m.wireNames ∧ ReachesCycle m.Reads u := by
  have hinv := m.invariant_finalQueue
  constructor
  · intro hu
    refine ⟨m.stuckNames_sublist.subset hu, reachesCycle_of_stuck (fun u hu => ?_) hu⟩
    obtain ⟨i, hi, hnew⟩ := mem_stuckNames_iff.1 hu
    have hlt : i < m.graph.length := by
      rw [length_graph]
      exact (nameAt_eq_some_iff.1 hi).1
    obtain ⟨j, hj, hjnew⟩ := hinv.exists_pending m.ready_finalQueue hlt hnew
    obtain ⟨v, hv, hreads⟩ := reads_of_source hi hj
    exact ⟨v, mem_stuckNames_iff.2 ⟨j, hv, hjnew⟩, hreads⟩
  · rintro ⟨hu, hcycle⟩
    obtain ⟨i, hi⟩ := mem_wireNames_iff.1 hu
    -- what is done stands in an ordered row, and nothing there reaches a cycle
    refine mem_stuckNames_iff.2 ⟨i, hi, fun hdone => ?_⟩
    exact (inOrderOf_doneNames hnodup hclosed).not_reachesCycle
      (List.mem_filterMap.2 ⟨i, hdone, hi⟩) hcycle

/-- Something is left exactly if some wire comes after itself. -/
theorem length_done_lt_iff_cyclic (hnodup : m.wireNames.Nodup) (hclosed : m.Closed) :
    m.finalQueue.done.length < m.wires.length ↔ m.Cyclic := by
  have hlt := m.invariant_finalQueue.length_done_lt_iff
  rw [length_graph] at hlt
  rw [hlt]
  constructor
  · rintro ⟨i, hi, hnew⟩
    have hstuck := mem_stuckNames_iff.2 ⟨i, nameAt_eq_some_iff.2 ⟨hi, rfl⟩, hnew⟩
    obtain ⟨-, c, -, hc⟩ := (mem_stuckNames_iff_reachesCycle hnodup hclosed).1 hstuck
    exact ⟨c, hc⟩
  · rintro ⟨c, hc⟩
    have hname : c ∈ m.wireNames := by
      obtain ⟨-, ⟨w, hw, rfl, -⟩, -⟩ := Relation.TransGen.head'_iff.1 hc
      exact List.mem_map_of_mem hw
    obtain ⟨i, hi, hnew⟩ := mem_stuckNames_iff.1
      ((mem_stuckNames_iff_reachesCycle hnodup hclosed).2 ⟨hname, c, .refl, hc⟩)
    exact ⟨i, (nameAt_eq_some_iff.1 hi).1, hnew⟩

end Outcome

/-! ## Schedules -/

section Result

variable {m s : Module}

/-- A module that says the same as another one, with its wires in order. -/
structure IsOrderingOf (s m : Module) : Prop extends SameSignals s m where
  ordered : InOrderOf m.Reads s.wireNames
  name : s.name = m.name
  outputs : s.outputs = m.outputs

theorem nodup_wireNames_iff : firstRepeated [] m.wireNames = none ↔ m.wireNames.Nodup := by
  rw [firstRepeated_eq_none]
  simp

theorem schedule_of_repeated (hdup : ¬ m.wireNames.Nodup) :
    ∃ before w after, m.wires = before ++ w :: after ∧ (before.map Wire.name).Nodup ∧
      w.name ∈ before.map Wire.name ∧ m.schedule = .error (.repeatedWire w.name) := by
  cases hfirst : firstRepeated [] m.wireNames with
  | none => exact absurd (nodup_wireNames_iff.1 hfirst) hdup
  | some name =>
    obtain ⟨before, after, hsplit, hnodup, -, hname⟩ := firstRepeated_eq_some hfirst
    -- the row of names splits at the name, so the row of wires splits at a wire of the name
    obtain ⟨ws, rest, hwires, rfl, hrest⟩ := List.map_eq_append_iff.1 hsplit
    obtain ⟨w, vs, rfl, rfl, -⟩ := List.map_eq_cons_iff.1 hrest
    refine ⟨ws, w, vs, hwires, hnodup, hname.resolve_left List.not_mem_nil, ?_⟩
    rw [schedule, hfirst]

theorem schedule_of_missing (hnodup : m.wireNames.Nodup) (hopen : ¬ m.Closed) :
    ∃ before w after name, m.wires = before ++ w :: after ∧
      (∀ v ∈ before, ∀ other, ¬ m.Dangling v other) ∧ m.Dangling w name ∧
      (∀ other, m.Dangling w other → name ≤ other) ∧
      m.schedule = .error (.missing w.name name) := by
  cases hmissing : m.firstMissing with
  | none => exact absurd (firstMissing_eq_none.1 hmissing) hopen
  | some pair =>
    obtain ⟨before, w, after, hsplit, hw, hbefore, hname, hleast⟩ := firstMissing_eq_some hmissing
    refine ⟨before, w, after, pair.2, hsplit, hbefore, hname, hleast, ?_⟩
    rw [schedule, nodup_wireNames_iff.2 hnodup, hmissing, hw]

theorem schedule_of_cyclic (hnodup : m.wireNames.Nodup) (hclosed : m.Closed)
    (hcyclic : m.Cyclic) : m.schedule = .error (.cycle m.stuckNames) := by
  rw [schedule, nodup_wireNames_iff.2 hnodup, firstMissing_eq_none.2 hclosed]
  show (if _ then _ else _) = _
  rw [if_pos ((length_done_lt_iff_cyclic hnodup hclosed).2 hcyclic)]
  rfl

theorem schedule_of_acyclic (hnodup : m.wireNames.Nodup) (hclosed : m.Closed)
    (hacyclic : ¬ m.Cyclic) : ∃ s, m.schedule = .ok s ∧ s.IsOrderingOf m := by
  have hlen : ¬ m.finalQueue.done.length < m.wires.length :=
    fun h => hacyclic ((length_done_lt_iff_cyclic hnodup hclosed).1 h)
  refine ⟨{ m with wires := m.finalQueue.done.filterMap fun i => m.wires[i]? }, ?_,
    ⟨rfl, ?_⟩, ?_, rfl, rfl⟩
  · rw [schedule, nodup_wireNames_iff.2 hnodup, firstMissing_eq_none.2 hclosed]
    show (if _ then _ else _) = _
    rw [if_neg hlen]
  · have hperm := m.invariant_finalQueue.done_perm (by rwa [length_graph])
    rw [length_graph] at hperm
    exact (hperm.filterMap _).trans (.of_eq (filterMap_range_getElem? m.wires))
  · show InOrderOf m.Reads ((m.finalQueue.done.filterMap fun i => m.wires[i]?).map Wire.name)
    rw [List.map_filterMap]
    exact inOrderOf_doneNames hnodup hclosed

/-- A module can be put into order exactly if its wires have different names, come after
signals of the module only, and never after themselves. -/
structure Schedulable (m : Module) : Prop where
  nodup : m.wireNames.Nodup
  closed : m.Closed
  acyclic : ¬ m.Cyclic

/-- What a schedule says about the module and about itself. -/
theorem of_schedule_eq_ok (h : m.schedule = .ok s) : m.Schedulable ∧ s.IsOrderingOf m := by
  by_cases hnodup : m.wireNames.Nodup
  swap
  · obtain ⟨_, _, _, -, -, -, herr⟩ := schedule_of_repeated hnodup
    rw [herr] at h
    cases h
  by_cases hclosed : m.Closed
  swap
  · obtain ⟨_, _, _, _, -, -, -, -, herr⟩ := schedule_of_missing hnodup hclosed
    rw [herr] at h
    cases h
  by_cases hcyclic : m.Cyclic
  · rw [schedule_of_cyclic hnodup hclosed hcyclic] at h
    cases h
  · obtain ⟨s', hs', hord⟩ := schedule_of_acyclic hnodup hclosed hcyclic
    rw [hs'] at h
    cases h
    exact ⟨⟨hnodup, hclosed, hcyclic⟩, hord⟩

/-- The order in which the wires stand does not decide whether there is a schedule. -/
theorem SameSignals.schedulable_iff (h : s.SameSignals m) : s.Schedulable ↔ m.Schedulable := by
  constructor
  · rintro ⟨hnodup, hclosed, hacyclic⟩
    exact ⟨h.perm_wireNames.nodup_iff.1 hnodup, h.closed_iff.1 hclosed,
      fun hc => hacyclic (h.cyclic_iff.2 hc)⟩
  · rintro ⟨hnodup, hclosed, hacyclic⟩
    exact ⟨h.perm_wireNames.nodup_iff.2 hnodup, h.closed_iff.2 hclosed,
      fun hc => hacyclic (h.cyclic_iff.1 hc)⟩

theorem exists_schedule_iff : (∃ s, m.schedule = .ok s) ↔ m.Schedulable := by
  constructor
  · rintro ⟨s, hs⟩
    exact (of_schedule_eq_ok hs).1
  · intro h
    obtain ⟨s, hs, -⟩ := schedule_of_acyclic h.nodup h.closed h.acyclic
    exact ⟨s, hs⟩

/-- What scheduling returns, for every module. Of the conditions that a schedule needs the
first one that fails decides the error: the first name that an earlier wire has; the least
dangling name of the first wire that has one; or, in the order of the module, the wires from
which a cycle can be reached. If none fails there is a schedule, and in it every wire stands
behind all wires that it reads. -/
theorem schedule_outcome (m : Module) :
    (¬ m.wireNames.Nodup →
      ∃ before w after, m.wires = before ++ w :: after ∧ (before.map Wire.name).Nodup ∧
        w.name ∈ before.map Wire.name ∧ m.schedule = .error (.repeatedWire w.name)) ∧
    (m.wireNames.Nodup → ¬ m.Closed →
      ∃ before w after name, m.wires = before ++ w :: after ∧
        (∀ v ∈ before, ∀ other, ¬ m.Dangling v other) ∧ m.Dangling w name ∧
        (∀ other, m.Dangling w other → name ≤ other) ∧
        m.schedule = .error (.missing w.name name)) ∧
    (m.wireNames.Nodup → m.Closed → m.Cyclic →
      ∃ names, names.Sublist m.wireNames ∧ names.Nodup ∧
        (∀ name, name ∈ names ↔ name ∈ m.wireNames ∧ ReachesCycle m.Reads name) ∧
        m.schedule = .error (.cycle names)) ∧
    (m.wireNames.Nodup → m.Closed → ¬ m.Cyclic →
      ∃ s, m.schedule = .ok s ∧ s.IsOrderingOf m) := by
  refine ⟨schedule_of_repeated, schedule_of_missing, ?_, schedule_of_acyclic⟩
  intro hnodup hclosed hcyclic
  exact ⟨m.stuckNames, m.stuckNames_sublist, m.stuckNames_sublist.nodup hnodup,
    fun _ => mem_stuckNames_iff_reachesCycle hnodup hclosed,
    schedule_of_cyclic hnodup hclosed hcyclic⟩

end Result

end Netlist.Module
