/-
The equations of a module and the simulation of its schedule.

In a schedule every wire stands behind all wires that it reads, so simulating it finds the
solution of the equations whenever there is one, and fails otherwise
(`simulate_eq_ok_iff`). Two things follow. What comes out is the only solution. And the
order in which a module lists its wires cannot matter: the equations are the same in any
order, so a run in any other order that succeeds has found the same solution.
-/
import Netlist.Proofs.Schedule
import Netlist.Proofs.Simulation

set_option autoImplicit false

namespace Netlist.Module

variable {m n s : Module} {given env : Env}

/-! ## Solutions of a schedule -/

theorem SameSignals.solves (h : n.SameSignals m) (hsol : m.Solves given env) :
    n.Solves given env := by
  refine ⟨fun name => ?_, fun i hi => hsol.input i (h.inputs ▸ hi),
    fun w hw => hsol.wire w (h.perm.mem_iff.1 hw)⟩
  rw [hsol.mem_keys, h.inputNames_eq, h.perm_wireNames.mem_iff]

/-- Wires are in order if each reads only what is known and what stands before it. -/
theorem inOrder_of_reads {known : List String} {ws : List Wire}
    (h : ∀ before w after, ws = before ++ w :: after → ∀ name ∈ w.definition.signals.keys,
      name ∈ known ∨ name ∈ before.map Wire.name) : InOrder known ws := by
  induction ws generalizing known with
  | nil => trivial
  | cons w ws ih =>
    refine ⟨fun name hname => ?_, ih fun before v after hsplit name hname => ?_⟩
    · exact (h [] w ws rfl name hname).resolve_right List.not_mem_nil
    · have hname := h (w :: before) v after (congrArg (List.cons w) hsplit) name hname
      rw [List.map_cons, List.mem_cons] at hname
      rwa [List.mem_cons, or_assoc, or_left_comm]

/-- A schedule is in order as soon as dependencies tell what is read. -/
theorem IsOrderingOf.inOrder (hs : s.IsOrderingOf m) (hreads : m.CoversReads) : s.Ordered := by
  refine inOrder_of_reads fun before w after hsplit name hname => ?_
  rw [hs.inputNames_eq]
  by_cases hinput : name ∈ m.inputNames
  · exact .inl hinput
  · have hw : w ∈ m.wires := hs.perm.mem_iff.1 (hsplit ▸ List.mem_append_right _ List.mem_cons_self)
    have hnames : s.wireNames = before.map Wire.name ++ w.name :: after.map Wire.name := by
      rw [wireNames, hsplit, List.map_append, List.map_cons]
    exact .inr (hs.ordered _ _ _ hnames name ⟨w, hw, rfl, hreads w hw name hname hinput, hinput⟩)

/-- The simulation of a schedule succeeds exactly with a solution of the equations. -/
theorem simulate_eq_ok_iff (hnames : m.WellNamed) (hreads : m.CoversReads)
    (hs : s.IsOrderingOf m) :
    (s.simulate given).run.value = .ok env ↔ m.Solves given env := by
  have hsnames : s.WellNamed := hs.wellNamed hnames
  constructor
  · intro h
    exact hs.symm.solves (solves_of_simulate hsnames h)
  · intro h
    exact simulate_of_solves hsnames.inputs_nodup (hs.inOrder hreads) (hs.solves h)

/-- The simulation of a schedule solves the equations of the module, and nothing else does:
its result binds exactly the inputs and the wires, each input at its given word made to fit
and each wire at the value of its expression in the result itself, made to fit. -/
theorem simulate_schedule_unique (hnames : m.WellNamed) (hreads : m.CoversReads)
    (hs : m.schedule = .ok s) (henv : (s.simulate given).run.value = .ok env) :
    m.Solves given env ∧ ∀ other, m.Solves given other → other = env := by
  obtain ⟨-, hord⟩ := of_schedule_eq_ok hs
  refine ⟨(simulate_eq_ok_iff hnames hreads hord).1 henv, fun other hother => ?_⟩
  have hsame := (simulate_eq_ok_iff hnames hreads hord).2 hother
  rw [henv] at hsame
  exact (Except.ok.inj hsame).symm

/-- A module that lists a wire before the one that it reads. -/
def selector : Module where
  name := "selector"
  inputs := [⟨"a", 4⟩, ⟨"c", 1⟩]
  wires :=
    [.ofExpr "y" 4 (.conditional (.signal "c") (.signal "a") (.signal "x")),
      .ofExpr "x" 4 (.unary "~" (.signal "a"))]
  outputs := ["y"]

/-- The same module with each wire behind those that it reads. -/
def orderedSelector : Module :=
  { selector with wires := selector.wires.reverse }

theorem wellNamed_selector : selector.WellNamed :=
  ⟨by decide, by decide, by decide⟩

theorem coversReads_selector : selector.CoversReads := by
  unfold CoversReads
  decide

/-- The values of its signals with `5` on a wider `a` and nothing on `c`. -/
theorem simulate_schedule_unique_selector :
    selector.WellNamed ∧ selector.CoversReads ∧ selector.schedule = .ok orderedSelector ∧
    (orderedSelector.simulate (.ofList [("a", .ofNat 8 5)])).run.value =
      .ok (.ofList [("a", .ofNat 4 5), ("c", .zero 1), ("x", .ofNat 4 10), ("y", .ofNat 4 10)]) ∧
    selector.Solves (.ofList [("a", .ofNat 8 5)])
      (.ofList [("a", .ofNat 4 5), ("c", .zero 1), ("x", .ofNat 4 10), ("y", .ofNat 4 10)]) ∧
    ∀ other, selector.Solves (.ofList [("a", .ofNat 8 5)]) other → other =
      .ofList [("a", .ofNat 4 5), ("c", .zero 1), ("x", .ofNat 4 10), ("y", .ofNat 4 10)] :=
  ⟨wellNamed_selector, coversReads_selector, rfl, rfl,
    simulate_schedule_unique wellNamed_selector coversReads_selector rfl rfl⟩

/-! ## The order of the wires -/

/-- Two runs over the same signals that succeed with the same result record the same
diagnostics, if not in the same order. -/
theorem SameSignals.log_perm (h : n.SameSignals m) (hm : m.WellNamed)
    (hn : (n.simulate given).run.value = .ok env) (hv : (m.simulate given).run.value = .ok env) :
    (n.simulate given).run.log.Perm (m.simulate given).run.log := by
  rw [log_simulate_of_ok (h.wellNamed hm) hn, log_simulate_of_ok hm hv,
    bindInputs_congr h.inputs]
  exact (h.perm.flatMap_right _).append_left _

/-- Scheduling never changes what a module computes, and the order in which its wires are
listed never matters: a schedule exists for all orders or for none; a run that succeeds in
any order at all gives what the schedule gives, with the same diagnostics up to their order;
and the schedules of any two orders give the same. -/
theorem simulate_schedule_of_perm (hnames : m.WellNamed) (hreads : m.CoversReads)
    (hperm : n.SameSignals m) :
    ((∃ s, m.schedule = .ok s) ↔ ∃ t, n.schedule = .ok t) ∧
    ∀ s, m.schedule = .ok s → ∀ given env,
      ((n.simulate given).run.value = .ok env →
        (s.simulate given).run.value = .ok env ∧
        (s.simulate given).run.log.Perm (n.simulate given).run.log) ∧
      ∀ t, n.schedule = .ok t →
        ((s.simulate given).run.value = .ok env ↔ (t.simulate given).run.value = .ok env) := by
  refine ⟨?_, fun s hs given env => ?_⟩
  · rw [exists_schedule_iff, exists_schedule_iff, hperm.schedulable_iff]
  obtain ⟨-, hord⟩ := of_schedule_eq_ok hs
  have hnnames : n.WellNamed := hperm.wellNamed hnames
  refine ⟨fun hrun => ?_, fun t ht => ?_⟩
  -- a run in any order solves the equations, and the schedule finds every solution
  · have hsol : m.Solves given env := hperm.symm.solves (solves_of_simulate hnnames hrun)
    have hsrun := (simulate_eq_ok_iff hnames hreads hord).2 hsol
    exact ⟨hsrun, (hord.toSameSignals.trans hperm.symm).log_perm hnnames hsrun hrun⟩
  · obtain ⟨-, htord⟩ := of_schedule_eq_ok ht
    rw [simulate_eq_ok_iff hnames hreads hord,
      simulate_eq_ok_iff hnnames (hperm.coversReads hreads) htord]
    exact ⟨hperm.solves, hperm.symm.solves⟩

/-- With `c` set the selector runs as it is listed, because the wire that it lists too late
is not read. The listing in order has a schedule, which gives the same. -/
theorem simulate_schedule_of_perm_selector :
    orderedSelector.WellNamed ∧ orderedSelector.CoversReads ∧
    selector.SameSignals orderedSelector ∧
    orderedSelector.schedule = .ok orderedSelector ∧
    (selector.simulate (.ofList [("a", .ofNat 4 5), ("c", .ofNat 1 1)])).run.value =
      .ok (.ofList [("a", .ofNat 4 5), ("c", .ofNat 1 1), ("x", .ofNat 4 10), ("y", .ofNat 4 5)]) ∧
    (orderedSelector.simulate (.ofList [("a", .ofNat 4 5), ("c", .ofNat 1 1)])).run.value =
      .ok (.ofList [("a", .ofNat 4 5), ("c", .ofNat 1 1), ("x", .ofNat 4 10), ("y", .ofNat 4 5)]) := by
  have hsame : selector.SameSignals orderedSelector :=
    ⟨rfl, (List.reverse_perm selector.wires).symm⟩
  have hnames : orderedSelector.WellNamed := hsame.symm.wellNamed wellNamed_selector
  have hreads : orderedSelector.CoversReads := hsame.symm.coversReads coversReads_selector
  have hruns := (simulate_schedule_of_perm hnames hreads hsame).2 orderedSelector rfl
  exact ⟨hnames, hreads, hsame, rfl, rfl, ((hruns _ _).1 rfl).1⟩

end Netlist.Module
