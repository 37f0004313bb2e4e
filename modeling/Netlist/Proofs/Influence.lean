/-
What influences a signal.

The value of a wire is made of the signals that its expression reads, and of those that they are
made of in turn. Nothing else in a module has a say in it: inputs that this walk does not reach may
change, and wires that it does not reach may go. Both are one fact about rows of wires. Take a set
of names that contains, with a wire, all that the wire reads. If a row can be bound at all, then so
can its wires in the set, in any environment that says the same about the set, and both ways lead to
the same words there (`bindWires_filter`). The wires outside of the set change nothing inside.
-/
import Netlist.Proofs.Equations

set_option autoImplicit false

namespace Netlist

open Relation

namespace Env

variable {names : String → Prop} {env env' : Env}

/-- The environments bind the names of the set alike, or leave them unbound alike. -/
def AgreeWithin (names : String → Prop) (env env' : Env) : Prop :=
  ∀ name, names name → env.get? name = env'.get? name

/-- Binding a name to one word in both environments keeps their agreement. -/
theorem AgreeWithin.insert_both (h : AgreeWithin names env env') (name : String) (x : Word) :
    AgreeWithin names (env.insert name x) (env'.insert name x) := by
  intro other hother
  rw [NameMap.get?_insert, NameMap.get?_insert, h other hother]

/-- What is bound outside of the set does not touch the agreement. -/
theorem AgreeWithin.insert_left {name : String} (h : AgreeWithin names env env')
    (hname : ¬ names name) (x : Word) : AgreeWithin names (env.insert name x) env' := by
  intro other hother
  have hne : other ≠ name := fun heq => hname (heq ▸ hother)
  rw [NameMap.get?_insert, if_neg hne, h other hother]

end Env

namespace Module

/-- The expression of the wire `u` reads `v`. -/
def Mentions (m : Module) (u v : String) : Prop :=
  ∃ w ∈ m.wires, w.name = u ∧ v ∈ w.definition.signals.keys

/-- The module with only those wires whose names pass a test. -/
def restrict (m : Module) (keep : String → Bool) : Module :=
  { m with wires := m.wires.filter fun w => keep w.name }

/-! ## Rows of wires -/

section Rows

variable (names : String → Prop) (keep : String → Bool) {ws : List Wire} {env env' last : Env}

/-- The wires of a row that lie in a set of names can be bound without the others, as long as the
set contains all that they read. The induction is on the row. A wire of the set finds the same
word on both sides, because the environments agree on what it reads; any other wire is bound on
one side only, outside of the set. -/
theorem bindWires_filter (hkeep : ∀ w ∈ ws, keep w.name = true ↔ names w.name)
    (hreads : ∀ w ∈ ws, names w.name → ∀ name ∈ w.definition.signals.keys, names name)
    (hagree : Env.AgreeWithin names env env')
    (h : (ws.foldlM bindWire env).run.value = .ok last) :
    ∃ last', ((ws.filter fun w => keep w.name).foldlM bindWire env').run.value = .ok last' ∧
      Env.AgreeWithin names last last' := by
  induction ws generalizing env env' with
  | nil =>
    cases h
    exact ⟨env', rfl, hagree⟩
  | cons w ws ih =>
    obtain ⟨x, hx, hrest⟩ := bindWires_cons_eq_ok.1 h
    have hkeep' : ∀ v ∈ ws, keep v.name = true ↔ names v.name :=
      fun v hv => hkeep v (List.mem_cons_of_mem _ hv)
    have hreads' := fun v hv => hreads v (List.mem_cons_of_mem _ hv)
    by_cases hw : names w.name
    · have heval : w.definition.eval env = w.definition.eval env' :=
        Expr.eval_congr fun name hname => hagree name (hreads w List.mem_cons_self hw name hname)
      obtain ⟨last', hlast, hagree'⟩ := ih hkeep' hreads' (hagree.insert_both w.name x) hrest
      rw [wireValue_congr heval] at hx
      rw [List.filter_cons, if_pos ((hkeep w List.mem_cons_self).2 hw)]
      exact ⟨last', bindWires_cons_eq_ok.2 ⟨x, hx, hlast⟩, hagree'⟩
    · have hdrop : ¬ keep w.name = true := fun h => hw ((hkeep w List.mem_cons_self).1 h)
      rw [List.filter_cons, if_neg hdrop]
      exact ih hkeep' hreads' (hagree.insert_left hw x) hrest

end Rows

/-! ## Inputs that are not reached -/

section Simulate

variable {m n : Module} {names : String → Prop} {given given' env env' : Env}

/-- The inputs of the set have the same words, so that the environments of the inputs agree. -/
theorem agreeWithin_bindInputs (hnodup : m.inputNames.Nodup)
    (h : ∀ i ∈ m.inputs, names i.name → i.word given = i.word given') :
    Env.AgreeWithin names (m.bindInputs given).value (m.bindInputs given').value := by
  intro name hname
  by_cases hinput : name ∈ m.inputNames
  · obtain ⟨i, hi, rfl⟩ := List.mem_map.1 hinput
    rw [get?_bindInputs hnodup given hi, get?_bindInputs hnodup given' hi, h i hi hname]
  · have hnone : ∀ g : Env, (m.bindInputs g).value.get? name = none := fun g =>
      NameMap.get?_eq_none_iff.2 fun hmem => hinput (mem_keys_bindInputs.1 hmem)
    rw [hnone, hnone]

/-- Two runs over the same wires that start from inputs with the same words in the set end with
the same words in the set. Both agree with a run over the wires of the set alone. -/
theorem agreeWithin_of_simulate (hnodup : n.inputNames.Nodup)
    (hreads : ∀ w ∈ n.wires, names w.name → ∀ name ∈ w.definition.signals.keys, names name)
    (hinputs : ∀ i ∈ n.inputs, names i.name → i.word given = i.word given')
    (hrun : (n.simulate given).run.value = .ok env)
    (hrun' : (n.simulate given').run.value = .ok env') : Env.AgreeWithin names env env' := by
  classical
  rw [value_simulate] at hrun hrun'
  have hkeep : ∀ w ∈ n.wires, decide (names w.name) = true ↔ names w.name :=
    fun _ _ => decide_eq_true_iff
  have hself : Env.AgreeWithin names (n.bindInputs given').value (n.bindInputs given').value :=
    fun _ _ => rfl
  obtain ⟨last, hlast, hagree⟩ :=
    bindWires_filter names (fun name => decide (names name)) hkeep hreads
      (agreeWithin_bindInputs hnodup hinputs) hrun
  obtain ⟨last', hlast', hagree'⟩ :=
    bindWires_filter names (fun name => decide (names name)) hkeep hreads hself hrun'
  rw [hlast] at hlast'
  cases hlast'
  intro name hname
  rw [hagree name hname, hagree' name hname]

end Simulate

/-! ## Wires that are not reached -/

section Restrict

variable {m n : Module} {keep : String → Bool}

theorem mem_restrict {w : Wire} :
    w ∈ (m.restrict keep).wires ↔ w ∈ m.wires ∧ keep w.name = true :=
  List.mem_filter

theorem sublist_wireNames_restrict (m : Module) (keep : String → Bool) :
    (m.restrict keep).wireNames.Sublist m.wireNames :=
  List.filter_sublist.map _

theorem WellNamed.restrict (h : m.WellNamed) (keep : String → Bool) :
    (m.restrict keep).WellNamed where
  inputs_nodup := h.inputs_nodup
  wires_nodup := (m.sublist_wireNames_restrict keep).nodup h.wires_nodup
  disjoint name hname := h.disjoint name ((m.sublist_wireNames_restrict keep).subset hname)

theorem CoversReads.restrict (h : m.CoversReads) (keep : String → Bool) :
    (m.restrict keep).CoversReads :=
  fun w hw => h w (mem_restrict.1 hw).1

theorem SameSignals.restrict (h : n.SameSignals m) (keep : String → Bool) :
    (n.restrict keep).SameSignals (m.restrict keep) :=
  ⟨h.inputs, h.perm.filter _⟩

theorem reads_of_restrict {u v : String} (h : (m.restrict keep).Reads u v) : m.Reads u v := by
  obtain ⟨w, hw, hname, hdep, hinput⟩ := h
  exact ⟨w, (mem_restrict.1 hw).1, hname, hdep, hinput⟩

/-- A module that can be put into order still can when only wires go that no other wire comes
after. -/
theorem Schedulable.restrict (h : m.Schedulable)
    (hkeep : ∀ u v, m.Reads u v → keep u = true → keep v = true) :
    (m.restrict keep).Schedulable where
  nodup := (m.sublist_wireNames_restrict keep).nodup h.nodup
  closed := by
    rintro w hw name ⟨hdep, hinput, hmissing⟩
    obtain ⟨hw, hkept⟩ := mem_restrict.1 hw
    have hname : name ∈ m.wireNames :=
      h.closed.mem_wireNames hw (mem_needs.2 ⟨hdep, hinput⟩)
    obtain ⟨v, hv, rfl⟩ := List.mem_map.1 hname
    have hreads : m.Reads w.name v.name := ⟨w, hw, rfl, hdep, hinput⟩
    exact hmissing (List.mem_map_of_mem (mem_restrict.2 ⟨hv, hkeep _ _ hreads hkept⟩))
  acyclic := by
    rintro ⟨name, hcycle⟩
    have hle : (m.restrict keep).Reads ≤ m.Reads := fun _ _ => reads_of_restrict
    exact h.acyclic ⟨name, TransGen.mono hle _ _ hcycle⟩

/-- A run of the module is a run of the restricted module as well, with the same words for what is
kept, if the test keeps what the kept wires come after. -/
theorem simulate_restrict {given env : Env} (hnames : n.WellNamed) (hreads : n.CoversReads)
    (hkeep : ∀ u v, n.Reads u v → keep u = true → keep v = true)
    (hrun : (n.simulate given).run.value = .ok env) :
    ∃ env', ((n.restrict keep).simulate given).run.value = .ok env' ∧
      ∀ name, keep name = true → env'.get? name = env.get? name := by
  -- inputs belong to the set, whether the test passes their names or not
  have hset : ∀ w ∈ n.wires, keep w.name = true ↔ keep w.name = true ∨ w.name ∈ n.inputNames := by
    intro w hw
    rw [or_iff_left (hnames.disjoint w.name (List.mem_map_of_mem hw))]
  have hclosed : ∀ w ∈ n.wires, keep w.name = true ∨ w.name ∈ n.inputNames →
      ∀ name ∈ w.definition.signals.keys, keep name = true ∨ name ∈ n.inputNames := by
    intro w hw hkept name hname
    by_cases hinput : name ∈ n.inputNames
    · exact .inr hinput
    · have hdep : n.Reads w.name name := ⟨w, hw, rfl, hreads w hw name hname hinput, hinput⟩
      exact .inl (hkeep _ _ hdep ((hset w hw).2 hkept))
  rw [value_simulate] at hrun
  obtain ⟨env', henv', hagree⟩ := bindWires_filter
    (fun name => keep name = true ∨ name ∈ n.inputNames) keep hset hclosed (fun _ _ => rfl) hrun
  refine ⟨env', ?_, fun name hname => (hagree name (.inl hname)).symm⟩
  rw [value_simulate]
  exact henv'

end Restrict

/-! ## The cone of a signal -/

variable {m s : Module}

/-- A signal depends on nothing that a walk from it through the expressions of wires does not reach.
Two runs in which the inputs that it reaches have the same words give it the same word. And if only
the wires stay that a walk through dependencies reaches, then the module that is left has a
schedule, which runs whenever the whole module does and gives the signal the same word; the wires
that are left run in the order in which they were listed as well. -/
theorem cone_of_influence (hnames : m.WellNamed) (hreads : m.CoversReads)
    (hs : m.schedule = .ok s) (y : String) :
    (∀ n : Module, n.SameSignals m → ∀ given given' env env' : Env,
      (∀ i ∈ m.inputs, ReflTransGen m.Mentions y i.name → i.word given = i.word given') →
      (n.simulate given).run.value = .ok env → (n.simulate given').run.value = .ok env' →
      env.get? y = env'.get? y) ∧
    ∀ keep : String → Bool, (∀ name, keep name = true ↔ ReflTransGen m.Reads y name) →
      ∃ r, (m.restrict keep).schedule = .ok r ∧
        ∀ n : Module, n.SameSignals m → ∀ given env : Env, (n.simulate given).run.value = .ok env →
          ∃ env', (r.simulate given).run.value = .ok env' ∧
            ((n.restrict keep).simulate given).run.value = .ok env' ∧
            env'.get? y = env.get? y := by
  constructor
  · intro n hn given given' env env' hinputs hrun hrun'
    have hclosed : ∀ w ∈ n.wires, ReflTransGen m.Mentions y w.name →
        ∀ name ∈ w.definition.signals.keys, ReflTransGen m.Mentions y name :=
      fun w hw hreach name hname => hreach.tail ⟨w, hn.perm.mem_iff.1 hw, rfl, hname⟩
    have hwords : ∀ i ∈ n.inputs, ReflTransGen m.Mentions y i.name →
        i.word given = i.word given' := fun i hi => hinputs i (hn.inputs ▸ hi)
    have hnodup := (hn.wellNamed hnames).inputs_nodup
    exact agreeWithin_of_simulate hnodup hclosed hwords hrun hrun' y .refl
  · intro keep hkeep
    have hstep : ∀ u v, m.Reads u v → keep u = true → keep v = true :=
      fun u v huv hu => (hkeep v).2 (((hkeep u).1 hu).tail huv)
    obtain ⟨r, hr⟩ := exists_schedule_iff.2 ((of_schedule_eq_ok hs).1.restrict hstep)
    refine ⟨r, hr, fun n hn given env hrun => ?_⟩
    obtain ⟨env', hrun', hagree⟩ := simulate_restrict (hn.wellNamed hnames) (hn.coversReads hreads)
      (by rwa [hn.reads_eq]) hrun
    -- the run over what is left solves its equations, and the schedule finds every solution
    have hsame : (n.restrict keep).SameSignals (m.restrict keep) := hn.restrict keep
    have hsol : (m.restrict keep).Solves given env' :=
      hsame.symm.solves (solves_of_simulate (hsame.wellNamed (hnames.restrict keep)) hrun')
    have hsched := (simulate_eq_ok_iff (hnames.restrict keep) (hreads.restrict keep)
      (of_schedule_eq_ok hr).2).2 hsol
    exact ⟨env', hsched, hrun', hagree y ((hkeep y).2 .refl)⟩

/-- A module of two parts: `y` is made of `x` and that of `a`, and `z` is made of both inputs. -/
def forked : Module where
  name := "forked"
  inputs := [⟨"a", 4⟩, ⟨"b", 4⟩]
  wires :=
    [.ofExpr "z" 4 (.binary "/" (.signal "a") (.signal "b")),
      .ofExpr "y" 4 (.unary "~" (.signal "x")),
      .ofExpr "x" 4 (.signal "a")]
  outputs := ["y", "z"]

/-- The same module in the order of evaluation. -/
def forkedOrdered : Module :=
  { forked with wires :=
      [.ofExpr "z" 4 (.binary "/" (.signal "a") (.signal "b")),
        .ofExpr "x" 4 (.signal "a"),
        .ofExpr "y" 4 (.unary "~" (.signal "x"))] }

/-- The cone of `y` in it. -/
def forkedCone (name : String) : Bool :=
  name == "y" || name == "x"

theorem forkedCone_iff (name : String) :
    forkedCone name = true ↔ ReflTransGen forked.Reads "y" name := by
  have hclosed : ∀ w ∈ forked.wires, forkedCone w.name = true →
      ∀ name ∈ w.deps.keys, name ∉ forked.inputNames → forkedCone name = true := by
    decide
  constructor
  · intro h
    simp only [forkedCone, Bool.or_eq_true, beq_iff_eq] at h
    rcases h with rfl | rfl
    · exact .refl
    · exact .single ⟨_, List.mem_cons_of_mem _ List.mem_cons_self, rfl, by decide, by decide⟩
  · intro h
    induction h with
    | refl => rfl
    | tail _ hstep ih =>
      obtain ⟨w, hw, rfl, hdep, hinput⟩ := hstep
      exact hclosed w hw ih _ hdep hinput

/-- The expressions of its wires lead from `y` to `x` and to `a`, and never to `b`. -/
theorem forked_reaches {name : String} (h : ReflTransGen forked.Mentions "y" name) :
    forkedCone name = true ∨ name = "a" := by
  have hclosed : ∀ w ∈ forked.wires, forkedCone w.name = true ∨ w.name = "a" →
      ∀ name ∈ w.definition.signals.keys, forkedCone name = true ∨ name = "a" := by
    decide
  induction h with
  | refl => exact .inl rfl
  | tail _ hstep ih =>
    obtain ⟨w, hw, rfl, hname⟩ := hstep
    exact hclosed w hw ih _ hname

/-- Words for its inputs: `5` for `a`, and any for `b`. -/
def forkedInputs (b : Nat) : Env :=
  .ofList [("a", .ofNat 4 5), ("b", .ofNat 4 b)]

/-- The words that its signals have then. -/
def forkedValues (b z : Nat) : Env :=
  .ofList [("a", .ofNat 4 5), ("b", .ofNat 4 b), ("x", .ofNat 4 5), ("y", .ofNat 4 10),
    ("z", .ofNat 4 z)]

/-- Another word for `b` changes `z` and leaves `y` as it is, and `y` has the same word in a module
without `z`. -/
theorem cone_of_influence_forked :
    forked.WellNamed ∧ forked.CoversReads ∧ forked.schedule = .ok forkedOrdered ∧
    (∀ name, forkedCone name = true ↔ ReflTransGen forked.Reads "y" name) ∧
    (∀ i ∈ forked.inputs, ReflTransGen forked.Mentions "y" i.name →
      i.word (forkedInputs 1) = i.word (forkedInputs 2)) ∧
    (forkedOrdered.simulate (forkedInputs 1)).run.value = .ok (forkedValues 1 5) ∧
    (forkedOrdered.simulate (forkedInputs 2)).run.value = .ok (forkedValues 2 2) ∧
    (forkedValues 1 5).get? "y" = (forkedValues 2 2).get? "y" ∧
    ∃ env', ((forkedOrdered.restrict forkedCone).simulate (forkedInputs 1)).run.value = .ok env' ∧
      env'.get? "y" = (forkedValues 1 5).get? "y" := by
  have hnames : forked.WellNamed := ⟨by decide, by decide, by decide⟩
  have hreads : forked.CoversReads := by
    unfold CoversReads
    decide
  have hs : forked.schedule = .ok forkedOrdered := rfl
  have hwords : ∀ i ∈ forked.inputs, ReflTransGen forked.Mentions "y" i.name →
      i.word (forkedInputs 1) = i.word (forkedInputs 2) := by
    intro i hi hreach
    rcases List.mem_cons.1 hi with rfl | hi
    · rfl
    · rw [List.mem_singleton.1 hi] at hreach
      exact absurd (forked_reaches hreach) (by decide)
  have hrun : (forkedOrdered.simulate (forkedInputs 1)).run.value = .ok (forkedValues 1 5) := rfl
  have hrun' : (forkedOrdered.simulate (forkedInputs 2)).run.value = .ok (forkedValues 2 2) := rfl
  obtain ⟨hinputs, hwires⟩ := cone_of_influence hnames hreads hs "y"
  have hsame : forkedOrdered.SameSignals forked := (of_schedule_eq_ok hs).2.toSameSignals
  obtain ⟨r, -, hr⟩ := hwires forkedCone forkedCone_iff
  obtain ⟨env', -, hleft, hy⟩ := hr forkedOrdered hsame (forkedInputs 1) (forkedValues 1 5) hrun
  exact ⟨hnames, hreads, hs, forkedCone_iff, hwords, hrun, hrun',
    hinputs forkedOrdered hsame _ _ _ _ hwords hrun hrun', env', hleft, hy⟩

end Module

end Netlist
