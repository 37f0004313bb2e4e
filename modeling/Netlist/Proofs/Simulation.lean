/-
Simulation as solving equations.

A simulation binds one wire after the other, so each expression is read in an environment
that holds only a part of the signals. The equations of a module speak of one environment
for all wires: each wire has the value that its expression has in that environment, made to
fit (`Module.Solves`).

The two meet as follows. An environment only grows while wires of new names are bound, and
growth never changes a value that was found, so what a simulation returns solves the
equations, in whatever order the wires stand (`solves_of_simulate`). Conversely, if every
wire stands behind all signals that it reads, then any solution is what the simulation
returns (`simulate_of_solves`); so there is at most one.
-/
import Netlist.Module.Simulate
import Netlist.Proofs.Evaluation
import Netlist.Proofs.Signals

set_option autoImplicit false

namespace Netlist

/-! ## Equations -/

/-- The word that an input takes: what is given, made to fit, or zero. -/
def Input.word (given : Env) (i : Input) : Word :=
  match given.get? i.name with
  | some w => w.resize i.width
  | none => .zero i.width

/-- The equation of a wire: it has the value of its expression, made to fit. -/
def Wire.Holds (env : Env) (w : Wire) : Prop :=
  ∃ v, (w.definition.eval env).run.value = .ok v ∧ env.get? w.name = some (v.resize w.width)

namespace Module

/-- An environment that binds exactly the signals of the module and in which each input has
its given word and each wire has the value of its expression. -/
structure Solves (m : Module) (given env : Env) : Prop where
  mem_keys : ∀ name, name ∈ env.keys ↔ name ∈ m.inputNames ∨ name ∈ m.wireNames
  input : ∀ i ∈ m.inputs, env.get? i.name = some (i.word given)
  wire : ∀ w ∈ m.wires, w.Holds env

/-- Each wire of a row reads only names that are known, or names of wires before it. -/
def InOrder (known : List String) : List Wire → Prop
  | [] => True
  | w :: ws => (∀ name ∈ w.definition.signals.keys, name ∈ known) ∧ InOrder (w.name :: known) ws

/-! ## Binding the inputs -/

theorem value_inputValue (given : Env) (i : Input) : (inputValue given i).value = i.word given := by
  unfold inputValue Input.word
  cases given.get? i.name with
  | none => rfl
  | some w =>
    by_cases h : w.width = i.width
    · simp only [if_pos h, Logged.value_pure]
      rw [← h, Word.resize_width]
    · simp only [if_neg h, Logged.value_bind, Logged.value_pure]

theorem value_bindInputs (m : Module) (given : Env) :
    (m.bindInputs given).value = NameMap.empty.fill Input.name (Input.word given) m.inputs := by
  have hfold : ∀ (is : List Input) (env : Env),
      (is.foldlM (bindInput given) env).value = env.fill Input.name (Input.word given) is := by
    intro is
    induction is with
    | nil =>
      intro env
      rfl
    | cons i is ih =>
      intro env
      rw [List.foldlM_cons, Logged.value_bind, ih]
      show (env.insert i.name (inputValue given i).value).fill _ _ is = _
      rw [value_inputValue]
      rfl
  show (m.inputs.foldlM (bindInput given) NameMap.empty).value = _
  rw [hfold]

theorem mem_keys_bindInputs {m : Module} {given : Env} {name : String} :
    name ∈ (m.bindInputs given).value.keys ↔ name ∈ m.inputNames := by
  rw [value_bindInputs, NameMap.mem_keys_fill]
  simp [inputNames]

theorem get?_bindInputs {m : Module} (hnodup : m.inputNames.Nodup) (given : Env) {i : Input}
    (hi : i ∈ m.inputs) : (m.bindInputs given).value.get? i.name = some (i.word given) := by
  rw [value_bindInputs]
  exact NameMap.get?_fill_of_mem _ _ hnodup hi

/-- Binding the inputs does not look at the wires. -/
theorem bindInputs_congr {m n : Module} (h : n.inputs = m.inputs) (given : Env) :
    n.bindInputs given = m.bindInputs given := by
  have hinput : ∀ name, n.isInput name = m.isInput name := by
    intro name
    rw [isInput, input?, h, isInput, input?]
  rw [bindInputs, bindInputs, h]
  simp only [hinput]

/-! ## Binding one wire -/

theorem value_wireValue_eq_ok {env : Env} {w : Wire} {x : Word} :
    (wireValue env w).run.value = .ok x ↔
      ∃ v, (w.definition.eval env).run.value = .ok v ∧ x = v.resize w.width := by
  rw [wireValue_eq, Work.value_bind_eq_ok]
  refine exists_congr fun v => and_congr_right fun _ => ?_
  by_cases h : v.width = w.width
  · rw [if_pos h, ← h, Word.resize_width]
    exact ⟨fun heq => by cases heq; rfl, fun heq => by rw [heq]; rfl⟩
  · rw [if_neg h]
    exact ⟨fun heq => by cases heq; rfl, fun heq => by rw [heq]; rfl⟩

theorem value_wireValue_eq_error {env : Env} {w : Wire} {err : EvalError} :
    (wireValue env w).run.value = .error err ↔
      (w.definition.eval env).run.value = .error err := by
  rw [wireValue_eq, Work.value_bind_eq_error, or_iff_left]
  rintro ⟨v, -, h⟩
  split at h <;> cases h

theorem wireValue_congr {env env' : Env} {w : Wire}
    (h : w.definition.eval env = w.definition.eval env') : wireValue env w = wireValue env' w := by
  rw [wireValue_eq, wireValue_eq, h]

theorem value_bindWire_eq_ok {env env' : Env} {w : Wire} :
    (bindWire env w).run.value = .ok env' ↔
      ∃ x, (wireValue env w).run.value = .ok x ∧ env' = env.insert w.name x := by
  rw [bindWire_eq, Work.value_bind_eq_ok]
  refine exists_congr fun x => and_congr_right fun _ => ?_
  rw [Work.value_pure, Except.ok.injEq, eq_comm]

theorem log_bindWire (env : Env) (w : Wire) :
    (bindWire env w).run.log = (wireValue env w).run.log := by
  rw [bindWire_eq, Work.log_bind]
  cases (wireValue env w).run.value <;> exact List.append_nil _

/-! ## Binding a row of wires -/

/-- The wires of a row have names that differ from each other and from all that is bound. -/
def Fresh (env : Env) (ws : List Wire) : Prop :=
  (ws.map Wire.name).Nodup ∧ ∀ w ∈ ws, w.name ∉ env.keys

theorem Fresh.tail {env : Env} {w : Wire} {ws : List Wire} (h : Fresh env (w :: ws)) (x : Word) :
    Fresh (env.insert w.name x) ws := by
  obtain ⟨hnodup, hnew⟩ := h
  rw [List.map_cons, List.nodup_cons] at hnodup
  refine ⟨hnodup.2, fun v hv hmem => ?_⟩
  rcases NameMap.mem_keys_insert.1 hmem with heq | hmem
  · exact hnodup.1 (heq ▸ List.mem_map_of_mem hv)
  · exact hnew v (List.mem_cons_of_mem _ hv) hmem

section Run

variable {ws : List Wire} {env env' : Env} {known : List String}

/-- A row that succeeds binds its first wire, and the rest of the row behind that. -/
theorem bindWires_cons_eq_ok {w : Wire} :
    ((w :: ws).foldlM bindWire env).run.value = .ok env' ↔
      ∃ x, (wireValue env w).run.value = .ok x ∧
        (ws.foldlM bindWire (env.insert w.name x)).run.value = .ok env' := by
  rw [List.foldlM_cons, Work.value_bind_eq_ok]
  constructor
  · rintro ⟨mid, hmid, h⟩
    obtain ⟨x, hx, rfl⟩ := value_bindWire_eq_ok.1 hmid
    exact ⟨x, hx, h⟩
  · rintro ⟨x, hx, h⟩
    exact ⟨_, value_bindWire_eq_ok.2 ⟨x, hx, rfl⟩, h⟩

/-- What a row records: what its first wire does, and then what the rest does. -/
theorem log_bindWires_cons {w : Wire} {x : Word} (hx : (wireValue env w).run.value = .ok x) :
    ((w :: ws).foldlM bindWire env).run.log =
      (wireValue env w).run.log ++ (ws.foldlM bindWire (env.insert w.name x)).run.log := by
  rw [List.foldlM_cons, Work.log_bind, log_bindWire,
    value_bindWire_eq_ok.2 ⟨x, hx, rfl⟩]

theorem mem_keys_bindWires (h : (ws.foldlM bindWire env).run.value = .ok env') {name : String} :
    name ∈ env'.keys ↔ name ∈ env.keys ∨ name ∈ ws.map Wire.name := by
  induction ws generalizing env with
  | nil =>
    cases h
    simp
  | cons w ws ih =>
    obtain ⟨x, -, h⟩ := bindWires_cons_eq_ok.1 h
    rw [ih h, NameMap.mem_keys_insert, List.map_cons, List.mem_cons, or_assoc, or_left_comm]

/-- Binding wires of new names only adds to the environment. -/
theorem within_bindWires (hfresh : Fresh env ws)
    (h : (ws.foldlM bindWire env).run.value = .ok env') : env.Within env' := by
  induction ws generalizing env with
  | nil =>
    cases h
    exact .refl _
  | cons w ws ih =>
    obtain ⟨x, -, h⟩ := bindWires_cons_eq_ok.1 h
    exact (NameMap.within_insert (hfresh.2 w List.mem_cons_self) x).trans (ih (hfresh.tail x) h)

/-- What was found for the wire in front is what its equation asks for in the end, and what
was recorded then would be recorded in the end. -/
theorem holds_head {w : Wire} {x : Word} (hfresh : Fresh env (w :: ws))
    (hx : (wireValue env w).run.value = .ok x)
    (h : (ws.foldlM bindWire (env.insert w.name x)).run.value = .ok env') :
    w.Holds env' ∧ wireValue env' w = wireValue env w := by
  have hgrow : (env.insert w.name x).Within env' := within_bindWires (hfresh.tail x) h
  have hext : env.Within env' :=
    (NameMap.within_insert (hfresh.2 w List.mem_cons_self) x).trans hgrow
  obtain ⟨v, hv, rfl⟩ := value_wireValue_eq_ok.1 hx
  have heval : w.definition.eval env' = w.definition.eval env := Expr.eval_of_within hext hv
  refine ⟨⟨v, ?_, ?_⟩, wireValue_congr heval⟩
  · rw [heval, hv]
  · exact hgrow _ _ (NameMap.get?_insert_self env w.name _)

/-- What binding a row of new names returns satisfies the equations of the whole row. -/
theorem holds_bindWires (hfresh : Fresh env ws)
    (h : (ws.foldlM bindWire env).run.value = .ok env') : ∀ w ∈ ws, w.Holds env' := by
  induction ws generalizing env with
  | nil =>
    intro w hw
    cases hw
  | cons first rest ih =>
    obtain ⟨x, hx, hrest⟩ := bindWires_cons_eq_ok.1 h
    intro w hw
    rcases List.mem_cons.1 hw with rfl | hw
    · exact (holds_head hfresh hx hrest).1
    · exact ih (hfresh.tail x) hrest w hw

/-- What is recorded on the way is what the wires record in the final environment. -/
theorem log_bindWires (hfresh : Fresh env ws)
    (h : (ws.foldlM bindWire env).run.value = .ok env') :
    (ws.foldlM bindWire env).run.log = ws.flatMap fun w => (wireValue env' w).run.log := by
  induction ws generalizing env with
  | nil => rfl
  | cons w ws ih =>
    obtain ⟨x, hx, hrest⟩ := bindWires_cons_eq_ok.1 h
    rw [log_bindWires_cons hx, ih (hfresh.tail x) hrest, List.flatMap_cons,
      (holds_head hfresh hx hrest).2]

/-- In order, a row finds any solution of its equations that agrees with what is known. -/
theorem bindWires_of_holds {sol : Env} (hord : InOrder known ws)
    (hknown : ∀ name ∈ known, env.get? name = sol.get? name) (hsol : ∀ w ∈ ws, w.Holds sol) :
    ∃ env', (ws.foldlM bindWire env).run.value = .ok env' ∧
      ∀ name, name ∈ known ∨ name ∈ ws.map Wire.name → env'.get? name = sol.get? name := by
  induction ws generalizing env known with
  | nil => exact ⟨env, rfl, fun name hname => hknown name (by simpa using hname)⟩
  | cons w ws ih =>
    obtain ⟨hreads, hord⟩ := hord
    obtain ⟨v, hv, hget⟩ := hsol w List.mem_cons_self
    -- all that the wire reads is known, so its expression has its final value already
    have heval : w.definition.eval env = w.definition.eval sol :=
      Expr.eval_congr fun name hname => hknown name (hreads name hname)
    have hx : (wireValue env w).run.value = .ok (v.resize w.width) :=
      value_wireValue_eq_ok.2 ⟨v, by rw [heval, hv], rfl⟩
    have hnext : ∀ name ∈ w.name :: known,
        (env.insert w.name (v.resize w.width)).get? name = sol.get? name := by
      intro name hname
      rw [NameMap.get?_insert]
      split
      · next heq => rw [heq, hget]
      · next hne => exact hknown name ((List.mem_cons.1 hname).resolve_left hne)
    obtain ⟨env', henv', hagree⟩ := ih hord hnext fun w hw => hsol w (List.mem_cons_of_mem _ hw)
    refine ⟨env', bindWires_cons_eq_ok.2 ⟨_, hx, henv'⟩, fun name hname => hagree name ?_⟩
    rw [List.map_cons, List.mem_cons] at hname
    rw [List.mem_cons, or_assoc, or_left_comm]
    exact hname

/-- In order, a row fails only where the expression of a wire fails although all signals
that it reads are bound. -/
theorem error_of_bindWires {err : EvalError} (hord : InOrder known ws)
    (hknown : ∀ name ∈ known, name ∈ env.keys)
    (h : (ws.foldlM bindWire env).run.value = .error err) :
    ∃ w ∈ ws, ∃ env' : Env, (∀ name ∈ w.definition.signals.keys, name ∈ env'.keys) ∧
      (w.definition.eval env').run.value = .error err := by
  induction ws generalizing env known with
  | nil => cases h
  | cons w ws ih =>
    obtain ⟨hreads, hord⟩ := hord
    rw [List.foldlM_cons] at h
    -- either the wire in front fails, or the rest does behind it
    rcases Work.value_bind_eq_error.1 h with h | ⟨mid, hmid, h⟩
    · refine ⟨w, List.mem_cons_self, env, fun name hname => hknown name (hreads name hname), ?_⟩
      rw [bindWire_eq] at h
      rcases Work.value_bind_eq_error.1 h with h | ⟨x, -, h⟩
      · exact value_wireValue_eq_error.1 h
      · cases h
    · obtain ⟨x, -, rfl⟩ := value_bindWire_eq_ok.1 hmid
      have hnext : ∀ name ∈ w.name :: known, name ∈ (env.insert w.name x).keys := by
        intro name hname
        rw [NameMap.mem_keys_insert]
        exact (List.mem_cons.1 hname).imp_right (hknown name)
      obtain ⟨u, hu, hfound⟩ := ih hord hnext h
      exact ⟨u, List.mem_cons_of_mem _ hu, hfound⟩

end Run

/-! ## Whole simulations -/

section Simulate

variable {m : Module} {given env sol : Env}

/-- The wires of the module stand behind the wires that they read. -/
def Ordered (m : Module) : Prop :=
  InOrder m.inputNames m.wires

theorem value_simulate (m : Module) (given : Env) :
    (m.simulate given).run.value =
      (m.wires.foldlM bindWire (m.bindInputs given).value).run.value := by
  rw [simulate_eq, Work.value_bind, Work.value_lift]

theorem log_simulate (m : Module) (given : Env) :
    (m.simulate given).run.log = (m.bindInputs given).log ++
      (m.wires.foldlM bindWire (m.bindInputs given).value).run.log := by
  rw [simulate_eq, Work.log_bind, Work.value_lift, Work.log_lift]

theorem WellNamed.fresh (h : m.WellNamed) (given : Env) :
    Fresh (m.bindInputs given).value m.wires := by
  refine ⟨h.wires_nodup, fun w hw hmem => ?_⟩
  exact h.disjoint w.name (List.mem_map_of_mem hw) (mem_keys_bindInputs.1 hmem)

/-- A simulation that succeeds solves the equations of the module, in whatever order its
wires stand. -/
theorem solves_of_simulate (hm : m.WellNamed) (h : (m.simulate given).run.value = .ok env) :
    m.Solves given env := by
  rw [value_simulate] at h
  have hfresh : Fresh (m.bindInputs given).value m.wires := hm.fresh given
  refine ⟨fun name => ?_, fun i hi => ?_, holds_bindWires hfresh h⟩
  · rw [mem_keys_bindWires h, mem_keys_bindInputs, wireNames]
  · exact within_bindWires hfresh h _ _ (get?_bindInputs hm.inputs_nodup given hi)

/-- A simulation that succeeds records what the inputs do and then, wire by wire, what the
wires record in the environment that it returns. -/
theorem log_simulate_of_ok (hm : m.WellNamed) (h : (m.simulate given).run.value = .ok env) :
    (m.simulate given).run.log = (m.bindInputs given).log ++
      m.wires.flatMap fun w => (wireValue env w).run.log := by
  rw [value_simulate] at h
  rw [log_simulate, log_bindWires (hm.fresh given) h]

/-- With its wires in order, a module whose equations have a solution is simulated
successfully, and the solution is what comes out. -/
theorem simulate_of_solves (hinputs : m.inputNames.Nodup) (hord : m.Ordered)
    (hsol : m.Solves given sol) : (m.simulate given).run.value = .ok sol := by
  have hknown : ∀ name ∈ m.inputNames,
      (m.bindInputs given).value.get? name = sol.get? name := by
    intro name hname
    obtain ⟨i, hi, rfl⟩ := List.mem_map.1 hname
    rw [get?_bindInputs hinputs given hi, hsol.input i hi]
  obtain ⟨env', henv', hagree⟩ := bindWires_of_holds hord hknown hsol.wire
  rw [value_simulate, henv']
  refine congrArg Except.ok (NameMap.ext_get? fun name => ?_)
  have hkeys : name ∈ env'.keys ↔ name ∈ m.inputNames ∨ name ∈ m.wireNames := by
    rw [mem_keys_bindWires henv', mem_keys_bindInputs, wireNames]
  -- a name of the module is bound alike in both, any other name is bound in neither
  by_cases hname : name ∈ m.inputNames ∨ name ∈ m.wireNames
  · exact hagree name hname
  · rw [NameMap.get?_eq_none_iff.2 fun h => hname (hkeys.1 h),
      NameMap.get?_eq_none_iff.2 fun h => hname ((hsol.mem_keys name).1 h)]

/-- With its wires in order, a module fails only where the expression of a wire fails
although all signals that it reads are bound. -/
theorem error_of_simulate {err : EvalError} (hord : m.Ordered)
    (h : (m.simulate given).run.value = .error err) :
    ∃ w ∈ m.wires, ∃ env' : Env, (∀ name ∈ w.definition.signals.keys, name ∈ env'.keys) ∧
      (w.definition.eval env').run.value = .error err := by
  rw [value_simulate] at h
  exact error_of_bindWires hord (fun _ hname => mem_keys_bindInputs.2 hname) h

end Simulate

end Module

end Netlist
