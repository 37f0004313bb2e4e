/-
Inputs carried from one run to the next.

Binding inputs makes each word fit its input, and so does carrying inputs over from an earlier run. The
two do the same (`value_bindInputs_eq_carryInputs`), with the difference that binding speaks of what
it has made to fit. Inputs that were carried fit already. So they are bound as they are and nothing is
recorded about them (`bindInputs_carryInputs`), and carrying them once more changes nothing.

Inputs keep their words during a run if no wire has the name of an input. Then the environment that comes
out of a run gives back the inputs that went in, made to fit, and a run from these is the same
run (`carryInputs_stable`). Wires may share names and may stand in any order.
-/
import Mathlib.Algebra.Group.Nat.Defs
import Netlist.Proofs.Simulation
import Netlist.Proofs.Warnings

set_option autoImplicit false

namespace Netlist

/-! ## What evaluation records -/

namespace Finding

/-- The finding is about a word that is bound to an input, or to a name that is no input. -/
def isAboutInput : Finding → Bool
  | resizedInput _ _ _ | unknownInput _ => true
  | _ => false

/-- The finding is about words that an operation or a selection was given. -/
def isAboutOperand : Finding → Bool
  | divisionByZero _ _ _ | sliceOutOfRange _ _ | partSelectOutOfRange _ _ _
  | selectOutOfRange _ _ _ => true
  | _ => false

theorem not_isAboutInput_of_isAboutOperand {f : Finding} (h : f.isAboutOperand = true) :
    f.isAboutInput = false := by
  cases f <;> simp [isAboutOperand, isAboutInput] at h ⊢

end Finding

/-- The diagnostic is not about a word that is bound to an input. -/
def Diagnostic.SparesInputs (d : Diagnostic) : Prop :=
  d.finding.isAboutInput = false

namespace Work

variable {ε α β : Type} {P : Diagnostic → Prop} {x : ExceptT ε Logged α}
  {f : α → ExceptT ε Logged β}

theorem records_bind (hx : x.run.Records P) (hf : ∀ a, (f a).run.Records P) :
    (x >>= f).run.Records P := by
  intro d hd
  rw [log_bind] at hd
  rcases List.mem_append.1 hd with hd | hd
  · exact hx d hd
  · split at hd
    · exact hf _ d hd
    · cases hd

theorem records_pure (a : α) : (pure a : ExceptT ε Logged α).run.Records P :=
  Logged.Records.pure _

theorem records_throw (e : ε) : (throw e : ExceptT ε Logged α).run.Records P :=
  Logged.Records.pure _

theorem records_lift {x : Logged α} (h : x.Records P) :
    (ExceptT.lift x : ExceptT ε Logged α).run.Records P := by
  rw [Logged.Records, log_lift]
  exact h

theorem records_foldlM {σ : Type} {f : σ → α → ExceptT ε Logged σ} {xs : List α}
    (h : ∀ s, ∀ x ∈ xs, (f s x).run.Records P) (s : σ) : (xs.foldlM f s).run.Records P := by
  induction xs generalizing s with
  | nil => exact records_pure s
  | cons x xs ih =>
    rw [List.foldlM_cons]
    exact records_bind (h s x List.mem_cons_self)
      (ih fun s y hy => h s y (List.mem_cons_of_mem _ hy))

end Work

namespace Evaluation

variable {α : Type} {P : Diagnostic → Prop}

/-- Work that may record a finding first records at most that. -/
theorem records_warn_if (p : Prop) [Decidable p] {finding : Finding} (a : α)
    (h : P ⟨.warning, none, finding⟩) :
    (do
      if p then warn finding
      return a : Evaluation α).run.Records P := by
  split
  · intro d hd
    rwa [List.mem_singleton.1 hd]
  · exact Work.records_pure a

end Evaluation

namespace Expr

variable {P : Diagnostic → Prop} (env : Env)

theorem records_evalAll {parts : List Expr} (h : ∀ e ∈ parts, (eval env e).run.Records P) :
    (evalAll env parts).run.Records P := by
  induction parts with
  | nil => exact Work.records_pure _
  | cons e es ih =>
    rw [evalAll]
    exact Work.records_bind (h e List.mem_cons_self) fun _ =>
      Work.records_bind (ih fun e he => h e (List.mem_cons_of_mem _ he)) fun _ =>
        Work.records_pure _

/-- Evaluation complains of operands and of nothing else. -/
theorem records_eval (hP : ∀ finding, finding.isAboutOperand = true → P ⟨.warning, none, finding⟩)
    (e : Expr) : (eval env e).run.Records P := by
  induction e using Expr.induction with
  | constant text =>
    rw [eval_constant]
    split
    · exact Work.records_pure _
    · exact Work.records_throw _
  | signal name =>
    rw [eval_signal]
    split
    · exact Work.records_pure _
    · exact Work.records_throw _
  | binary op left right ihl ihr =>
    rw [eval_binary]
    split
    · exact Work.records_bind ihl fun _ => Work.records_bind ihr fun _ =>
        Evaluation.records_warn_if _ _ (hP _ rfl)
    · exact Work.records_throw _
  | unary op operand ih =>
    rw [eval_unary]
    split
    · exact Work.records_bind ih fun _ => Work.records_pure _
    · exact Work.records_throw _
  | conditional condition yes no ihc ihy ihn =>
    rw [eval_conditional]
    refine Work.records_bind ihc fun _ => ?_
    split
    · exact ihn
    · exact ihy
  | concat parts ih =>
    rw [eval_concat]
    exact Work.records_bind (records_evalAll env ih) fun _ => Work.records_pure _
  | replicate body count ihb ihc =>
    rw [eval_replicate]
    refine Work.records_bind ihc fun _ => ?_
    split
    · exact Work.records_throw _
    · exact Work.records_throw _
    · exact Work.records_bind ihb fun _ => Work.records_pure _
  | slice body start stop ih =>
    rw [eval_slice]
    exact Work.records_bind ih fun _ => Evaluation.records_warn_if _ _ (hP _ rfl)
  | partSelect body base width ihe ihb =>
    rw [eval_partSelect]
    exact Work.records_bind ihe fun _ => Work.records_bind ihb fun _ =>
      Evaluation.records_warn_if _ _ (hP _ rfl)
  | select body index ihe ihi =>
    rw [eval_select]
    exact Work.records_bind ihe fun _ => Work.records_bind ihi fun _ =>
      Evaluation.records_warn_if _ _ (hP _ rfl)

end Expr

/-! ## Words made to fit twice -/

namespace Input

variable {given env : Env} {i : Input}

theorem width_word (given : Env) (i : Input) : (i.word given).width = i.width := by
  unfold word
  split <;> rfl

/-- The number of an input is what was bound to its name, reduced, and zero if nothing was. -/
theorem bits_word (given : Env) (i : Input) :
    (i.word given).bits = ((given.get? i.name).elim 0 Word.bits) % 2 ^ i.width := by
  unfold word
  cases given.get? i.name with
  | none => exact (Nat.zero_mod _).symm
  | some w => rw [Word.bits_resize, modulus, Nat.one_shiftLeft, Option.elim_some]

theorem resize_word (given : Env) (i : Input) : (i.word given).resize i.width = i.word given := by
  rw [← width_word given i, Word.resize_width]

/-- An environment that binds an input to its word gives it that word again. -/
theorem word_of_get?_eq (h : env.get? i.name = some (i.word given)) :
    i.word env = i.word given := by
  rw [word, h]
  exact resize_word given i

end Input

namespace Module

variable {m : Module} {given previous env env' : Env}

/-! ## Carrying as binding -/

/-- An environment of the inputs alone, with the numbers of an earlier run at the widths of the
module and with zero for what had none. -/
structure CarriesOver (m : Module) (previous carried : Env) : Prop where
  mem_keys : ∀ name, name ∈ carried.keys ↔ name ∈ m.inputNames
  word : ∀ i ∈ m.inputs, ∃ w, carried.get? i.name = some w ∧ w.width = i.width ∧
    w.bits = ((previous.get? i.name).elim 0 Word.bits) % 2 ^ i.width

/-- Binding inputs and carrying them make words fit in the same way. -/
theorem value_bindInputs_eq_carryInputs (m : Module) (given : Env) :
    (m.bindInputs given).value = m.carryInputs given :=
  value_bindInputs m given

theorem mem_keys_carryInputs {name : String} :
    name ∈ (m.carryInputs previous).keys ↔ name ∈ m.inputNames := by
  rw [← value_bindInputs_eq_carryInputs, mem_keys_bindInputs]

theorem get?_carryInputs (hnodup : m.inputNames.Nodup) (previous : Env) {i : Input}
    (hi : i ∈ m.inputs) : (m.carryInputs previous).get? i.name = some (i.word previous) := by
  rw [← value_bindInputs_eq_carryInputs, get?_bindInputs hnodup previous hi]

theorem carriesOver_carryInputs (hnodup : m.inputNames.Nodup) (previous : Env) :
    m.CarriesOver previous (m.carryInputs previous) where
  mem_keys _ := mem_keys_carryInputs
  word i hi := ⟨i.word previous, get?_carryInputs hnodup previous hi, i.width_word previous,
    i.bits_word previous⟩

/-- Only the words of the inputs are carried. -/
theorem carryInputs_congr (h : ∀ i ∈ m.inputs, i.word env = i.word given) :
    m.carryInputs env = m.carryInputs given := by
  have hfold : ∀ (is : List Input), (∀ i ∈ is, i.word env = i.word given) → ∀ start : Env,
      start.fill Input.name (Input.word env) is = start.fill Input.name (Input.word given) is := by
    intro is
    induction is with
    | nil =>
      intro _ _
      rfl
    | cons i is ih =>
      intro hwords start
      rw [NameMap.fill, NameMap.fill, List.foldl_cons, List.foldl_cons,
        hwords i List.mem_cons_self]
      exact ih (fun j hj => hwords j (List.mem_cons_of_mem _ hj)) _
  exact hfold m.inputs h NameMap.empty

/-! ## Binding what was carried -/

/-- A word is reported if it has another width than its input. -/
theorem log_inputValue {i : Input} {w : Word} (h : given.get? i.name = some w) :
    (inputValue given i).log =
      if w.width = i.width then [] else [⟨.warning, none, .resizedInput i.name w i.width⟩] := by
  rw [inputValue, h]
  by_cases hfit : w.width = i.width
  · simp only [if_pos hfit, Logged.log_pure]
  · simp only [if_neg hfit, Logged.log_bind, Logged.log_warn, Logged.log_pure, List.append_nil]

theorem log_inputValue_of_none {i : Input} (h : given.get? i.name = none) :
    (inputValue given i).log = [] := by
  rw [inputValue, h, Logged.log_pure]

theorem eq_resizedInput_of_mem {i : Input} {d : Diagnostic} (hd : d ∈ (inputValue given i).log) :
    ∃ v, d = ⟨.warning, none, .resizedInput i.name v i.width⟩ := by
  cases hget : given.get? i.name with
  | none =>
    rw [log_inputValue_of_none hget] at hd
    cases hd
  | some v =>
    rw [log_inputValue hget] at hd
    split at hd
    · cases hd
    · exact ⟨v, List.mem_singleton.1 hd⟩

theorem eq_unknownInput_of_mem {name : String} {d : Diagnostic}
    (hd : d ∈ if m.isInput name then [] else [⟨.warning, none, .unknownInput name⟩]) :
    d = ⟨.warning, none, .unknownInput name⟩ := by
  split at hd
  · cases hd
  · exact List.mem_singleton.1 hd

/-- Binding the inputs speaks of those that are made to fit, in their order, and then of the names that are
no inputs. -/
theorem log_bindInputs (m : Module) (given : Env) :
    (m.bindInputs given).log = (m.inputs.flatMap fun i => (inputValue given i).log) ++
      given.keys.flatMap fun name =>
        if m.isInput name then [] else [⟨.warning, none, .unknownInput name⟩] := by
  have hinputs : ∀ (is : List Input) (env : Env), (is.foldlM (bindInput given) env).log =
      is.flatMap fun i => (inputValue given i).log := by
    intro is
    induction is with
    | nil => exact fun _ => rfl
    | cons i is ih =>
      intro env
      rw [List.foldlM_cons, Logged.log_bind, ih, List.flatMap_cons, bindInput, Logged.log_bind,
        Logged.log_pure, List.append_nil]
  have hname : ∀ name, (if m.isInput name then pure () else
      Logged.warn none (.unknownInput name) : Logged Unit).log =
        if m.isInput name then [] else [⟨.warning, none, .unknownInput name⟩] := by
    intro name
    split <;> rfl
  rw [bindInputs, Logged.log_bind, Logged.log_bind, hinputs, Logged.log_forM, Logged.log_pure,
    List.append_nil, funext hname]

theorem carryInputs_carryInputs (hnodup : m.inputNames.Nodup) (previous : Env) :
    m.carryInputs (m.carryInputs previous) = m.carryInputs previous :=
  carryInputs_congr fun _ hi => Input.word_of_get?_eq (get?_carryInputs hnodup previous hi)

/-- Inputs that were carried are bound as they are, and nothing is recorded about them. -/
theorem bindInputs_carryInputs (hnodup : m.inputNames.Nodup) (previous : Env) :
    m.bindInputs (m.carryInputs previous) = pure (m.carryInputs previous) := by
  refine Logged.ext ?_ ?_
  · rw [value_bindInputs_eq_carryInputs, carryInputs_carryInputs hnodup]
    rfl
  · have hinputs : (m.inputs.flatMap fun i => (inputValue (m.carryInputs previous) i).log) = [] :=
      List.flatMap_eq_nil_iff.2 fun i hi =>
        (log_inputValue (get?_carryInputs hnodup previous hi)).trans (if_pos (i.width_word previous))
    have hnames : ((m.carryInputs previous).keys.flatMap fun name =>
        if m.isInput name then [] else [(⟨.warning, none, .unknownInput name⟩ : Diagnostic)]) = [] :=
      List.flatMap_eq_nil_iff.2 fun name hname => if_pos (isInput_iff.2 (mem_keys_carryInputs.1 hname))
    rw [log_bindInputs, hinputs, hnames]
    rfl

/-! ## Inputs during a run -/

/-- A run of wires leaves the names alone that no wire of it has. -/
theorem get?_bindWires_of_notMem {ws : List Wire} {name : String}
    (hname : name ∉ ws.map Wire.name) (h : (ws.foldlM bindWire env).run.value = .ok env') :
    env'.get? name = env.get? name := by
  induction ws generalizing env with
  | nil =>
    cases h
    rfl
  | cons w ws ih =>
    rw [List.map_cons, List.mem_cons, not_or] at hname
    obtain ⟨x, -, hrest⟩ := bindWires_cons_eq_ok.1 h
    rw [ih hname.2 hrest, NameMap.get?_insert, if_neg hname.1]

/-- No wire has the name of an input, and no two inputs share one. -/
structure InputsApart (m : Module) : Prop where
  nodup : m.inputNames.Nodup
  disjoint : ∀ name ∈ m.inputNames, name ∉ m.wireNames

/-- What comes out of a run says about the inputs what was carried into it. -/
theorem InputsApart.get?_of_simulate (hm : m.InputsApart)
    (h : (m.simulate given).run.value = .ok env) {name : String} (hname : name ∈ m.inputNames) :
    env.get? name = (m.carryInputs given).get? name := by
  rw [value_simulate] at h
  rw [get?_bindWires_of_notMem (hm.disjoint name hname) h, value_bindInputs_eq_carryInputs]

/-- So the inputs that it gives back are those that went in, made to fit. -/
theorem InputsApart.carryInputs_of_simulate (hm : m.InputsApart)
    (h : (m.simulate given).run.value = .ok env) : m.carryInputs env = m.carryInputs given := by
  refine carryInputs_congr fun i hi => Input.word_of_get?_eq ?_
  rw [hm.get?_of_simulate h (List.mem_map_of_mem hi), get?_carryInputs hm.nodup given hi]

/-! ## Running again -/

theorem records_bindWires (ws : List Wire) (env : Env) :
    (ws.foldlM bindWire env).run.Records Diagnostic.SparesInputs := by
  have heval : ∀ (env : Env) (e : Expr), (e.eval env).run.Records Diagnostic.SparesInputs :=
    fun env => Expr.records_eval env fun _ => Finding.not_isAboutInput_of_isAboutOperand
  refine Work.records_foldlM (fun env w _ => ?_) env
  refine Work.records_bind (Work.records_bind (heval env w.definition) fun v => ?_)
    fun _ => Work.records_pure _
  split
  · exact Work.records_pure _
  · exact Work.records_bind (Work.records_lift (Logged.records_warn rfl)) fun _ =>
      Work.records_pure _

/-- A run from inputs that were carried is a run of the wires alone. -/
theorem simulate_carryInputs (hnodup : m.inputNames.Nodup) (previous : Env) :
    m.simulate (m.carryInputs previous) = m.wires.foldlM bindWire (m.carryInputs previous) := by
  rw [simulate_eq, bindInputs_carryInputs hnodup]
  rfl

/-- It has the result of a run from the words that were carried. -/
theorem value_simulate_carryInputs (hnodup : m.inputNames.Nodup) (given : Env) :
    (m.simulate (m.carryInputs given)).run.value = (m.simulate given).run.value := by
  rw [simulate_carryInputs hnodup, value_simulate, value_bindInputs_eq_carryInputs]

/-- Inputs that were carried from any environment fit the module, whatever the widths were there, and
nothing is recorded about them in a run. What comes out of a run gives them back, so that
running again from it changes neither the result nor what is recorded. Run from any other inputs, the
module gives back what a second run turns into the same result. -/
theorem carryInputs_stable (hm : m.InputsApart) (previous : Env) :
    m.CarriesOver previous (m.carryInputs previous) ∧
    (∀ d ∈ (m.simulate (m.carryInputs previous)).run.log, d.finding.isAboutInput = false) ∧
    (∀ env, (m.simulate (m.carryInputs previous)).run.value = .ok env →
      (∀ name ∈ m.inputNames, env.get? name = (m.carryInputs previous).get? name) ∧
      m.carryInputs env = m.carryInputs previous ∧
      (m.simulate (m.carryInputs env)).run =
        ⟨.ok env, (m.simulate (m.carryInputs previous)).run.log⟩) ∧
    ∀ given env, (m.simulate given).run.value = .ok env →
      (m.simulate (m.carryInputs env)).run.value = .ok env := by
  -- what is carried fits, so it may be carried as often as one likes
  have hcarry := carryInputs_carryInputs hm.nodup previous
  refine ⟨carriesOver_carryInputs hm.nodup previous, ?_, fun env henv => ?_, fun given env henv => ?_⟩
  · rw [simulate_carryInputs hm.nodup]
    exact records_bindWires m.wires _
  · have hback : m.carryInputs env = m.carryInputs previous := by
      rw [hm.carryInputs_of_simulate henv, hcarry]
    refine ⟨fun name hname => ?_, hback, ?_⟩
    · rw [hm.get?_of_simulate henv hname, hcarry]
    · rw [hback]
      exact Logged.ext henv rfl
  · rw [hm.carryInputs_of_simulate henv, value_simulate_carryInputs hm.nodup, henv]

/-- A module that takes less of its first input than an earlier one had, and has one more. -/
def narrowed : Module where
  name := "narrowed"
  inputs := [⟨"a", 4⟩, ⟨"b", 1⟩]
  wires := [.ofExpr "y" 8 (.signal "a")]
  outputs := ["y"]

theorem inputsApart_narrowed : narrowed.InputsApart :=
  ⟨by decide, by decide⟩

/-- Seven is what is left of `a7` at four bits, with what is recorded about the wider wire alone, in
the first run and in the second. -/
theorem carryInputs_stable_narrowed :
    narrowed.InputsApart ∧
    narrowed.carryInputs (.ofList [("a", .ofNat 8 0xa7), ("z", .ofNat 1 1)]) =
      .ofList [("a", .ofNat 4 7), ("b", .zero 1)] ∧
    (narrowed.simulate (.ofList [("a", .ofNat 4 7), ("b", .zero 1)])).run =
      ⟨.ok (.ofList [("a", .ofNat 4 7), ("b", .zero 1), ("y", .ofNat 8 7)]),
        [⟨.warning, none, .resizedWire "y" 8 (.ofNat 4 7)⟩]⟩ ∧
    (narrowed.simulate (narrowed.carryInputs
        (.ofList [("a", .ofNat 4 7), ("b", .zero 1), ("y", .ofNat 8 7)]))).run =
      ⟨.ok (.ofList [("a", .ofNat 4 7), ("b", .zero 1), ("y", .ofNat 8 7)]),
        [⟨.warning, none, .resizedWire "y" 8 (.ofNat 4 7)⟩]⟩ := by
  have hcarried : narrowed.carryInputs (.ofList [("a", .ofNat 8 0xa7), ("z", .ofNat 1 1)]) =
      .ofList [("a", .ofNat 4 7), ("b", .zero 1)] := rfl
  have hrun : (narrowed.simulate (.ofList [("a", .ofNat 4 7), ("b", .zero 1)])).run =
      ⟨.ok (.ofList [("a", .ofNat 4 7), ("b", .zero 1), ("y", .ofNat 8 7)]),
        [⟨.warning, none, .resizedWire "y" 8 (.ofNat 4 7)⟩]⟩ := rfl
  refine ⟨inputsApart_narrowed, hcarried, hrun, ?_⟩
  obtain ⟨-, -, hagain, -⟩ := carryInputs_stable inputsApart_narrowed
    (.ofList [("a", .ofNat 8 0xa7), ("z", .ofNat 1 1)])
  rw [hcarried, hrun] at hagain
  exact (hagain _ rfl).2.2

end Module

end Netlist
