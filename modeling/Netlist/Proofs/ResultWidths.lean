/-
Widths of results do not depend on values.

The values of signals decide about the width of a result in two places only: a conditional takes one of
two arms, and a replication counts its copies. In an expression where no arm is chosen and no signal is
asked for a count (`Expr.HasFixedWidth`), every operator passes widths on without a look at a number. So
two environments that give the signals the same widths give results of the same width
(`Expr.width_eval_eq`).

A wire is made to fit before it is read, so that such environments stay alike from wire to wire, whatever
the values are. In a module of such expressions a wire is therefore made to fit in every run that
succeeds or in none, and what is recorded about it differs in a number at most
(`Module.widths_ignore_values`).
-/
import Netlist.Proofs.CarriedInputs
import Netlist.Proofs.Replication
import Netlist.Proofs.UnaryOperators

set_option autoImplicit false

namespace Netlist

/-- The widths that an environment gives to signals. -/
def Env.widths (env : Env) : NameMap Nat :=
  env.map Word.width

theorem Env.widths_insert (env : Env) (name : String) (w : Word) :
    Env.widths (env.insert name w) = (Env.widths env).insert name w.width :=
  NameMap.map_insert Word.width env name w

theorem UnaryOperator.width_apply (op : UnaryOperator) (a : Word) :
    (op.apply a).width = if op.decides then 1 else a.width :=
  (op.yields_apply a).width

namespace Expr

variable {env env' : Env} {e : Expr} {v v' : Word}

/-! ## What stands behind a value -/

theorem value_constant_eq_ok {text : String} :
    (eval env (constant text)).run.value = .ok v ↔ Literal.read text = .ok v := by
  rw [eval_constant]
  cases Literal.read text with
  | ok w => simp
  | error err => simp

theorem value_signal_eq_ok {name : String} :
    (eval env (signal name)).run.value = .ok v ↔ env.get? name = some v := by
  rw [eval_signal]
  cases env.get? name with
  | some w => simp
  | none => simp

theorem value_binary_eq_ok {op : String} {left right : Expr} :
    (eval env (binary op left right)).run.value = .ok v ↔
      ∃ known a b, BinaryOperator.ofText? op = some known ∧ (eval env left).run.value = .ok a ∧
        (eval env right).run.value = .ok b ∧ known.apply a b = v := by
  rw [eval_binary]
  cases BinaryOperator.ofText? op with
  | none => simp
  | some known =>
    simp only [Work.value_bind_eq_ok, value_evalBinary]
    simp

theorem value_unary_eq_ok {op : String} {operand : Expr} :
    (eval env (unary op operand)).run.value = .ok v ↔
      ∃ known a, UnaryOperator.ofText? op = some known ∧ (eval env operand).run.value = .ok a ∧
        known.apply a = v := by
  rw [eval_unary]
  cases UnaryOperator.ofText? op with
  | none => simp
  | some known =>
    simp only [Work.value_bind_eq_ok, Work.value_pure]
    simp

theorem value_concat_eq_ok {parts : List Expr} :
    (eval env (concat parts)).run.value = .ok v ↔
      ∃ vs, List.Forall₂ (fun e v => (eval env e).run.value = .ok v) parts vs ∧
        Word.concat vs = v := by
  rw [eval_concat]
  simp only [Work.value_bind_eq_ok, value_evalAll_iff, Work.value_pure, Except.ok.injEq]

theorem value_replicate_eq_ok {body count : Expr} :
    (eval env (replicate body count)).run.value = .ok v ↔
      ∃ n copies a, (eval env count).run.value = .ok n ∧ n.count? = some (copies + 1) ∧
        (eval env body).run.value = .ok a ∧ a.replicate (copies + 1) = v := by
  rw [eval_replicate, Work.value_bind_eq_ok]
  refine exists_congr fun n => ?_
  rcases hcount : n.count? with _ | _ | copies
  · simp
  · simp
  · simp only [Work.value_bind_eq_ok, Work.value_pure]
    simp

theorem value_slice_eq_ok {body : Expr} {start stop : Nat} :
    (eval env (slice body start stop)).run.value = .ok v ↔
      ∃ a, (eval env body).run.value = .ok a ∧
        a.extract start (Count.saturate (Count.distance start stop + 1)) = v := by
  rw [eval_slice]
  simp only [Work.value_bind_eq_ok, value_evalSlice, Except.ok.injEq]

theorem value_partSelect_eq_ok {body base : Expr} {width : Nat} :
    (eval env (partSelect body base width)).run.value = .ok v ↔
      ∃ a p, (eval env body).run.value = .ok a ∧ (eval env base).run.value = .ok p ∧
        a.extract p.bits width = v := by
  rw [eval_partSelect]
  simp only [Work.value_bind_eq_ok, value_evalPartSelect, Except.ok.injEq, exists_and_left]

theorem value_select_eq_ok {body index : Expr} :
    (eval env (select body index)).run.value = .ok v ↔
      ∃ a p, (eval env body).run.value = .ok a ∧ (eval env index).run.value = .ok p ∧
        .ofBool (a.bit p.bits) = v := by
  rw [eval_select]
  simp only [Work.value_bind_eq_ok, value_evalSelect, Except.ok.injEq, exists_and_left]

/-! ## Expressions of a fixed width -/

/-- The expression itself does not choose between arms, and does not ask a signal how many copies to
make. Of its parts nothing is said. -/
def fixesWidth : Expr → Bool
  | conditional _ _ _ => false
  | replicate _ count => count.signals.keys.isEmpty
  | _ => true

/-- There is no conditional in the expression, and no number of copies in it mentions a signal. -/
def HasFixedWidth (e : Expr) : Prop :=
  ∀ s ∈ e.subexprs, s.fixesWidth = true

instance (e : Expr) : Decidable e.HasFixedWidth :=
  inferInstanceAs (Decidable (∀ s ∈ e.subexprs, s.fixesWidth = true))

theorem HasFixedWidth.self (h : e.HasFixedWidth) : e.fixesWidth = true :=
  h e (mem_subexprs_self e)

theorem HasFixedWidth.part {part : Expr} (h : e.HasFixedWidth) (hpart : part ∈ e.parts) :
    part.HasFixedWidth :=
  fun s hs => h s (mem_subexprs_of_mem_parts hpart hs)

/-- What mentions no signal is the same in all environments. -/
theorem eval_eq_of_keys_isEmpty (h : e.signals.keys.isEmpty = true) : eval env e = eval env' e := by
  apply eval_congr
  intro name hname
  rw [List.isEmpty_iff.1 h] at hname
  cases hname

/-- Rows of results have the same widths if their members do, one by one. -/
theorem map_width_eq {parts : List Expr} {vs vs' : List Word}
    (h : ∀ e ∈ parts, ∀ v v', (eval env e).run.value = .ok v → (eval env' e).run.value = .ok v' →
      v.width = v'.width)
    (hvs : List.Forall₂ (fun e v => (eval env e).run.value = .ok v) parts vs)
    (hvs' : List.Forall₂ (fun e v => (eval env' e).run.value = .ok v) parts vs') :
    vs.map Word.width = vs'.map Word.width := by
  induction hvs generalizing vs' with
  | nil =>
    cases hvs'
    rfl
  | cons hv _ ih =>
    cases hvs' with
    | cons hv' hvs' =>
      rw [List.map_cons, List.map_cons, h _ List.mem_cons_self _ _ hv hv',
        ih (fun e he => h e (List.mem_cons_of_mem _ he)) hvs']

/-- Where the signals have the same widths, results have the same width. The induction is on the
expression, with both evaluations taken apart at once. A part that only says which bits are meant, such
as the index of a selection, may differ in both. -/
theorem width_eval_eq (he : e.HasFixedWidth) (henv : Env.widths env = Env.widths env')
    (hv : (eval env e).run.value = .ok v) (hv' : (eval env' e).run.value = .ok v') :
    v.width = v'.width := by
  induction e using Expr.induction generalizing v v' with
  | constant text =>
    rw [value_constant_eq_ok] at hv hv'
    rw [Except.ok.inj (hv.symm.trans hv')]
  | signal name =>
    rw [value_signal_eq_ok] at hv hv'
    have hget : (Env.widths env).get? name = (Env.widths env').get? name := by rw [henv]
    rw [Env.widths, Env.widths, NameMap.get?_map, NameMap.get?_map, hv, hv'] at hget
    exact Option.some.inj hget
  | binary op left right ihl _ =>
    obtain ⟨known, a, b, hop, ha, -, rfl⟩ := value_binary_eq_ok.1 hv
    obtain ⟨known', a', b', hop', ha', -, rfl⟩ := value_binary_eq_ok.1 hv'
    obtain rfl : known = known' := Option.some.inj (hop.symm.trans hop')
    -- a truth value has one bit, and anything else has the bits of the left operand
    have hleft : a.width = a'.width := ihl (he.part (by simp [parts])) ha ha'
    rw [BinaryOperator.width_apply, BinaryOperator.width_apply, hleft]
  | unary op operand ih =>
    obtain ⟨known, a, hop, ha, rfl⟩ := value_unary_eq_ok.1 hv
    obtain ⟨known', a', hop', ha', rfl⟩ := value_unary_eq_ok.1 hv'
    obtain rfl : known = known' := Option.some.inj (hop.symm.trans hop')
    have hoperand : a.width = a'.width := ih (he.part (by simp [parts])) ha ha'
    rw [UnaryOperator.width_apply, UnaryOperator.width_apply, hoperand]
  | conditional condition yes no => cases he.self
  | concat parts ih =>
    obtain ⟨vs, hvs, rfl⟩ := value_concat_eq_ok.1 hv
    obtain ⟨vs', hvs', rfl⟩ := value_concat_eq_ok.1 hv'
    have hwidths : vs.map Word.width = vs'.map Word.width :=
      map_width_eq (fun e hmem _ _ => ih e hmem (he.part hmem)) hvs hvs'
    rw [Word.width_concat, Word.width_concat, hwidths]
  | replicate body count ih _ =>
    obtain ⟨n, copies, a, hn, hcopies, ha, rfl⟩ := value_replicate_eq_ok.1 hv
    obtain ⟨n', copies', a', hn', hcopies', ha', rfl⟩ := value_replicate_eq_ok.1 hv'
    -- no signal has a say in the number of copies
    rw [eval_eq_of_keys_isEmpty he.self, hn'] at hn
    obtain rfl : n' = n := Except.ok.inj hn
    have hcount : copies + 1 = copies' + 1 := Option.some.inj (hcopies.symm.trans hcopies')
    have hbody : a.width = a'.width := ih (he.part (by simp [parts])) ha ha'
    rw [Word.width_replicate, Word.width_replicate, hcount, hbody]
  | slice body start stop _ =>
    obtain ⟨a, -, rfl⟩ := value_slice_eq_ok.1 hv
    obtain ⟨a', -, rfl⟩ := value_slice_eq_ok.1 hv'
    rw [Word.width_extract, Word.width_extract]
  | partSelect body base width _ _ =>
    obtain ⟨a, p, -, -, rfl⟩ := value_partSelect_eq_ok.1 hv
    obtain ⟨a', p', -, -, rfl⟩ := value_partSelect_eq_ok.1 hv'
    rw [Word.width_extract, Word.width_extract]
  | select body index _ _ =>
    obtain ⟨a, p, -, -, rfl⟩ := value_select_eq_ok.1 hv
    obtain ⟨a', p', -, -, rfl⟩ := value_select_eq_ok.1 hv'
    rw [Word.width_ofBool, Word.width_ofBool]

end Expr

/-! ## Wires that are made to fit -/

/-- What is reported of a wire that is made to fit, apart from the number that was found for it. -/
structure Resizing where
  location : Option Location
  wire : String
  width : Nat
  /-- The width of the value. -/
  found : Nat
deriving DecidableEq

/-- The wire that the diagnostic reports as made to fit, if it reports one. -/
def Diagnostic.resizing? (d : Diagnostic) : Option Resizing :=
  match d.finding with
  | .resizedWire name width value => some ⟨d.location, name, width, value.width⟩
  | _ => none

theorem Diagnostic.resizing?_eq_none {d : Diagnostic}
    (h : d.finding.isAboutInput = true ∨ d.finding.isAboutOperand = true) : d.resizing? = none := by
  unfold resizing?
  split
  · next hfinding =>
    rw [hfinding] at h
    exact absurd h (by simp [Finding.isAboutInput, Finding.isAboutOperand])
  · rfl

/-- The wires that are reported as made to fit, in the order of the reports. -/
def Log.resizings (log : Log) : List Resizing :=
  log.filterMap Diagnostic.resizing?

theorem Log.resizings_append (a b : Log) :
    Log.resizings (a ++ b) = Log.resizings a ++ Log.resizings b :=
  List.filterMap_append ..

theorem Log.resizings_of_records {α : Type} {x : Logged α}
    (h : x.Records fun d => d.resizing? = none) : Log.resizings x.log = [] :=
  List.filterMap_eq_nil_iff.2 h

namespace Module

variable {m : Module} {given given' env env' last last' : Env} {w : Wire} {ws : List Wire} {v x x' : Word}

/-! ## Inputs -/

theorem widths_bindInputs (m : Module) (given : Env) :
    Env.widths (m.bindInputs given).value =
      NameMap.empty.fill Input.name Input.width m.inputs := by
  have hfill : ∀ (is : List Input) (env : Env),
      Env.widths (env.fill Input.name (Input.word given) is) =
        (Env.widths env).fill Input.name Input.width is := by
    intro is
    induction is with
    | nil => exact fun _ => rfl
    | cons i is ih =>
      intro env
      rw [NameMap.fill, List.foldl_cons, ← NameMap.fill, ih, Env.widths_insert, Input.width_word]
      rfl
  rw [value_bindInputs, hfill]
  rfl

/-- Binding the inputs speaks of inputs, and of names that should be some. -/
theorem records_bindInputs (m : Module) (given : Env) :
    (m.bindInputs given).Records fun d => d.finding.isAboutInput = true := by
  intro d hd
  rw [log_bindInputs, List.mem_append, List.mem_flatMap, List.mem_flatMap] at hd
  rcases hd with ⟨i, -, hd⟩ | ⟨name, -, hd⟩
  · obtain ⟨v, rfl⟩ := eq_resizedInput_of_mem hd
    rfl
  · rw [eq_unknownInput_of_mem hd]
    rfl

/-! ## Wires -/

theorem width_wireValue (h : (wireValue env w).run.value = .ok x) : x.width = w.width := by
  obtain ⟨v, -, rfl⟩ := value_wireValue_eq_ok.1 h
  exact Word.width_resize v w.width

/-- A wire is reported if its value has another width than it. -/
theorem resizings_wireValue (h : (w.definition.eval env).run.value = .ok v) :
    Log.resizings (wireValue env w).run.log =
      if v.width = w.width then [] else [⟨w.location, w.name, w.width, v.width⟩] := by
  have hrecords : (w.definition.eval env).run.Records fun d => d.resizing? = none :=
    Expr.records_eval env (fun _ hfinding => Diagnostic.resizing?_eq_none (.inr hfinding)) _
  have heval : Log.resizings (w.definition.eval env).run.log = [] :=
    Log.resizings_of_records hrecords
  rw [wireValue_eq, Work.log_bind, h, Log.resizings_append, heval]
  by_cases hfit : v.width = w.width
  · simp only [if_pos hfit]
    rfl
  · simp only [if_neg hfit]
    rfl

/-- One wire: it is reported in both environments or in neither. -/
theorem resizings_wireValue_eq (hw : w.definition.HasFixedWidth)
    (henv : Env.widths env = Env.widths env') (hx : (wireValue env w).run.value = .ok x)
    (hx' : (wireValue env' w).run.value = .ok x') :
    Log.resizings (wireValue env w).run.log = Log.resizings (wireValue env' w).run.log := by
  obtain ⟨v, hv, -⟩ := value_wireValue_eq_ok.1 hx
  obtain ⟨v', hv', -⟩ := value_wireValue_eq_ok.1 hx'
  rw [resizings_wireValue hv, resizings_wireValue hv', Expr.width_eval_eq hw henv hv hv']

/-- A row of wires: two runs that succeed report the same wires. The induction is on the row. A wire is
bound at its own width in both runs, so the environments have the same widths behind it again. -/
theorem resizings_bindWires_eq (hws : ∀ w ∈ ws, w.definition.HasFixedWidth)
    (henv : Env.widths env = Env.widths env')
    (hlast : (ws.foldlM bindWire env).run.value = .ok last)
    (hlast' : (ws.foldlM bindWire env').run.value = .ok last') :
    Log.resizings (ws.foldlM bindWire env).run.log =
      Log.resizings (ws.foldlM bindWire env').run.log := by
  induction ws generalizing env env' with
  | nil => rfl
  | cons w ws ih =>
    obtain ⟨x, hx, hrest⟩ := bindWires_cons_eq_ok.1 hlast
    obtain ⟨x', hx', hrest'⟩ := bindWires_cons_eq_ok.1 hlast'
    have hnext : Env.widths (env.insert w.name x) = Env.widths (env'.insert w.name x') := by
      rw [Env.widths_insert, Env.widths_insert, henv, width_wireValue hx, width_wireValue hx']
    have hhead := resizings_wireValue_eq (hws w List.mem_cons_self) henv hx hx'
    have htail := ih (fun v hv => hws v (List.mem_cons_of_mem _ hv)) hnext hrest hrest'
    rw [log_bindWires_cons hx, log_bindWires_cons hx', Log.resizings_append, Log.resizings_append,
      hhead, htail]

/-- Only wires are reported as made to fit that way. -/
theorem resizings_simulate (m : Module) (given : Env) :
    Log.resizings (m.simulate given).run.log =
      Log.resizings (m.wires.foldlM bindWire (m.bindInputs given).value).run.log := by
  have hinputs : Log.resizings (m.bindInputs given).log = [] :=
    Log.resizings_of_records fun d hd =>
      Diagnostic.resizing?_eq_none (.inl (records_bindInputs m given d hd))
  rw [log_simulate, Log.resizings_append, hinputs, List.nil_append]

/-- Widths of results do not depend on the values of signals. Take an expression without conditionals in
which no number of copies mentions a signal, and two environments that bind the same names at the same
widths. If it has a value in both, the two values have the same width. Take a module all of whose wires
are such expressions, and any two bindings of its inputs. If both runs succeed, they report the same
wires as made to fit: at the same places, with the same widths of the wire and of what was found for it,
and in the same order. -/
theorem widths_ignore_values :
    (∀ (e : Expr) (env env' : Env), e.HasFixedWidth → Env.widths env = Env.widths env' →
      ∀ v v', (e.eval env).run.value = .ok v → (e.eval env').run.value = .ok v' →
        v.width = v'.width) ∧
    ∀ (m : Module) (given given' env env' : Env), (∀ w ∈ m.wires, w.definition.HasFixedWidth) →
      (m.simulate given).run.value = .ok env → (m.simulate given').run.value = .ok env' →
      Log.resizings (m.simulate given).run.log = Log.resizings (m.simulate given').run.log := by
  refine ⟨fun e env env' he henv v v' => Expr.width_eval_eq he henv, ?_⟩
  intro m given given' env env' hwires h h'
  rw [value_simulate] at h h'
  -- whatever is given, the inputs are bound at their own widths
  have hinputs : Env.widths (m.bindInputs given).value = Env.widths (m.bindInputs given').value := by
    rw [widths_bindInputs, widths_bindInputs]
  rw [resizings_simulate, resizings_simulate]
  exact resizings_bindWires_eq hwires hinputs h h'

/-- Two copies of `a`, of which only one fits, a shift of that, which does not fit either, and one of its
bits. -/
def packed : Module where
  name := "packed"
  inputs := [⟨"a", 4⟩, ⟨"i", 2⟩]
  wires := [
    .ofExpr "s" 4 (.replicate (.signal "a") (.constant "2")),
    .ofExpr "t" 3 (.binary "<<" (.signal "s") (.signal "i")),
    .ofExpr "u" 1 (.select (.signal "t") (.signal "i"))]
  outputs := ["u"]

/-- Words for its inputs. -/
def packedInputs (a i : Nat) : Env :=
  (NameMap.empty.insert "a" (.ofNat 4 a)).insert "i" (.ofNat 2 i)

/-- Words for all its signals, of which the last two are zero. -/
def packedValues (a i s : Nat) : Env :=
  (((packedInputs a i).insert "s" (.ofNat 4 s)).insert "t" (.zero 3)).insert "u" (.zero 1)

/-- Without any input, and with inputs that shift all but a bit away and select one past the top, the
same two wires are made to fit. The copies are eight bits of zeros or of something else. -/
theorem widths_ignore_values_packed :
    (∀ w ∈ packed.wires, w.definition.HasFixedWidth) ∧
    (packed.simulate NameMap.empty).run.value = .ok (packedValues 0 0 0) ∧
    (packed.simulate (packedInputs 13 3)).run.value = .ok (packedValues 13 3 13) ∧
    Log.resizings (packed.simulate NameMap.empty).run.log =
      Log.resizings (packed.simulate (packedInputs 13 3)).run.log ∧
    Log.resizings (packed.simulate NameMap.empty).run.log =
      [⟨none, "s", 4, 8⟩, ⟨none, "t", 3, 4⟩] ∧
    Env.widths (packedInputs 0 0) = Env.widths (packedInputs 13 3) ∧
    ((Expr.replicate (.signal "a") (.constant "2")).eval (packedInputs 0 0)).run.value =
      .ok (.ofNat 8 0) ∧
    ((Expr.replicate (.signal "a") (.constant "2")).eval (packedInputs 13 3)).run.value =
      .ok (.ofNat 8 221) ∧
    (Word.ofNat 8 0).width = (Word.ofNat 8 221).width := by
  have hfixed : ∀ w ∈ packed.wires, w.definition.HasFixedWidth := by decide
  have hnone : (packed.simulate NameMap.empty).run.value = .ok (packedValues 0 0 0) :=
    of_toOption_eq_some (by decide +kernel)
  have hsome : (packed.simulate (packedInputs 13 3)).run.value = .ok (packedValues 13 3 13) :=
    of_toOption_eq_some (by decide +kernel)
  have hwidths : Env.widths (packedInputs 0 0) = Env.widths (packedInputs 13 3) := by decide
  have hzero : ((Expr.replicate (.signal "a") (.constant "2")).eval (packedInputs 0 0)).run.value =
      .ok (.ofNat 8 0) := of_toOption_eq_some (by decide +kernel)
  have hother : ((Expr.replicate (.signal "a") (.constant "2")).eval (packedInputs 13 3)).run.value =
      .ok (.ofNat 8 221) := of_toOption_eq_some (by decide +kernel)
  obtain ⟨hexprs, hmodules⟩ := widths_ignore_values
  exact ⟨hfixed, hnone, hsome, hmodules packed _ _ _ _ hfixed hnone hsome, by decide +kernel, hwidths,
    hzero, hother, hexprs _ _ _ (hfixed _ List.mem_cons_self) hwidths _ _ hzero hother⟩

end Module

end Netlist
