/-
Evaluation that keeps no bounds.

Literals, expressions and modules are evaluated here over raw words, with operators that fail where a
difference would be negative. Nothing in these definitions sees to it that a number fits its width, and
an input whose width is right is taken over as it is given. Each of them does on words that fit what
evaluation does on words (`Erases`). There is one lemma for each way of putting evaluations together,
and the rest is an induction on expressions and one on the wires. So in environments that fit no
number ever outgrows its width, and nothing goes below zero (`raw_evaluation_safe`).
-/
import Netlist.Proofs.RawWords
import Netlist.Proofs.Simulation

set_option autoImplicit false

namespace Netlist

/-- Raw words by the names of signals. -/
abbrev RawEnv := NameMap RawWord

/-- All words of the environment fit. -/
def RawEnv.Fits (env : RawEnv) : Prop :=
  ∀ name v, env.get? name = some v → v.Fits

/-- The environment without what is known of its words. -/
def Env.raw (env : Env) : RawEnv :=
  env.map Word.raw

namespace RawEnv

theorem fits_raw (env : Env) : Fits env.raw := by
  intro name v hv
  rw [Env.raw, NameMap.get?_map] at hv
  obtain ⟨w, -, rfl⟩ := Option.map_eq_some_iff.1 hv
  exact RawWord.fits_raw w

instance : CanLift RawEnv Env Env.raw Fits where
  prf env h := by
    refine ⟨env.map fun v => .ofNat v.width v.bits, NameMap.ext_get? fun name => ?_⟩
    rw [Env.raw, NameMap.get?_map, NameMap.get?_map]
    cases hget : env.get? name with
    | none => rfl
    | some v => exact congrArg some (RawWord.raw_ofNat_of_fits (h name v hget))

end RawEnv

/-! ## Literals -/

namespace Literal

/-- The raw word that a literal of either shape stands for. -/
def rawWord (text : String) : Literal → Except LiteralError RawWord
  | .bare digits =>
    match Radix.decimal.number? (plainDigits digits) with
    | some n => .ok (.ofNat (bareWidth n) n)
    | none => .error (.invalid text)
  | .sized width letter radix digits =>
    match (Radix.decimal.number? width).filter (· < Count.limit) with
    | none => .error (.invalid text)
    | some 0 => .error (.zeroWidth text)
    | some w =>
      match radix.number? (plainDigits digits) with
      | some n => .ok (.ofNat w n)
      | none => .error (.badDigits text letter.toLower)

/-- Reads a literal. -/
def readRaw (text : String) : Except LiteralError RawWord :=
  let bare := Text.trim text
  match ofChars? bare.toList with
  | some literal => literal.rawWord bare
  | none => .error (.invalid bare)

theorem rawWord_eq (text : String) (literal : Literal) :
    literal.rawWord text = (literal.word text).map Word.raw := by
  cases literal with
  | bare digits =>
    rw [rawWord, word]
    cases Radix.decimal.number? (plainDigits digits) <;> rfl
  | sized width letter radix digits =>
    rw [rawWord, word]
    rcases (Radix.decimal.number? width).filter (· < Count.limit) with _ | _ | w
    · rfl
    · rfl
    · cases radix.number? (plainDigits digits) <;> rfl

theorem readRaw_eq (text : String) : readRaw text = (read text).map Word.raw := by
  rw [readRaw, read]
  cases ofChars? (Text.trim text).toList with
  | none => rfl
  | some literal => exact rawWord_eq (Text.trim text) literal

end Literal

/-! ## Expressions and modules -/

namespace Expr

mutual

/-- The value of an expression over raw words. -/
def evalRaw (env : RawEnv) : Expr → Except RawError RawWord
  | constant text =>
    match Literal.readRaw text with
    | .ok v => return v
    | .error e => throw (.evaluation (.literal e))
  | signal name =>
    match env.get? name with
    | some v => return v
    | none => throw (.evaluation (.unboundSignal name))
  | binary op left right =>
    match BinaryOperator.ofText? op with
    | some known => do RawWord.applyBinary known (← evalRaw env left) (← evalRaw env right)
    | none => throw (.evaluation (.unknownOperator op))
  | unary op operand =>
    match UnaryOperator.ofText? op with
    | some known => do RawWord.applyUnary known (← evalRaw env operand)
    | none => throw (.evaluation (.unknownOperator op))
  | conditional condition yes no => do
    if (← evalRaw env condition).isZero then evalRaw env no else evalRaw env yes
  | concat parts => do return RawWord.concat (← evalAllRaw env parts)
  | replicate body count => do
    let n ← evalRaw env count
    match n.count? with
    | none | some 0 => throw (.evaluation (.badCount n.bits))
    | some (copies + 1) => return (← evalRaw env body).replicate (copies + 1)
  | slice body start stop => do
    return (← evalRaw env body).extract start (Count.saturate (Count.distance start stop + 1))
  | partSelect body base width => do
    let v ← evalRaw env body
    return v.extract (← evalRaw env base).bits width
  | select body index => do
    let v ← evalRaw env body
    return .ofBool (v.bits.testBit (← evalRaw env index).bits)

/-- The values of a row of expressions. -/
def evalAllRaw (env : RawEnv) : List Expr → Except RawError (List RawWord)
  | [] => return []
  | e :: es => return (← evalRaw env e) :: (← evalAllRaw env es)

end

end Expr

namespace Module

/-- The word at a width. A word of that width already is taken as it is. -/
def fitRaw (width : Nat) (v : RawWord) : RawWord :=
  if v.width = width then v else v.resize width

/-- The raw word that an input takes. -/
def inputRaw (given : RawEnv) (i : Input) : RawWord :=
  match given.get? i.name with
  | none => .zero i.width
  | some v => fitRaw i.width v

/-- The raw word that a wire takes. -/
def wireRaw (env : RawEnv) (w : Wire) : Except RawError RawWord := do
  return fitRaw w.width (← w.definition.evalRaw env)

/-- Binds a wire. -/
def bindWireRaw (env : RawEnv) (w : Wire) : Except RawError RawEnv := do
  return env.insert w.name (← wireRaw env w)

/-- The values of all signals of a module over raw words. -/
def simulateRaw (m : Module) (given : RawEnv) : Except RawError RawEnv :=
  m.wires.foldlM bindWireRaw (NameMap.empty.fill Input.name (inputRaw given) m.inputs)

end Module

/-! ## Evaluating the same -/

/-- The raw computation does what the work does, up to what is known of the words. -/
def Erases {α ρ : Type} (raw : α → ρ) (x : Except RawError ρ) (y : Evaluation α) : Prop :=
  x = (y.run.value.map raw).mapError RawError.evaluation

section Erases

variable {α β ρ σ : Type} {raw : α → ρ} {raw' : β → σ}

theorem erases_of_value {x : Except RawError ρ} {y : Evaluation α} {a : α}
    (hy : y.run.value = .ok a) (hx : x = .ok (raw a)) : Erases raw x y := by
  rw [Erases, hx, hy]
  rfl

theorem erases_pure {v : ρ} {a : α} (h : v = raw a) : Erases raw (pure v) (pure a) :=
  erases_of_value rfl (congrArg Except.ok h)

theorem erases_throw (e : EvalError) : Erases raw (throw (.evaluation e)) (throw e) := rfl

theorem Erases.bind {x : Except RawError ρ} {y : Evaluation α} {f : ρ → Except RawError σ}
    {g : α → Evaluation β} (h : Erases raw x y) (hfg : ∀ a, Erases raw' (f (raw a)) (g a)) :
    Erases raw' (x >>= f) (y >>= g) := by
  unfold Erases at h ⊢
  rw [h, Work.value_bind]
  cases y.run.value with
  | ok a => exact hfg a
  | error e => rfl

end Erases

namespace Expr

variable (env : Env)

theorem erases_evalAll {parts : List Expr}
    (h : ∀ e ∈ parts, Erases Word.raw (evalRaw env.raw e) (eval env e)) :
    Erases (List.map Word.raw) (evalAllRaw env.raw parts) (evalAll env parts) := by
  induction parts with
  | nil => exact erases_pure rfl
  | cons e es ih =>
    rw [evalAllRaw, evalAll]
    exact (h e List.mem_cons_self).bind fun _ =>
      (ih fun e he => h e (List.mem_cons_of_mem _ he)).bind fun _ => erases_pure rfl

theorem erases_eval (e : Expr) : Erases Word.raw (evalRaw env.raw e) (eval env e) := by
  induction e using Expr.induction with
  | constant text =>
    rw [evalRaw, eval_constant, Literal.readRaw_eq]
    cases Literal.read text <;> rfl
  | signal name =>
    rw [evalRaw, eval_signal, Env.raw, NameMap.get?_map]
    cases env.get? name <;> rfl
  | binary op left right ihl ihr =>
    rw [evalRaw, eval_binary]
    cases BinaryOperator.ofText? op with
    | none => exact erases_throw _
    | some known =>
      exact ihl.bind fun a => ihr.bind fun b =>
        erases_of_value (value_evalBinary known a b) (RawWord.applyBinary_raw a b known)
  | unary op operand ih =>
    rw [evalRaw, eval_unary]
    cases UnaryOperator.ofText? op with
    | none => exact erases_throw _
    | some known =>
      exact ih.bind fun a =>
        erases_of_value (Work.value_pure _) (RawWord.applyUnary_raw a known)
  | conditional condition yes no ihc ihy ihn =>
    rw [evalRaw, eval_conditional]
    refine ihc.bind fun c => ?_
    show Erases _ (if c.isZero = true then _ else _) _
    split
    · exact ihn
    · exact ihy
  | concat parts ih =>
    rw [evalRaw, eval_concat]
    exact (erases_evalAll env ih).bind fun vs => erases_pure (RawWord.raw_concat vs).symm
  | replicate body count ihb ihc =>
    rw [evalRaw, eval_replicate]
    refine ihc.bind fun n => ?_
    show Erases _ (match n.count? with | none | some 0 => _ | some (copies + 1) => _) _
    rcases n.count? with _ | _ | copies
    · exact erases_throw _
    · exact erases_throw _
    · exact ihb.bind fun v => erases_pure (RawWord.raw_replicate (copies + 1) v).symm
  | slice body start stop ih =>
    rw [evalRaw, eval_slice]
    exact ih.bind fun v => erases_of_value (value_evalSlice _ v start stop) rfl
  | partSelect body base width ihe ihb =>
    rw [evalRaw, eval_partSelect]
    exact ihe.bind fun v => ihb.bind fun p =>
      erases_of_value (value_evalPartSelect _ v p width) rfl
  | select body index ihe ihi =>
    rw [evalRaw, eval_select]
    exact ihe.bind fun v => ihi.bind fun p => erases_of_value (value_evalSelect _ v p) rfl

end Expr

/-! ## Modules -/

theorem NameMap.map_fill {α β γ : Type} (f : α → β) (name : γ → String) (value : γ → α)
    (m : NameMap α) (bs : List γ) :
    (m.fill name value bs).map f = (m.map f).fill name (fun b => f (value b)) bs := by
  induction bs generalizing m with
  | nil => rfl
  | cons b bs ih =>
    rw [fill, fill, List.foldl_cons, List.foldl_cons, ← fill, ← fill, ih, map_insert]

namespace Module

theorem fitRaw_raw (width : Nat) (w : Word) : fitRaw width w.raw = (w.resize width).raw := by
  unfold fitRaw
  split
  · next h => rw [show width = w.width from h.symm, Word.resize_width]
  · rfl

theorem inputRaw_raw (given : Env) (i : Input) : inputRaw given.raw i = (i.word given).raw := by
  rw [inputRaw, Input.word, Env.raw, NameMap.get?_map]
  cases given.get? i.name with
  | none => rfl
  | some w => exact fitRaw_raw i.width w

theorem erases_wireValue (env : Env) (w : Wire) :
    Erases Word.raw (wireRaw env.raw w) (wireValue env w) := by
  have heval := Expr.erases_eval env w.definition
  rw [Erases] at heval ⊢
  rw [wireRaw, heval]
  cases hv : (w.definition.eval env).run.value with
  | ok v =>
    rw [value_wireValue_eq_ok.2 ⟨v, hv, rfl⟩]
    exact congrArg Except.ok (fitRaw_raw w.width v)
  | error e =>
    rw [value_wireValue_eq_error.2 hv]
    rfl

theorem erases_bindWires (ws : List Wire) (env : Env) :
    Erases Env.raw (ws.foldlM bindWireRaw env.raw) (ws.foldlM bindWire env) := by
  induction ws generalizing env with
  | nil => exact erases_pure rfl
  | cons w ws ih =>
    rw [List.foldlM_cons, List.foldlM_cons]
    refine Erases.bind ?_ ih
    exact (erases_wireValue env w).bind fun x =>
      erases_pure (NameMap.map_insert Word.raw env w.name x).symm

theorem erases_simulate (m : Module) (given : Env) :
    Erases Env.raw (m.simulateRaw given.raw) (m.simulate given) := by
  have hinputs : NameMap.empty.fill Input.name (inputRaw given.raw) m.inputs =
      Env.raw (m.bindInputs given).value := by
    rw [funext (inputRaw_raw given), value_bindInputs]
    exact (NameMap.map_fill Word.raw Input.name (Input.word given) NameMap.empty m.inputs).symm
  rw [Erases, value_simulate, simulateRaw, hinputs]
  exact erases_bindWires m.wires (m.bindInputs given).value

end Module

/-! ## Nothing outgrows its width -/

/-- What is computed fits, or evaluation gives up. Nothing goes below zero. -/
def Safe {ρ : Type} (fits : ρ → Prop) (x : Except RawError ρ) : Prop :=
  (∃ v, x = .ok v ∧ fits v) ∨ ∃ e, x = .error (.evaluation e)

theorem Erases.safe {α ρ : Type} {raw : α → ρ} {fits : ρ → Prop} {x : Except RawError ρ}
    {y : Evaluation α} (h : Erases raw x y) (hraw : ∀ a, fits (raw a)) : Safe fits x := by
  rw [Erases] at h
  cases hy : y.run.value with
  | ok a => exact .inl ⟨raw a, by rw [h, hy]; rfl, hraw a⟩
  | error e => exact .inr ⟨e, by rw [h, hy]; rfl⟩

/-- Whatever is built from nothing fits. On words that fit, no operator goes below zero and all yield
words that fit. So expressions and modules evaluate, in environments that fit, to words that fit or not
at all, and never because something went below zero. In all of this the raw computations do what
those on words do. -/
theorem raw_evaluation_safe :
    (∀ c : RawWord.Construction, c.rawWord.Fits ∧ c.rawWord = c.word.raw) ∧
    (∀ a b : RawWord, a.Fits → b.Fits →
      ∀ op, ∃ v, RawWord.applyBinary op a b = .ok v ∧ v.Fits) ∧
    (∀ a : RawWord, a.Fits → ∀ op, ∃ v, RawWord.applyUnary op a = .ok v ∧ v.Fits) ∧
    (∀ env : RawEnv, env.Fits → ∀ e : Expr, Safe RawWord.Fits (e.evalRaw env)) ∧
    (∀ given : RawEnv, given.Fits → ∀ m : Module, Safe RawEnv.Fits (m.simulateRaw given)) ∧
    (∀ (a b : Word) op, RawWord.applyBinary op a.raw b.raw = .ok (op.apply a b).raw) ∧
    (∀ (a : Word) op, RawWord.applyUnary op a.raw = .ok (op.apply a).raw) ∧
    (∀ (env : Env) (e : Expr), Erases Word.raw (e.evalRaw env.raw) (e.eval env)) ∧
    ∀ (given : Env) (m : Module), Erases Env.raw (m.simulateRaw given.raw) (m.simulate given) := by
  refine ⟨fun c => ⟨c.fits_rawWord, c.raw_word.symm⟩, fun a b ha hb op => ?_, fun a ha op => ?_,
    fun env henv e => ?_, fun given hgiven m => ?_, RawWord.applyBinary_raw,
    RawWord.applyUnary_raw, Expr.erases_eval, fun given m => m.erases_simulate given⟩
  -- raw words that fit are the raw words of words, and so are environments
  · lift a to Word using ha
    lift b to Word using hb
    exact ⟨_, RawWord.applyBinary_raw a b op, RawWord.fits_raw _⟩
  · lift a to Word using ha
    exact ⟨_, RawWord.applyUnary_raw a op, RawWord.fits_raw _⟩
  · lift env to Env using henv
    exact (Expr.erases_eval env e).safe RawWord.fits_raw
  · lift given to Env using hgiven
    exact (m.erases_simulate given).safe RawEnv.fits_raw

/-- A sign and a shift, which both subtract: `-3` is `1101` at four bits, and moved down
by two it is `1111`. -/
theorem raw_evaluation_safe_shifted :
    RawEnv.Fits (.ofList [("a", ⟨4, 3⟩), ("b", ⟨9, 2⟩)]) ∧
    Expr.evalRaw (.ofList [("a", ⟨4, 3⟩), ("b", ⟨9, 2⟩)])
      (.binary ">>>" (.unary "-" (.signal "a")) (.signal "b")) = .ok ⟨4, 15⟩ ∧
    RawWord.Fits ⟨4, 15⟩ := by
  have hfits : RawEnv.Fits (.ofList [("a", ⟨4, 3⟩), ("b", ⟨9, 2⟩)]) :=
    RawEnv.fits_raw (.ofList [("a", .ofNat 4 3), ("b", .ofNat 9 2)])
  have hvalue : Expr.evalRaw (.ofList [("a", ⟨4, 3⟩), ("b", ⟨9, 2⟩)])
      (.binary ">>>" (.unary "-" (.signal "a")) (.signal "b")) = .ok ⟨4, 15⟩ := rfl
  obtain ⟨-, -, -, heval, -⟩ := raw_evaluation_safe
  rcases heval _ hfits (.binary ">>>" (.unary "-" (.signal "a")) (.signal "b")) with
    ⟨v, hv, hfit⟩ | ⟨e, he⟩
  · rw [hvalue] at hv
    cases hv
    exact ⟨hfits, hvalue, hfit⟩
  · rw [hvalue] at he
    cases he

-- a number that does not fit its width brings the sign below zero
example : RawWord.applyUnary .minus ⟨4, 20⟩ = .error (.underflow 16 20) := rfl

end Netlist
