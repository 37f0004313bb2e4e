/-
What evaluation reads, and why it fails.

The value of an expression depends on the signals that occur in it and on nothing else
(`eval_congr`), but an evaluation that succeeds may have read fewer: a conditional leaves
one arm alone. So a success survives every extension of the environment, even when some
signal of the expression is bound nowhere (`eval_of_within`). An evaluation that fails
blames a part of the expression for it (`blames_of_eval`).

All three speak of the recorded diagnostics too, because a result carries them.
-/
import Netlist.Expr.Eval
import Netlist.Proofs.Expressions

set_option autoImplicit false

namespace Netlist

/-! ## Work in sequence -/

namespace Work

variable {ε α β : Type} {x : ExceptT ε Logged α} {f g : α → ExceptT ε Logged β}

theorem value_bind (x : ExceptT ε Logged α) (f : α → ExceptT ε Logged β) :
    (x >>= f).run.value =
      match x.run.value with
      | .ok a => (f a).run.value
      | .error e => .error e := by
  rw [ExceptT.run_bind, Logged.value_bind]
  cases x.run.value <;> rfl

theorem log_bind (x : ExceptT ε Logged α) (f : α → ExceptT ε Logged β) :
    (x >>= f).run.log = x.run.log ++
      match x.run.value with
      | .ok a => (f a).run.log
      | .error _ => [] := by
  rw [ExceptT.run_bind, Logged.log_bind]
  cases x.run.value <;> rfl

/-- Work in sequence succeeds when its first part does and the rest does after it. -/
theorem value_bind_eq_ok {b : β} :
    (x >>= f).run.value = .ok b ↔
      ∃ a, x.run.value = .ok a ∧ (f a).run.value = .ok b := by
  rw [value_bind]
  cases x.run.value <;> simp

/-- Work in sequence fails when its first part does, or when the rest does after it. -/
theorem value_bind_eq_error {e : ε} :
    (x >>= f).run.value = .error e ↔
      x.run.value = .error e ∨ ∃ a, x.run.value = .ok a ∧ (f a).run.value = .error e := by
  rw [value_bind]
  cases x.run.value <;> simp

/-- Behind a first part only what follows its result matters, if it has one. -/
theorem bind_congr (hfg : ∀ a, x.run.value = .ok a → f a = g a) : x >>= f = x >>= g := by
  refine Logged.ext ?_ ?_
  · show (x >>= f).run.value = (x >>= g).run.value
    rw [value_bind, value_bind]
    split
    · next a ha => rw [hfg a ha]
    · rfl
  · show (x >>= f).run.log = (x >>= g).run.log
    rw [log_bind, log_bind]
    split
    · next a ha => rw [hfg a ha]
    · rfl

theorem bind_congr_of_ok {a : α} (hx : x.run.value = .ok a) (hfg : f a = g a) :
    x >>= f = x >>= g := by
  refine bind_congr fun b hb => ?_
  obtain rfl : a = b := Except.ok.inj (hx.symm.trans hb)
  exact hfg

/-- Behind work that succeeds stands what follows from its result. -/
theorem run_bind_of_ok {a : α} {log : Log} (hx : x.run = ⟨.ok a, log⟩) :
    (x >>= f).run = ⟨(f a).run.value, log ++ (f a).run.log⟩ := by
  refine Logged.ext ?_ ?_
  · rw [value_bind, hx]
  · rw [log_bind, hx]

@[simp] theorem value_pure (a : α) : (pure a : ExceptT ε Logged α).run.value = .ok a := rfl

@[simp] theorem log_pure (a : α) : (pure a : ExceptT ε Logged α).run.log = [] := rfl

@[simp] theorem value_lift (x : Logged α) :
    (ExceptT.lift x : ExceptT ε Logged α).run.value = .ok x.value := rfl

@[simp] theorem log_lift (x : Logged α) : (ExceptT.lift x : ExceptT ε Logged α).run.log = x.log := by
  show x.log ++ [] = x.log
  rw [List.append_nil]

end Work

/-- Work that may record a finding first has the value of the work behind it. -/
theorem Evaluation.value_warn_if {α : Type} (p : Prop) [Decidable p] (finding : Finding) (a : α) :
    (do
      if p then Evaluation.warn finding
      return a : Evaluation α).run.value = .ok a := by
  split <;> rfl

namespace Expr

variable {env env' : Env}

/-! ## Rows of expressions -/

theorem evalAll_congr {parts : List Expr} (h : ∀ e ∈ parts, eval env e = eval env' e) :
    evalAll env parts = evalAll env' parts := by
  induction parts with
  | nil => rfl
  | cons e es ih =>
    rw [evalAll, evalAll, h e List.mem_cons_self,
      ih fun e he => h e (List.mem_cons_of_mem _ he)]

theorem eval_of_evalAll {parts : List Expr} {vs : List Word}
    (h : (evalAll env parts).run.value = .ok vs) :
    ∀ e ∈ parts, ∃ v, (eval env e).run.value = .ok v := by
  induction parts generalizing vs with
  | nil =>
    intro e he
    exact absurd he (by simp)
  | cons first rest ih =>
    rw [evalAll] at h
    obtain ⟨v, hv, h⟩ := Work.value_bind_eq_ok.1 h
    obtain ⟨ws, hws, -⟩ := Work.value_bind_eq_ok.1 h
    intro e he
    rcases List.mem_cons.1 he with rfl | he
    · exact ⟨v, hv⟩
    · exact ih hws e he

theorem error_of_evalAll {parts : List Expr} {err : EvalError}
    (h : (evalAll env parts).run.value = .error err) :
    ∃ e ∈ parts, (eval env e).run.value = .error err := by
  induction parts with
  | nil => cases h
  | cons first rest ih =>
    rw [evalAll] at h
    rcases Work.value_bind_eq_error.1 h with h | ⟨v, -, h⟩
    · exact ⟨first, List.mem_cons_self, h⟩
    rcases Work.value_bind_eq_error.1 h with h | ⟨vs, -, h⟩
    · obtain ⟨e, he, h⟩ := ih h
      exact ⟨e, List.mem_cons_of_mem _ he, h⟩
    · cases h

/-! ## What evaluation reads -/

/-- The environments bind the signals of the expression alike, or leave them unbound alike. -/
def AgreeOn (env env' : Env) (e : Expr) : Prop :=
  ∀ name ∈ e.signals.keys, env.get? name = env'.get? name

theorem AgreeOn.part {part e : Expr} (h : AgreeOn env env' e) (hpart : part ∈ e.parts) :
    AgreeOn env env' part := by
  intro name hname
  exact h name (mem_signals.2 (mem_subexprs_of_mem_parts hpart (mem_signals.1 hname)))

/-- Evaluation depends only on the signals of the expression: where they agree, the result and
the diagnostics are the same. -/
theorem eval_congr {e : Expr} (h : AgreeOn env env' e) : eval env e = eval env' e := by
  induction e using Expr.induction with
  | constant text => rfl
  | signal name => rw [eval_signal, eval_signal, h name (mem_signals.2 (mem_subexprs_self _))]
  | binary op left right ihl ihr =>
    rw [eval_binary, eval_binary, ihl (h.part (by simp [parts])), ihr (h.part (by simp [parts]))]
  | unary op operand ih =>
    rw [eval_unary, eval_unary, ih (h.part (by simp [parts]))]
  | conditional condition yes no ihc ihy ihn =>
    rw [eval_conditional, eval_conditional, ihc (h.part (by simp [parts])), ihy (h.part (by simp [parts])),
      ihn (h.part (by simp [parts]))]
  | concat parts ih =>
    have hparts : ∀ e ∈ parts, eval env e = eval env' e := fun e he => ih e he (h.part he)
    rw [eval_concat, eval_concat, evalAll_congr hparts]
  | replicate body count ihb ihc =>
    rw [eval_replicate, eval_replicate, ihb (h.part (by simp [parts])), ihc (h.part (by simp [parts]))]
  | slice body start stop ih =>
    rw [eval_slice, eval_slice, ih (h.part (by simp [parts]))]
  | partSelect body base width ihe ihb =>
    rw [eval_partSelect, eval_partSelect, ihe (h.part (by simp [parts])), ihb (h.part (by simp [parts]))]
  | select body index ihe ihi =>
    rw [eval_select, eval_select, ihe (h.part (by simp [parts])), ihi (h.part (by simp [parts]))]

/-- More bindings never hurt: an evaluation that succeeds gives the same result and the same
diagnostics in every environment that binds more. The signals that the first environment
leaves unbound were not read. -/
theorem eval_of_within {e : Expr} {v : Word} (hext : env.Within env')
    (h : (eval env e).run.value = .ok v) : eval env' e = eval env e := by
  induction e using Expr.induction generalizing v with
  | constant text => rfl
  | signal name =>
    rw [eval_signal] at h
    cases hname : env.get? name with
    | none =>
      rw [hname] at h
      cases h
    | some w => rw [eval_signal, eval_signal, hname, hext name w hname]
  | binary op left right ihl ihr =>
    rw [eval_binary] at h
    rw [eval_binary, eval_binary]
    cases hop : BinaryOperator.ofText? op with
    | none => rfl
    | some known =>
      rw [hop] at h
      obtain ⟨a, ha, h⟩ := Work.value_bind_eq_ok.1 h
      obtain ⟨b, hb, -⟩ := Work.value_bind_eq_ok.1 h
      simp only [ihl ha, ihr hb]
  | unary op operand ih =>
    rw [eval_unary] at h
    rw [eval_unary, eval_unary]
    cases hop : UnaryOperator.ofText? op with
    | none => rfl
    | some known =>
      rw [hop] at h
      obtain ⟨a, ha, -⟩ := Work.value_bind_eq_ok.1 h
      simp only [ih ha]
  | conditional condition yes no ihc ihy ihn =>
    rw [eval_conditional] at h
    rw [eval_conditional, eval_conditional]
    obtain ⟨c, hc, h⟩ := Work.value_bind_eq_ok.1 h
    rw [ihc hc]
    -- only the arm that is taken has a value, so only that one may be rewritten
    refine Work.bind_congr_of_ok hc ?_
    split at h
    · next hzero => rw [if_pos hzero, if_pos hzero, ihn h]
    · next hzero => rw [if_neg hzero, if_neg hzero, ihy h]
  | concat parts ih =>
    rw [eval_concat] at h
    obtain ⟨vs, hvs, -⟩ := Work.value_bind_eq_ok.1 h
    have hparts : ∀ e ∈ parts, eval env' e = eval env e := by
      intro e he
      obtain ⟨w, hw⟩ := eval_of_evalAll hvs e he
      exact ih e he hw
    rw [eval_concat, eval_concat, evalAll_congr hparts]
  | replicate body count ihb ihc =>
    rw [eval_replicate] at h
    rw [eval_replicate, eval_replicate]
    obtain ⟨n, hn, h⟩ := Work.value_bind_eq_ok.1 h
    rw [ihc hn]
    refine Work.bind_congr_of_ok hn ?_
    -- a bad count stops the work before the body is read
    split at h
    · cases h
    · cases h
    · next copies hcopies =>
      obtain ⟨w, hw, -⟩ := Work.value_bind_eq_ok.1 h
      rw [ihb hw]
  | slice body start stop ih =>
    rw [eval_slice] at h
    obtain ⟨w, hw, -⟩ := Work.value_bind_eq_ok.1 h
    rw [eval_slice, eval_slice, ih hw]
  | partSelect body base width ihe ihb =>
    rw [eval_partSelect] at h
    obtain ⟨w, hw, h⟩ := Work.value_bind_eq_ok.1 h
    obtain ⟨b, hb, -⟩ := Work.value_bind_eq_ok.1 h
    rw [eval_partSelect, eval_partSelect, ihe hw, ihb hb]
  | select body index ihe ihi =>
    rw [eval_select] at h
    obtain ⟨w, hw, h⟩ := Work.value_bind_eq_ok.1 h
    obtain ⟨i, hi, -⟩ := Work.value_bind_eq_ok.1 h
    rw [eval_select, eval_select, ihe hw, ihi hi]

/-! ## Operators and selections have values -/

theorem value_evalBinary (op : BinaryOperator) (a b : Word) :
    (evalBinary op a b).run.value = .ok (op.apply a b) :=
  Evaluation.value_warn_if _ _ _

theorem value_evalSlice (e : Expr) (v : Word) (start stop : Nat) :
    (evalSlice e v start stop).run.value =
      .ok (v.extract start (Count.saturate (Count.distance start stop + 1))) :=
  Evaluation.value_warn_if _ _ _

theorem value_evalPartSelect (e : Expr) (v position : Word) (width : Nat) :
    (evalPartSelect e v position width).run.value = .ok (v.extract position.bits width) :=
  Evaluation.value_warn_if _ _ _

theorem value_evalSelect (e : Expr) (v position : Word) :
    (evalSelect e v position).run.value = .ok (.ofBool (v.bit position.bits)) :=
  Evaluation.value_warn_if _ _ _

/-! ## Why evaluation fails -/

/-- The operator on top of the expression has the given spelling and no meaning. -/
def HasUnknown (op : String) : Expr → Prop
  | binary spelling _ _ => spelling = op ∧ BinaryOperator.ofText? op = none
  | unary spelling _ => spelling = op ∧ UnaryOperator.ofText? op = none
  | _ => False

/-- What an error says about the expression that fails with it. -/
def Blames (env : Env) (e : Expr) : EvalError → Prop
  | .unboundSignal name => name ∈ e.signals.keys ∧ env.get? name = none
  | .unknownOperator op => ∃ part ∈ e.subexprs, part.HasUnknown op
  | .badCount _ => True
  | .literal _ => True
  | .overflow => False

theorem Blames.of_part {part e : Expr} {err : EvalError} (h : part.Blames env err)
    (hpart : part ∈ e.parts) : e.Blames env err := by
  cases err with
  | unboundSignal name =>
    obtain ⟨hname, hnone⟩ := h
    have hsignal := mem_subexprs_of_mem_parts hpart (mem_signals.1 hname)
    exact ⟨mem_signals.2 hsignal, hnone⟩
  | unknownOperator op =>
    obtain ⟨s, hs, hop⟩ := h
    exact ⟨s, mem_subexprs_of_mem_parts hpart hs, hop⟩
  | badCount n => trivial
  | literal e => trivial
  | overflow => exact h

/-- An evaluation that fails names an unbound signal of the expression, an operator of the
expression that has no meaning, a bad count or a bad literal. -/
theorem blames_of_eval {e : Expr} {err : EvalError}
    (h : (eval env e).run.value = .error err) : e.Blames env err := by
  induction e using Expr.induction with
  | constant text =>
    rw [eval_constant] at h
    split at h
    · cases h
    · cases h
      trivial
  | signal name =>
    rw [eval_signal] at h
    split at h
    · cases h
    · next hname =>
      cases h
      exact ⟨mem_signals.2 (mem_subexprs_self _), hname⟩
  | binary op left right ihl ihr =>
    rw [eval_binary] at h
    split at h
    · rcases Work.value_bind_eq_error.1 h with h | ⟨a, -, h⟩
      · exact (ihl h).of_part (by simp [parts])
      rcases Work.value_bind_eq_error.1 h with h | ⟨b, -, h⟩
      · exact (ihr h).of_part (by simp [parts])
      · rw [value_evalBinary] at h
        cases h
    · next hop =>
      cases h
      exact ⟨_, mem_subexprs_self _, rfl, hop⟩
  | unary op operand ih =>
    rw [eval_unary] at h
    split at h
    · rcases Work.value_bind_eq_error.1 h with h | ⟨a, -, h⟩
      · exact (ih h).of_part (by simp [parts])
      · cases h
    · next hop =>
      cases h
      exact ⟨_, mem_subexprs_self _, rfl, hop⟩
  | conditional condition yes no ihc ihy ihn =>
    rw [eval_conditional] at h
    rcases Work.value_bind_eq_error.1 h with h | ⟨c, -, h⟩
    · exact (ihc h).of_part (by simp [parts])
    · split at h
      · exact (ihn h).of_part (by simp [parts])
      · exact (ihy h).of_part (by simp [parts])
  | concat parts ih =>
    rw [eval_concat] at h
    rcases Work.value_bind_eq_error.1 h with h | ⟨vs, -, h⟩
    · obtain ⟨e, he, h⟩ := error_of_evalAll h
      exact (ih e he h).of_part he
    · cases h
  | replicate body count ihb ihc =>
    rw [eval_replicate] at h
    rcases Work.value_bind_eq_error.1 h with h | ⟨n, -, h⟩
    · exact (ihc h).of_part (by simp [parts])
    · split at h
      · cases h
        trivial
      · cases h
        trivial
      · rcases Work.value_bind_eq_error.1 h with h | ⟨w, -, h⟩
        · exact (ihb h).of_part (by simp [parts])
        · cases h
  | slice body start stop ih =>
    rw [eval_slice] at h
    rcases Work.value_bind_eq_error.1 h with h | ⟨w, -, h⟩
    · exact (ih h).of_part (by simp [parts])
    · rw [value_evalSlice] at h
      cases h
  | partSelect body base width ihe ihb =>
    rw [eval_partSelect] at h
    rcases Work.value_bind_eq_error.1 h with h | ⟨w, -, h⟩
    · exact (ihe h).of_part (by simp [parts])
    rcases Work.value_bind_eq_error.1 h with h | ⟨b, -, h⟩
    · exact (ihb h).of_part (by simp [parts])
    · rw [value_evalPartSelect] at h
      cases h
  | select body index ihe ihi =>
    rw [eval_select] at h
    rcases Work.value_bind_eq_error.1 h with h | ⟨w, -, h⟩
    · exact (ihe h).of_part (by simp [parts])
    rcases Work.value_bind_eq_error.1 h with h | ⟨i, -, h⟩
    · exact (ihi h).of_part (by simp [parts])
    · rw [value_evalSelect] at h
      cases h

/-! ## Signals are all that evaluation reads -/

/-- Evaluation reads the signals of an expression and nothing else. Environments that treat these
alike give the same result and the same diagnostics; an evaluation that stops at an unbound signal
names one of them; and one that succeeds goes through unchanged in every environment that binds
more, also if some signal of the expression was bound nowhere. -/
theorem eval_reads_only_signals (e : Expr) :
    (∀ env env' : Env, AgreeOn env env' e → eval env e = eval env' e) ∧
    (∀ (env : Env) (name : String), (eval env e).run.value = .error (.unboundSignal name) →
      name ∈ e.signals.keys ∧ env.get? name = none) ∧
    ∀ (env env' : Env) (v : Word), env.Within env' → (eval env e).run.value = .ok v →
      (eval env' e).run.value = .ok v ∧ (eval env' e).run.log = (eval env e).run.log := by
  refine ⟨fun _ _ => eval_congr, fun env name herror => ?_, fun env env' v hext hvalue => ?_⟩
  · have hblames : e.Blames env (.unboundSignal name) := blames_of_eval herror
    exact hblames
  · have hsame := eval_of_within hext hvalue
    exact ⟨hsame ▸ hvalue, hsame ▸ rfl⟩

/-- A quotient that is computed if a flag is set, and another signal if it is not. -/
def guarded : Expr :=
  .conditional (.signal "flag") (.binary "/" (.signal "a") (.constant "0")) (.signal "b")

/-- An environment that binds the flag and `a`, but not `b`. -/
def flagged (flag : Nat) : Env :=
  .ofList [("a", .ofNat 4 9), ("flag", .ofNat 1 flag)]

/-- With the flag set `b` is not read: the division by zero is recorded, and binding `b` or a name
that does not occur changes nothing. With the flag clear the missing `b` is named. -/
theorem eval_reads_only_signals_guarded :
    AgreeOn (flagged 1) ((flagged 1).insert "z" (.ofNat 8 3)) guarded ∧
    eval (flagged 1) guarded = eval ((flagged 1).insert "z" (.ofNat 8 3)) guarded ∧
    (eval (flagged 0) guarded).run.value = .error (.unboundSignal "b") ∧
    ("b" ∈ guarded.signals.keys ∧ (flagged 0).get? "b" = none) ∧
    (flagged 1).Within ((flagged 1).insert "b" (.ofNat 2 1)) ∧
    (eval (flagged 1) guarded).run.value = .ok (.ofNat 4 0) ∧
    (eval (flagged 1) guarded).run.log.length = 1 ∧
    (eval ((flagged 1).insert "b" (.ofNat 2 1)) guarded).run.value = .ok (.ofNat 4 0) ∧
    (eval ((flagged 1).insert "b" (.ofNat 2 1)) guarded).run.log =
      (eval (flagged 1) guarded).run.log := by
  have hagree : AgreeOn (flagged 1) ((flagged 1).insert "z" (.ofNat 8 3)) guarded := by
    unfold AgreeOn
    decide
  have herror : (eval (flagged 0) guarded).run.value = .error (.unboundSignal "b") := rfl
  have hext : (flagged 1).Within ((flagged 1).insert "b" (.ofNat 2 1)) :=
    NameMap.within_insert (by decide) _
  have hvalue : (eval (flagged 1) guarded).run.value = .ok (.ofNat 4 0) := rfl
  obtain ⟨hcongr, hblames, hmore⟩ := eval_reads_only_signals guarded
  exact ⟨hagree, hcongr _ _ hagree, herror, hblames _ _ herror, hext, hvalue, rfl,
    hmore _ _ _ hext hvalue⟩

end Expr

end Netlist
