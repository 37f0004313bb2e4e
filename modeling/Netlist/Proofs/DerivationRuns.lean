/-
A derivation drives the reader of expressions.

The reader has one step for a token and a stack for what is open, and nothing in it speaks of
productions. Still, the tokens of a derivation lead it, from any stack, to an operand that stands
for the tree of the derivation: the operand need not be that tree yet, since operators may still be
open above the old stack, but closing them gives the tree (`ReadsOperand`). The old stack must not
have an operator on top that the derivation would close itself. With an empty stack this says that
whatever can be derived is read, and read as the tree that the derivation builds
(`Derivation.exists_run`).
-/
import Netlist.Proofs.ExpressionGrammar

set_option autoImplicit false

namespace Netlist.Grammar

/-! ## Reading several tokens -/

/-- Reading tokens one after the other leads from one state to another. -/
inductive Reads {σ : Type} (step : σ → Token → Option σ) : σ → List Token → σ → Prop
  | done {s : σ} : Reads step s [] s
  | read {s next last : σ} {t : Token} {ts : List Token} :
      step s t = some next → Reads step next ts last → Reads step s (t :: ts) last

section Reads

variable {σ τ : Type} {step : σ → Token → Option σ} {s middle last : σ} {ts us : List Token}

theorem Reads.append (h : Reads step s ts middle) (h' : Reads step middle us last) :
    Reads step s (ts ++ us) last := by
  induction h with
  | done => exact h'
  | read hs _ ih => exact .read hs (ih h')

theorem Reads.one {t : Token} (h : step s t = some last) : Reads step s [t] last :=
  .read h .done

/-- Tokens lead to one state. -/
theorem Reads.unique {last' : σ} (h : Reads step s ts last) (h' : Reads step s ts last') :
    last = last' := by
  induction h with
  | done =>
    cases h'
    rfl
  | read hs _ ih =>
    cases h' with
    | read hs' h' =>
      rw [hs] at hs'
      cases hs'
      exact ih h'

/-- A reader that stands inside another one takes it along. -/
theorem Reads.lift {step' : τ → Token → Option τ} {f : σ → τ} (h : Reads step s ts last)
    (hf : ∀ s t next, step s t = some next → step' (f s) t = some (f next)) :
    Reads step' (f s) ts (f last) := by
  induction h with
  | done => exact .done
  | read hs _ ih => exact .read (hf _ _ _ hs) ih

end Reads

/-- A construct that closing leaves open: it waits for a sign of its own. -/
def Frame.Stays : Frame → Prop
  | .unary _ | .binary _ _ _ | .elseArm _ _ => False
  | _ => True

namespace Reader

variable {source : Source} {goal : Goal} {stack below : List Frame} {e : Tree} {t : Token}
  {p : Punctuation}

theorem run_eq_ok_iff {r last : Reader} {ts : List Token} :
    r.run source ts = .ok last ↔ Reads (step source) r ts last := by
  constructor
  · intro h
    induction ts generalizing r with
    | nil =>
      cases h
      exact .done
    | cons t ts ih =>
      rw [run] at h
      split at h
      · next hs => exact .read hs (ih h)
      · cases h
  · intro h
    induction h with
    | done => rfl
    | read hs _ ih =>
      rw [run, hs]
      exact ih

/-! ## Steps after an operand -/

/-- The reader goes on behind an operand, unless it reads an operand alone and has it. -/
def GoesOn (goal : Goal) (stack : List Frame) : Prop :=
  goal = .any ∨ stack ≠ []

theorem goesOn_cons {f : Frame} : GoesOn goal (f :: stack) :=
  .inr (List.cons_ne_nil _ _)

theorem goesOn_of_not (h : goal = .operand → stack = [] → False) : GoesOn goal stack := by
  cases goal with
  | any => exact .inl rfl
  | operand => exact .inr (h rfl)

theorem GoesOn.mono (h : GoesOn goal below) (hs : below <:+ stack) : GoesOn goal stack := by
  refine h.imp_right fun hne hnil => hne ?_
  subst hnil
  exact List.suffix_nil.1 hs

/-- A sign other than a bracket is read behind an operand by what it is for. -/
theorem step_sign (hp : t.terminal = .punctuation p) (hne : p ≠ .openBracket)
    (hgo : GoesOn goal stack) :
    (⟨goal, stack, .operand e⟩ : Reader).step source t =
      stepSign source ⟨goal, stack, .operand e⟩ e p t := by
  simp only [step, stepOperand, hp]
  split
  · exact absurd hgo (by simp [GoesOn])
  · rfl

/-- A binary operator closes what binds as tightly and waits for its right operand. -/
theorem step_binary {tier : Nat} (op : SignAmong (binaryOperators tier)) {left : Tree}
    (hgo : GoesOn goal stack) (hclose : close tier stack e = (below, left)) :
    (⟨goal, stack, .operand e⟩ : Reader).step source op.1 =
      some ⟨goal, .binary tier left (tokenNode source .binaryOperator op.1) :: below,
        .awaiting⟩ := by
  obtain ⟨t, p, hmem, hp⟩ := op
  obtain ⟨op, hop, rfl⟩ := Option.map_eq_some_iff.1 (mem_binaryOperators_iff.1 hmem)
  have hne : p ≠ .openBracket := by
    rintro rfl
    cases hop
  rw [step_sign hp hne hgo]
  simp only [stepSign, hop, hclose]
  rfl

/-- A unary operator waits for its operand. -/
theorem step_unary (op : SignAmong unaryOperators) (hgo : GoesOn goal stack) :
    (⟨goal, stack, .awaiting⟩ : Reader).step source op.1 =
      some ⟨goal, .unary (tokenNode source .unaryOperator op.1) :: stack, .awaiting⟩ := by
  obtain ⟨t, p, hmem, hp⟩ := op
  obtain ⟨op, hop⟩ := Option.isSome_iff_exists.1 (mem_unaryOperators_iff.1 hmem)
  have hparen : p ≠ .openParen := by
    rintro rfl
    cases hop
  have hbrace : p ≠ .openBrace := by
    rintro rfl
    cases hop
  simp only [step, stepAwaiting, hp, hop]
  split
  · next heq => cases heq
  · exact absurd hgo (by simp [GoesOn])
  · rfl

/-! ## Operands -/

/-- No operator on top of the stack belongs to an expression of the tier. -/
def Settled (tier : Nat) : List Frame → Prop
  | .unary _ :: _ => 11 ≤ tier
  | .binary n _ _ :: _ => n < tier
  | _ => True

theorem Settled.mono {tier tier' : Nat} (h : Settled tier stack) (hle : tier ≤ tier') :
    Settled tier' stack := by
  unfold Settled at h ⊢
  split at h <;> first | exact trivial | omega

theorem Settled.close_eq {tier least : Nat} (h : Settled tier stack) (hle : tier ≤ least)
    (hlow : 1 ≤ least) (hhigh : least ≤ 10) (e : Tree) : close least stack e = (stack, e) := by
  unfold Settled at h
  split at h
  · omega
  · rw [close, if_neg (by omega)]
  · next hunary hbinary =>
    unfold close
    split
    · exact absurd rfl (hunary _ _)
    · exact absurd rfl (hbinary _ _ _ _)
    · rw [if_neg (by omega)]
    · rfl

theorem close_of_stays {f : Frame} (hf : f.Stays) (e : Tree) :
    close 0 (f :: stack) e = (f :: stack, e) := by
  cases f <;> first | rfl | exact hf.elim

theorem settled_of_stays {f : Frame} (hf : f.Stays) : Settled 0 (f :: stack) := by
  cases f <;> trivial

/-- A sign that is no operator is read by the construct that it leaves open, as if that were on
top. -/
theorem step_of_close {f : Frame} {e' : Tree} {next : Reader} (hp : t.terminal = .punctuation p)
    (hsign : p.binary? = none ∧ p ≠ .openBracket ∧ p ≠ .question) (hne : stack ≠ [])
    (hclose : close 0 stack e = (f :: below, e')) (hf : f.Stays)
    (hs : stepSign source ⟨goal, f :: below, .operand e'⟩ e' p t = some next) :
    (⟨goal, stack, .operand e⟩ : Reader).step source t = some next := by
  obtain ⟨hbinary, hbracket, hquestion⟩ := hsign
  rw [step_sign hp hbracket (.inr hne)]
  unfold stepSign at hs ⊢
  rw [hbinary] at hs ⊢
  dsimp only at hs ⊢
  rw [close_of_stays hf] at hs
  rw [hclose]
  -- only the question mark looks at what has not been closed
  split at hs
  · exact absurd rfl hquestion
  all_goals exact hs

/-- Where an operand of the tier has to come, the tokens lead to an operand that closes as the
tree does. -/
def ReadsOperand (source : Source) (tier : Nat) (ts : List Token) (e : Tree) : Prop :=
  ∀ goal stack, GoesOn goal stack → Settled tier stack → ∃ stack' e',
    Reads (step source) ⟨goal, stack, .awaiting⟩ ts ⟨goal, stack', .operand e'⟩ ∧
      stack <:+ stack' ∧ ∀ least ≤ tier, close least stack' e' = close least stack e

/-- Where an operand has to come, the tokens lead to the tree itself. -/
def ReadsPrimary (source : Source) (ts : List Token) (e : Tree) : Prop :=
  ∀ goal stack,
    Reads (step source) ⟨goal, stack, .awaiting⟩ ts ⟨goal, stack, .operand e⟩

/-- Behind a brace and a count, the tokens lead to the tree as that which is copied. -/
def ReadsCopied (source : Source) (ts : List Token) (e : Tree) : Prop :=
  ∀ goal stack below start count e', close 0 stack e' = (.items start [] :: below, count) →
    stack ≠ [] → Reads (step source) ⟨goal, stack, .operand e'⟩ ts
      ⟨goal, below, .copied start count e⟩

/-- Behind an opening brace, the tokens lead to the last of the trees, with the trees before it
added to those that stand before them. -/
def ReadsRow (source : Source) (ts : List Token) (es : List Tree) : Prop :=
  ∀ goal below (frame : List Tree → Frame) read,
    (∃ start, frame = .items start) ∨ (∃ start count inner, frame = .copies start count inner) →
    ∃ before last stack e, es = before ++ [last] ∧
      Reads (step source) ⟨goal, frame read :: below, .awaiting⟩ ts ⟨goal, stack, .operand e⟩ ∧
      stack ≠ [] ∧ close 0 stack e = (frame (read ++ before) :: below, last)

section Productions

variable {tier : Nat} {ts us vs ws : List Token} {condition yes no left right upper lower : Tree}

theorem ReadsPrimary.readsOperand (h : ReadsPrimary source ts e) :
    ReadsOperand source tier ts e :=
  fun goal stack _ _ => ⟨stack, e, h goal stack, List.suffix_rfl, fun _ _ => rfl⟩

theorem ReadsOperand.tighter (h : ReadsOperand source (tier + 1) ts e) :
    ReadsOperand source tier ts e := by
  intro goal stack hgo hsettled
  obtain ⟨stack', e', hreads, hsuffix, hclose⟩ := h goal stack hgo (hsettled.mono (by omega))
  exact ⟨stack', e', hreads, hsuffix, fun least hle => hclose least (by omega)⟩

/-- An expression inside a construct that stays is complete when everything is closed. -/
theorem ReadsOperand.inside {f : Frame} (h : ReadsOperand source 0 ts e) (hf : f.Stays)
    (goal : Goal) (stack : List Frame) : ∃ stack' e',
      Reads (step source) ⟨goal, f :: stack, .awaiting⟩ ts ⟨goal, stack', .operand e'⟩ ∧
        stack' ≠ [] ∧ close 0 stack' e' = (f :: stack, e) := by
  obtain ⟨stack', e', hreads, hsuffix, hclose⟩ :=
    h goal (f :: stack) goesOn_cons (settled_of_stays hf)
  refine ⟨stack', e', hreads, ?_, ?_⟩
  · rintro rfl
    cases List.suffix_nil.1 hsuffix
  · rw [hclose 0 (Nat.le_refl 0), close_of_stays hf]

/-- The left operand is complete when the operator comes, and the right one binds more tightly. -/
theorem ReadsOperand.binary (op : SignAmong (binaryOperators tier))
    (hl : ReadsOperand source tier ts left) (hr : ReadsOperand source (tier + 1) us right) :
    ReadsOperand source tier (ts ++ op.1 :: us)
      (.spanning .binaryExpression [left, tokenNode source .binaryOperator op.1, right]) := by
  intro goal stack hgo hsettled
  have htier : 1 ≤ tier ∧ tier ≤ 10 := op.tier_bounds
  obtain ⟨stack₁, e₁, hreads₁, hsuffix₁, hclose₁⟩ := hl goal stack hgo hsettled
  -- the operator closes the left operand and stops at what binds less tightly below
  have hleft : close tier stack₁ e₁ = (stack, left) := by
    rw [hclose₁ tier (Nat.le_refl _), hsettled.close_eq (Nat.le_refl _) htier.1 htier.2]
  have hstep : (⟨goal, stack₁, .operand e₁⟩ : Reader).step source op.1 =
      some ⟨goal, .binary tier left (tokenNode source .binaryOperator op.1) :: stack, .awaiting⟩ :=
    step_binary op (hgo.mono hsuffix₁) hleft
  obtain ⟨stack₂, e₂, hreads₂, hsuffix₂, hclose₂⟩ := hr goal
    (.binary tier left (tokenNode source .binaryOperator op.1) :: stack) goesOn_cons
    (Nat.lt_succ_self tier)
  -- whatever closes the right operand down to this tier closes the operator with it
  refine ⟨stack₂, e₂, hreads₁.append (.read hstep hreads₂), ?_, fun least hle => ?_⟩
  · exact (List.suffix_cons _ _).trans hsuffix₂
  · rw [hclose₂ least (by omega), close, if_pos hle]

/-- The condition binds more tightly than a conditional; the arms are read inside it. -/
theorem ReadsOperand.conditional (q : Sign .question) (s : Sign .colon)
    (hc : ReadsOperand source 1 ts condition) (hy : ReadsOperand source 0 us yes)
    (hn : ReadsOperand source 0 vs no) :
    ReadsOperand source 0 (ts ++ q.1 :: (us ++ s.1 :: vs))
      (.spanning .conditionalExpression [condition, yes, no]) := by
  intro goal stack hgo hsettled
  obtain ⟨stack₁, e₁, hreads₁, hsuffix₁, hclose₁⟩ := hc goal stack hgo (hsettled.mono (by omega))
  have hcondition : close 1 stack₁ e₁ = (stack, condition) := by
    rw [hclose₁ 1 (Nat.le_refl _), hsettled.close_eq (by omega) (by omega) (by omega)]
  have hquestion : (⟨goal, stack₁, .operand e₁⟩ : Reader).step source q.1 =
      some ⟨goal, .thenArm condition :: stack, .awaiting⟩ := by
    rw [step_sign q.2 (by decide) (hgo.mono hsuffix₁)]
    unfold stepSign
    rw [hcondition]
    rfl
  obtain ⟨stack₂, e₂, hreads₂, hne₂, hclose₂⟩ :=
    hy.inside (f := .thenArm condition) trivial goal stack
  have hcolon : (⟨goal, stack₂, .operand e₂⟩ : Reader).step source s.1 =
      some ⟨goal, .elseArm condition yes :: stack, .awaiting⟩ := by
    exact step_of_close s.2 (by decide) hne₂ hclose₂ trivial rfl
  obtain ⟨stack₃, e₃, hreads₃, hsuffix₃, hclose₃⟩ :=
    hn goal (.elseArm condition yes :: stack) goesOn_cons trivial
  refine ⟨stack₃, e₃, hreads₁.append (.read hquestion (hreads₂.append (.read hcolon hreads₃))),
    (List.suffix_cons _ _).trans hsuffix₃, fun least hle => ?_⟩
  rw [hclose₃ least hle, close, if_pos (Nat.le_zero.1 hle)]

/-- A unary operator stays open until its operand is complete. -/
theorem ReadsOperand.unary (op : SignAmong unaryOperators)
    (h : ReadsOperand source 11 ts e) :
    ReadsOperand source 11 (op.1 :: ts)
      (.spanning .unaryExpression [tokenNode source .unaryOperator op.1, e]) := by
  intro goal stack hgo hsettled
  have hstep : (⟨goal, stack, .awaiting⟩ : Reader).step source op.1 =
      some ⟨goal, .unary (tokenNode source .unaryOperator op.1) :: stack, .awaiting⟩ :=
    step_unary op hgo
  obtain ⟨stack', e', hreads, hsuffix, hclose⟩ := h goal
    (.unary (tokenNode source .unaryOperator op.1) :: stack) goesOn_cons (Nat.le_refl 11)
  refine ⟨stack', e', .read hstep hreads, (List.suffix_cons _ _).trans hsuffix, fun least hle => ?_⟩
  rw [hclose least hle, close]

/-! ### Primaries -/

theorem readsPrimary_number (n : Lexeme .number) :
    ReadsPrimary source [n.1] (tokenNode source .number n.1) := by
  intro goal stack
  refine .one ?_
  simp only [step, stepAwaiting, n.2]
  rfl

theorem readsPrimary_name (name : Lexeme .identifier) :
    ReadsPrimary source [name.1] (tokenNode source .simpleIdentifier name.1) := by
  intro goal stack
  refine .one ?_
  simp only [step, stepAwaiting, name.2]
  rfl

/-- A bracket right behind a name opens an index. -/
theorem reads_index (name : Lexeme .identifier) (o : Sign .openBracket) :
    Reads (step source) ⟨goal, stack, .awaiting⟩ [name.1, o.1]
      ⟨goal, .index (tokenNode source .simpleIdentifier name.1) :: stack, .awaiting⟩ := by
  refine (readsPrimary_name name goal stack).append (.one ?_)
  simp only [step, stepOperand, o.2]
  rfl

theorem ReadsOperand.bitSelect (name : Lexeme .identifier) (o : Sign .openBracket)
    (c : Sign .closeBracket) (h : ReadsOperand source 0 ts e) :
    ReadsPrimary source (name.1 :: o.1 :: (ts ++ [c.1]))
      (nodeOver source .bitSelect name.1.start c.1.stop
        [tokenNode source .simpleIdentifier name.1, e]) := by
  intro goal stack
  obtain ⟨stack', e', hreads, hne, hclose⟩ := h.inside
    (f := .index (tokenNode source .simpleIdentifier name.1)) trivial goal stack
  refine (reads_index name o).append (hreads.append (.one ?_))
  exact step_of_close c.2 (by decide) hne hclose trivial rfl

theorem ReadsOperand.rangeSelect (name : Lexeme .identifier) (o : Sign .openBracket)
    (s : Sign .colon) (c : Sign .closeBracket) (hu : ReadsOperand source 0 ts upper)
    (hl : ReadsOperand source 0 us lower) :
    ReadsPrimary source (name.1 :: o.1 :: (ts ++ s.1 :: (us ++ [c.1])))
      (nodeOver source .rangeSelect name.1.start c.1.stop
        [tokenNode source .simpleIdentifier name.1, upper, lower]) := by
  intro goal stack
  obtain ⟨stack₁, e₁, hreads₁, hne₁, hclose₁⟩ := hu.inside
    (f := .index (tokenNode source .simpleIdentifier name.1)) trivial goal stack
  obtain ⟨stack₂, e₂, hreads₂, hne₂, hclose₂⟩ := hl.inside
    (f := .lowerBound (tokenNode source .simpleIdentifier name.1) upper) trivial goal stack
  refine (reads_index name o).append (hreads₁.append (.read ?_ (hreads₂.append (.one ?_))))
  · exact step_of_close s.2 (by decide) hne₁ hclose₁ trivial rfl
  · exact step_of_close c.2 (by decide) hne₂ hclose₂ trivial rfl

theorem ReadsOperand.indexedRangeSelect (name : Lexeme .identifier) (o : Sign .openBracket)
    (op : SignAmong rangeOperators) (c : Sign .closeBracket)
    (hb : ReadsOperand source 0 ts left) (hw : ReadsOperand source 0 us right) :
    ReadsPrimary source (name.1 :: o.1 :: (ts ++ op.1 :: (us ++ [c.1])))
      (nodeOver source .indexedRangeSelect name.1.start c.1.stop
        [tokenNode source .simpleIdentifier name.1, left,
          tokenNode source .indexedRangeOperator op.1, right]) := by
  intro goal stack
  obtain ⟨stack₁, e₁, hreads₁, hne₁, hclose₁⟩ := hb.inside
    (f := .index (tokenNode source .simpleIdentifier name.1)) trivial goal stack
  obtain ⟨stack₂, e₂, hreads₂, hne₂, hclose₂⟩ := hw.inside
    (f := .partWidth (tokenNode source .simpleIdentifier name.1) left
      (tokenNode source .indexedRangeOperator op.1)) trivial goal stack
  refine (reads_index name o).append (hreads₁.append (.read ?_ (hreads₂.append (.one ?_))))
  · obtain ⟨t, p, hmem, hp⟩ := op
    simp only [rangeOperators, List.mem_cons, List.not_mem_nil, or_false] at hmem
    rcases hmem with rfl | rfl
    all_goals exact step_of_close hp (by decide) hne₁ hclose₁ trivial rfl
  · exact step_of_close c.2 (by decide) hne₂ hclose₂ trivial rfl

theorem ReadsOperand.parenthesized (o : Sign .openParen) (c : Sign .closeParen)
    (h : ReadsOperand source 0 ts e) :
    ReadsPrimary source (o.1 :: (ts ++ [c.1]))
      (nodeOver source .parenthesizedExpression o.1.start c.1.stop [e]) := by
  intro goal stack
  obtain ⟨stack', e', hreads, hne, hclose⟩ := h.inside (f := .paren o.1.start) trivial goal stack
  refine .read ?_ (hreads.append (.one ?_))
  · simp only [step, stepAwaiting, o.2]
    rfl
  · exact step_of_close c.2 (by decide) hne hclose trivial rfl

/-! ### Braces -/

theorem ReadsOperand.readsRow (h : ReadsOperand source 0 ts e) : ReadsRow source ts [e] := by
  intro goal below frame read hframe
  have hstays : (frame read).Stays := by
    rcases hframe with ⟨start, rfl⟩ | ⟨start, count, inner, rfl⟩ <;> trivial
  obtain ⟨stack', e', hreads, hne, hclose⟩ := h.inside hstays goal below
  refine ⟨[], e, stack', e', rfl, hreads, hne, ?_⟩
  rw [List.append_nil, hclose]

theorem ReadsRow.more {es : List Tree} (s : Sign .comma) (hrow : ReadsRow source ts es)
    (h : ReadsOperand source 0 us e) : ReadsRow source (ts ++ s.1 :: us) (es ++ [e]) := by
  intro goal below frame read hframe
  obtain ⟨before, last, stack₁, e₁, rfl, hreads₁, hne₁, hclose₁⟩ :=
    hrow goal below frame read hframe
  have hstays : (frame (read ++ (before ++ [last]))).Stays := by
    rcases hframe with ⟨start, rfl⟩ | ⟨start, count, inner, rfl⟩ <;> trivial
  obtain ⟨stack₂, e₂, hreads₂, hne₂, hclose₂⟩ := h.inside hstays goal below
  refine ⟨before ++ [last], e, stack₂, e₂, rfl, hreads₁.append (.read ?_ hreads₂), hne₂, hclose₂⟩
  rw [← List.append_assoc]
  rcases hframe with ⟨start, rfl⟩ | ⟨start, count, inner, rfl⟩
  all_goals exact step_of_close s.2 (by decide) hne₁ hclose₁ trivial rfl

theorem ReadsRow.concatenation {es : List Tree} (o : Sign .openBrace) (c : Sign .closeBrace)
    (h : ReadsRow source ts es) :
    ReadsPrimary source (o.1 :: (ts ++ [c.1]))
      (nodeOver source .concatenation o.1.start c.1.stop es) := by
  intro goal stack
  obtain ⟨before, last, stack', e', rfl, hreads, hne, hclose⟩ :=
    h goal stack (.items o.1.start) [] (.inl ⟨_, rfl⟩)
  refine .read ?_ (hreads.append (.one ?_))
  · simp only [step, stepAwaiting, o.2]
    rfl
  · exact step_of_close c.2 (by decide) hne hclose trivial rfl

/-- The same braces behind a count are what is copied. -/
theorem ReadsRow.copied {es : List Tree} (o : Sign .openBrace) (c : Sign .closeBrace)
    (h : ReadsRow source ts es) :
    ReadsCopied source (o.1 :: (ts ++ [c.1]))
      (nodeOver source .concatenation o.1.start c.1.stop es) := by
  intro goal stack below start count e hclose hne
  obtain ⟨before, last, stack', e', rfl, hreads, hne', hclose'⟩ :=
    h goal below (.copies start count o.1.start) [] (.inr ⟨_, _, _, rfl⟩)
  refine .read ?_ (hreads.append (.one ?_))
  · exact step_of_close o.2 (by decide) hne hclose trivial rfl
  · exact step_of_close c.2 (by decide) hne' hclose' trivial rfl

theorem ReadsOperand.replication {count inner : Tree} (o : Sign .openBrace)
    (c : Sign .closeBrace) (hcount : ReadsOperand source 0 ts count)
    (hinner : ReadsCopied source us inner) :
    ReadsPrimary source (o.1 :: (ts ++ (us ++ [c.1])))
      (nodeOver source .multipleConcatenation o.1.start c.1.stop [count, inner]) := by
  intro goal stack
  obtain ⟨stack', e', hreads, hne, hclose⟩ :=
    hcount.inside (f := .items o.1.start []) trivial goal stack
  -- until the second brace comes the count is the first item of a concatenation
  have hbody := hinner goal stack' stack _ count e' hclose hne
  refine .read ?_ (hreads.append (hbody.append (.one ?_)))
  · simp only [step, stepAwaiting, o.2]
    rfl
  · simp only [step, c.2]
    rfl

end Productions

end Reader

/-! ## Derivations -/

namespace Derivation

open Reader

variable (source : Source)

/-- What the tokens of a derivation do to the reader. -/
def IsRead : {n : Nonterminal} → Derivation n → Prop
  | .expression, d => ∃ e, d.trees source = [e] ∧ ReadsOperand source 0 d.yield e
  | .tier n, d => ∃ e, d.trees source = [e] ∧ ReadsOperand source n d.yield e ∧
      (n = 12 → ReadsPrimary source d.yield e)
  | .concatenation, d => ∃ e, d.trees source = [e] ∧ ReadsPrimary source d.yield e ∧
      ReadsCopied source d.yield e
  | .expressions, d => ReadsRow source d.yield (d.trees source)

variable {source} in
theorem isRead_of_primary {d : Derivation (.tier 12)} {e : Tree} (he : d.trees source = [e])
    (h : ReadsPrimary source d.yield e) : d.IsRead source :=
  ⟨e, he, h.readsOperand, fun _ => h⟩

/-- The tokens of every derivation are read as its trees. -/
theorem isRead {n : Nonterminal} (d : Derivation n) : d.IsRead source := by
  induction d with
  | expression d ih =>
    obtain ⟨e, he, h, -⟩ := ih
    exact ⟨e, he, h⟩
  | tighter hlt d ih =>
    obtain ⟨e, he, h, -⟩ := ih
    exact ⟨e, he, h.tighter, fun heq => by omega⟩
  | conditional c q y s n ihc ihy ihn =>
    obtain ⟨condition, hcondition, hc, -⟩ := ihc
    obtain ⟨yes, hyes, hy⟩ := ihy
    obtain ⟨no, hno, hn, -⟩ := ihn
    refine ⟨_, ?_, hc.conditional q s hy hn, fun heq => by omega⟩
    rw [trees, hcondition, hyes, hno]
    rfl
  | binary l op r ihl ihr =>
    obtain ⟨left, hleft, hl, -⟩ := ihl
    obtain ⟨right, hright, hr, -⟩ := ihr
    refine ⟨_, ?_, hl.binary op hr, fun heq => by have := op.tier_bounds; omega⟩
    rw [trees, hleft, hright]
    rfl
  | unary op d ih =>
    obtain ⟨e, he, h, -⟩ := ih
    refine ⟨_, ?_, h.unary op, fun heq => by omega⟩
    rw [trees, he]
  | number t => exact isRead_of_primary rfl (readsPrimary_number t)
  | name t => exact isRead_of_primary rfl (readsPrimary_name t)
  | bitSelect t o i c ih =>
    obtain ⟨e, he, h⟩ := ih
    refine isRead_of_primary ?_ (h.bitSelect t o c)
    rw [trees, he]
  | rangeSelect t o u s l c ihu ihl =>
    obtain ⟨upper, hupper, hu⟩ := ihu
    obtain ⟨lower, hlower, hl⟩ := ihl
    refine isRead_of_primary ?_ (hu.rangeSelect t o s c hl)
    rw [trees, hupper, hlower]
    rfl
  | indexedRangeSelect t o b op w c ihb ihw =>
    obtain ⟨base, hbase, hb⟩ := ihb
    obtain ⟨width, hwidth, hw⟩ := ihw
    refine isRead_of_primary ?_ (hb.indexedRangeSelect t o op c hw)
    rw [trees, hbase, hwidth]
    rfl
  | braced d ih =>
    obtain ⟨e, he, h, -⟩ := ih
    exact isRead_of_primary he h
  | replication o n d c ihn ih =>
    obtain ⟨count, hcount, hn⟩ := ihn
    obtain ⟨inner, hinner, -, h⟩ := ih
    refine isRead_of_primary ?_ (hn.replication o c h)
    rw [trees, hcount, hinner]
    rfl
  | parenthesized o d c ih =>
    obtain ⟨e, he, h⟩ := ih
    refine isRead_of_primary ?_ (h.parenthesized o c)
    rw [trees, he]
  | concatenation o ds c ih => exact ⟨_, rfl, ReadsRow.concatenation o c ih, ReadsRow.copied o c ih⟩
  | single d ih =>
    obtain ⟨e, he, h⟩ := ih
    rw [IsRead, trees, yield, he]
    exact h.readsRow
  | more ds s d ihs ih =>
    obtain ⟨e, he, h⟩ := ih
    rw [IsRead, trees, yield, he]
    exact ReadsRow.more s ihs h

theorem exists_tree (d : Derivation .expression) : ∃ e, d.trees source = [e] := by
  obtain ⟨e, he, -⟩ := d.isRead source
  exact ⟨e, he⟩

theorem trees_ne_nil (ds : Derivation .expressions) : ds.trees source ≠ [] := by
  cases ds with
  | single d =>
    obtain ⟨e, he⟩ := d.exists_tree source
    rw [trees, he]
    exact List.cons_ne_nil e []
  | more ds s d =>
    obtain ⟨e, he⟩ := d.exists_tree source
    rw [trees, he]
    exact List.append_ne_nil_of_right_ne_nil _ (List.cons_ne_nil e [])

/-- The tokens of an expression are read as one. -/
theorem exists_run (d : Derivation .expression) : ∃ e r, d.trees source = [e] ∧
    Reads (step source) (start .any) d.yield r ∧ r.finish? = some e := by
  obtain ⟨e, he, h⟩ := d.isRead source
  obtain ⟨stack, e', hreads, -, hclose⟩ := h .any [] (.inl rfl) trivial
  refine ⟨e, _, he, hreads, ?_⟩
  simp only [finish?, hclose 0 (Nat.le_refl 0), close]

/-- The tokens of a primary are read by the reader of operands as well. -/
theorem exists_run_primary (d : Derivation (.tier 12)) (goal : Goal) :
    ∃ e, d.trees source = [e] ∧
      Reads (step source) (start goal) d.yield ⟨goal, [], .operand e⟩ := by
  obtain ⟨e, he, -, h⟩ := d.isRead source
  exact ⟨e, he, h rfl goal []⟩

end Derivation

end Netlist.Grammar
