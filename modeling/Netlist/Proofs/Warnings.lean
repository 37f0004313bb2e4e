/-
What work records.

Most of what can be said about diagnostics is said of one entry at a time: all that some work
records has a property (`Logged.Records`), and this goes through work in sequence and through rows
of work. Lowering an expression records the least that is possible: nothing if the tree has an
expression, and a single warning if it has none (`Expr.answers_ofTree`).
-/
import Netlist.Expr.OfTree

set_option autoImplicit false

namespace Netlist

/-! ## Kinds of findings -/

namespace Finding

/-- The finding is about a tree that is no expression. -/
def isAboutExpression : Finding → Bool
  | malformedNode _ _ | unsupportedNode _ _ | unusableBound _ | emptyPartSelect _
  | unsupportedPartSelect _ => true
  | _ => false

/-- The finding is about a declaration or a definition that does not go with what was read before
it. -/
def isAboutDeclaration : Finding → Bool
  | unusableRange _ | repeatedPort _ | undeclaredPort _ | assignedInput _ | changedWidth _ _ _
  | repeatedNet _ | unsupportedTarget _ | undeclaredTarget _ | skippedDefinition _ => true
  | _ => false

/-- The finding says that a wire was made and then left out, for the name that it has. -/
def dropsWire : Finding → Bool
  | wireNamedAsInput _ | repeatedWire _ => true
  | _ => false

theorem not_dropsWire_of_isAboutExpression {f : Finding} (h : f.isAboutExpression = true) :
    f.dropsWire = false := by
  cases f <;> simp [isAboutExpression, dropsWire] at h ⊢

theorem not_dropsWire_of_isAboutDeclaration {f : Finding} (h : f.isAboutDeclaration = true) :
    f.dropsWire = false := by
  cases f <;> simp [isAboutDeclaration, dropsWire] at h ⊢

end Finding

/-! ## Warnings among diagnostics -/

namespace Log

@[simp] theorem warnings_nil : warnings [] = [] := rfl

@[simp] theorem warnings_append (a b : Log) : warnings (a ++ b) = a.warnings ++ b.warnings :=
  List.filter_append ..

end Log

namespace Logged

variable {α β σ : Type} {P : Diagnostic → Prop}

@[simp] theorem log_warn (location : Option Location) (finding : Finding) :
    (warn location finding).log = [⟨.warning, location, finding⟩] := rfl

/-! ## What all entries have in common -/

/-- Everything that the work records has the property. -/
def Records (P : Diagnostic → Prop) (x : Logged α) : Prop :=
  ∀ d ∈ x.log, P d

theorem Records.pure (a : α) : Records P (pure a) := by
  simp [Records]

theorem records_warn {location : Option Location} {finding : Finding}
    (h : P ⟨.warning, location, finding⟩) : Records P (warn location finding) := by
  simpa [Records] using h

theorem Records.bind {x : Logged α} {f : α → Logged β} (hx : Records P x)
    (hf : Records P (f x.value)) : Records P (x >>= f) := by
  intro d hd
  rw [log_bind] at hd
  rcases List.mem_append.1 hd with hd | hd
  · exact hx d hd
  · exact hf d hd

theorem Records.foldlM {f : σ → α → Logged σ} {xs : List α}
    (h : ∀ s, ∀ x ∈ xs, Records P (f s x)) (s : σ) : Records P (xs.foldlM f s) := by
  induction xs generalizing s with
  | nil => exact .pure s
  | cons x xs ih =>
    rw [List.foldlM_cons]
    exact (h s x List.mem_cons_self).bind (ih (fun s y hy => h s y (List.mem_cons_of_mem _ hy)) _)

/-- Work that only records a warning and goes on with what it has. -/
theorem records_warn_pure {location : Option Location} {finding : Finding}
    (h : P ⟨.warning, location, finding⟩) (a : α) :
    Records P (do
      warn location finding
      return a) :=
  (records_warn h).bind (.pure a)

/-- A row of work records what its members record. -/
theorem log_forM (f : α → Logged PUnit) (xs : List α) :
    (xs.forM f).log = xs.flatMap fun x => (f x).log := by
  induction xs with
  | nil => rfl
  | cons x xs ih =>
    show (f x).log ++ (xs.forM f).log = _
    rw [ih, List.flatMap_cons]

theorem Records.forM {f : α → Logged PUnit} {xs : List α} (h : ∀ x ∈ xs, Records P (f x)) :
    Records P (xs.forM f) := by
  intro d hd
  rw [log_forM] at hd
  obtain ⟨x, hx, hd⟩ := List.mem_flatMap.1 hd
  exact h x hx d hd

end Logged

/-! ## Lowering -/

namespace Expr

variable {α β : Type}

/-- The work yields something and records nothing, or yields nothing and records one warning, which
is about a tree that is no expression. -/
def Answers (x : OptionT Logged α) : Prop :=
  (∃ a, x.run = ⟨some a, []⟩) ∨
  ∃ location finding, finding.isAboutExpression = true ∧
    x.run = ⟨none, [⟨.warning, location, finding⟩]⟩

theorem Answers.pure (a : α) : Answers (pure a) :=
  .inl ⟨a, rfl⟩

theorem answers_refuse {location : Option Location} {finding : Finding}
    (h : finding.isAboutExpression = true) :
    Answers (refuse location finding : OptionT Logged α) :=
  .inr ⟨location, finding, h, rfl⟩

/-- Work that yields something and records nothing leaves all to what follows. -/
theorem run_bind_of_some {x : OptionT Logged α} {f : α → OptionT Logged β} {a : α}
    (hx : x.run = ⟨some a, []⟩) : (x >>= f).run = (f a).run := by
  rw [OptionT.run_bind, hx]
  rfl

theorem Answers.bind {x : OptionT Logged α} {f : α → OptionT Logged β} (hx : Answers x)
    (hf : ∀ a, Answers (f a)) : Answers (x >>= f) := by
  rcases hx with ⟨a, ha⟩ | ⟨location, finding, hfinding, ha⟩
  · rw [Answers, run_bind_of_some ha]
    exact hf a
  · refine .inr ⟨location, finding, hfinding, ?_⟩
    rw [OptionT.run_bind, ha]
    rfl

theorem answers_bound (t : Tree) : Answers (bound t) := by
  unfold bound
  split
  · exact .pure _
  · exact answers_refuse rfl

theorem answers_partSelectOf (body base : Expr) (op width : Tree) :
    Answers (partSelectOf body base op width) := by
  unfold partSelectOf
  refine (answers_bound width).bind fun size => ?_
  split
  · exact answers_refuse rfl
  · split
    · exact .pure _
    · exact .pure _
    · exact answers_refuse rfl

/-- A tree has an expression and nothing is recorded, or it has none and one warning says why. The
first part that has none ends the work, so that no second part is heard. -/
theorem answers_ofTree (t : Tree) : Answers (ofTree t) := by
  apply ofTree.induct (fun t => Answers (ofTree t)) (fun ts => Answers (ofTrees ts))
  -- names and numbers
  case case1 | case2 =>
    intros
    rw [ofTree]
    exact .pure _
  case case3 =>
    intro _ e he
    rwa [ofTree]
  case case4 =>
    intro _ condition yes no hc hy hn
    rw [ofTree]
    exact hc.bind fun _ => hy.bind fun _ => hn.bind fun _ => .pure _
  case case5 =>
    intro _ op e he
    rw [ofTree]
    exact he.bind fun _ => .pure _
  case case6 =>
    intro _ left op right hl hr
    rw [ofTree]
    exact hl.bind fun _ => hr.bind fun _ => .pure _
  case case7 =>
    intro _ part parts hp hps
    rw [ofTree]
    exact hp.bind fun _ => hps.bind fun _ => .pure _
  case case8 =>
    intro _ count inner hc hi
    rw [ofTree]
    exact hc.bind fun _ => hi.bind fun _ => .pure _
  case case9 =>
    intro _ e index he hi
    rw [ofTree]
    exact he.bind fun _ => hi.bind fun _ => .pure _
  case case10 =>
    intro _ e upper lower he
    rw [ofTree]
    exact he.bind fun _ => (answers_bound upper).bind fun _ => (answers_bound lower).bind fun _ =>
      .pure _
  case case11 =>
    intro _ e base op width he hb
    rw [ofTree]
    exact he.bind fun _ => hb.bind fun _ => answers_partSelectOf _ _ _ _
  -- no expression has this kind and these children
  case case12 | case13 =>
    intros
    rw [ofTree]
    · split
      · exact answers_refuse rfl
      · exact answers_refuse rfl
    all_goals assumption
  -- rows
  case case14 =>
    rw [ofTrees]
    exact .pure _
  case case15 =>
    intro t ts ht hts
    rw [ofTrees]
    exact ht.bind fun _ => hts.bind fun _ => .pure _

/-- A tree that stands for an expression stands for it without a word. -/
theorem run_ofTree_of_value {t : Tree} {e : Expr} (h : (ofTree t).run.value = some e) :
    (ofTree t).run = ⟨some e, []⟩ := by
  rcases answers_ofTree t with ⟨e', he⟩ | ⟨_, _, -, he⟩
  · rw [he] at h ⊢
    rw [show e' = e from Option.some.inj h]
  · rw [he] at h
    cases h

theorem records_ofTree {P : Diagnostic → Prop} (t : Tree)
    (h : ∀ location finding, finding.isAboutExpression = true →
      P ⟨.warning, location, finding⟩) : (ofTree t).run.Records P := by
  rcases answers_ofTree t with ⟨e, he⟩ | ⟨location, finding, hfinding, he⟩
  · rw [he]
    exact .pure _
  · rw [he]
    intro d hd
    rw [List.mem_singleton.1 hd]
    exact h location finding hfinding

end Expr

end Netlist
