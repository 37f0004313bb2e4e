/-
What lowering a tree comes to.

A tree may be put together in any way, with any children at any node. Lowering it either yields an
expression and says nothing, or yields nothing and says so in one warning (`Expr.ofTree_outcome`).
The expression then has no part without bits by its very form: the translation refuses braces around
nothing and selections of no bits, at whatever depth they stand (`Expr.gives_solid_ofTree`). Whoever
defines a signal by the tree gets a wire that depends on just the signals that the expression reads.
-/
import Netlist.Module.OfTree
import Netlist.Proofs.Lowering
import Netlist.Proofs.Warnings

set_option autoImplicit false

namespace Netlist.Expr

/-! ## Expressions without bits -/

/-- Braces around nothing, or a selection of no bits. -/
def IsVoid : Expr → Prop
  | concat parts => parts = []
  | partSelect _ _ width => width = 0
  | _ => False

/-- Nothing in the expression is void. -/
def Solid (e : Expr) : Prop :=
  ∀ part ∈ e.subexprs, ¬part.IsVoid

section Solid

variable {e body base condition yes no left right count index : Expr} {es : List Expr}

/-- An expression is solid if it is not void itself and its parts are solid. -/
theorem solid_iff : e.Solid ↔ ¬e.IsVoid ∧ ∀ part ∈ e.parts, part.Solid :=
  forall_mem_subexprs_iff

theorem solid_constant (text : String) : (constant text).Solid :=
  solid_iff.2 ⟨id, by simp [parts]⟩

theorem solid_signal (name : String) : (signal name).Solid :=
  solid_iff.2 ⟨id, by simp [parts]⟩

theorem Solid.binary (hleft : left.Solid) (hright : right.Solid) (op : String) :
    (binary op left right).Solid :=
  solid_iff.2 ⟨id, by simp [parts, hleft, hright]⟩

theorem Solid.unary (h : e.Solid) (op : String) : (unary op e).Solid :=
  solid_iff.2 ⟨id, by simp [parts, h]⟩

theorem Solid.conditional (hc : condition.Solid) (hy : yes.Solid) (hn : no.Solid) :
    (conditional condition yes no).Solid :=
  solid_iff.2 ⟨id, by simp [parts, hc, hy, hn]⟩

theorem solid_concat (hes : es ≠ []) (h : ∀ e ∈ es, e.Solid) : (concat es).Solid :=
  solid_iff.2 ⟨hes, h⟩

theorem Solid.unwrap (h : e.Solid) : (unwrap e).Solid :=
  fun s hs => h s (mem_subexprs_of_unwrap hs)

theorem Solid.replicate (hbody : body.Solid) (hcount : count.Solid) : (replicate body count).Solid :=
  solid_iff.2 ⟨id, by simp [parts, hbody, hcount]⟩

theorem Solid.slice (h : body.Solid) (start stop : Nat) : (slice body start stop).Solid :=
  solid_iff.2 ⟨id, by simp [parts, h]⟩

theorem Solid.partSelect (hbody : body.Solid) (hbase : base.Solid) (size : Nat) :
    (partSelect body base (size + 1)).Solid :=
  solid_iff.2 ⟨Nat.succ_ne_zero size, by simp [parts, hbody, hbase]⟩

theorem Solid.select (hbody : body.Solid) (hindex : index.Solid) : (select body index).Solid :=
  solid_iff.2 ⟨id, by simp [parts, hbody, hindex]⟩

end Solid

/-! ## Lowering -/

section Gives

variable {α β : Type} {P : α → Prop} {Q : β → Prop}

/-- Whatever the work yields has the property. -/
def Gives (P : α → Prop) (x : OptionT Logged α) : Prop :=
  ∀ a, x.run.value = some a → P a

theorem gives_pure {a : α} (h : P a) : Gives P (pure a) := by
  intro b hb
  rwa [← value_pure_eq_some.1 hb]

theorem gives_refuse (location : Option Location) (finding : Finding) :
    Gives P (refuse location finding) :=
  fun _ h => absurd h value_refuse_ne_some

theorem Gives.bind {x : OptionT Logged α} {f : α → OptionT Logged β} (hx : Gives P x)
    (hf : ∀ a, P a → Gives Q (f a)) : Gives Q (x >>= f) := by
  intro b hb
  obtain ⟨a, ha, hb⟩ := value_bind_eq_some.1 hb
  exact hf a (hx a ha) b hb

end Gives

/-- Whatever a bound is, what matters is what is made of it. -/
theorem gives_bound (t : Tree) : Gives (fun _ => True) (bound t) :=
  fun _ _ => trivial

/-- A selection of no bits is refused, upwards and downwards. -/
theorem gives_solid_partSelectOf {body base : Expr} (hbody : body.Solid) (hbase : base.Solid)
    (op width : Tree) : Gives Solid (partSelectOf body base op width) := by
  unfold partSelectOf
  refine (gives_bound width).bind fun size _ => ?_
  split
  · exact gives_refuse _ _
  · next size =>
    split
    · exact gives_pure (hbody.partSelect hbase size)
    · exact gives_pure (hbody.partSelect (hbase.binary (solid_constant _) "-") size)
    · exact gives_refuse _ _

/-- The expression of a tree is solid. The induction is that of the translation, with one case a kind
of node; a node that has the wrong children yields nothing. -/
theorem gives_solid_ofTree (t : Tree) : Gives Solid (ofTree t) := by
  apply ofTree.induct (fun t => Gives Solid (ofTree t))
    (fun ts => Gives (fun es => ∀ e ∈ es, e.Solid) (ofTrees ts))
  case case1 =>
    intros
    rw [ofTree]
    exact gives_pure (solid_signal _)
  case case2 =>
    intros
    rw [ofTree]
    exact gives_pure (solid_constant _)
  case case3 =>
    intro _ e he
    rwa [ofTree]
  case case4 =>
    intro _ condition yes no hc hy hn
    rw [ofTree]
    exact hc.bind fun _ hc => hy.bind fun _ hy => hn.bind fun _ hn => gives_pure (hc.conditional hy hn)
  case case5 =>
    intro _ op e he
    rw [ofTree]
    exact he.bind fun _ he => gives_pure (he.unary _)
  case case6 =>
    intro _ left op right hl hr
    rw [ofTree]
    exact hl.bind fun _ hl => hr.bind fun _ hr => gives_pure (hl.binary hr _)
  case case7 =>
    intro _ part parts hp hps
    rw [ofTree]
    exact hp.bind fun first hfirst => hps.bind fun rest hrest =>
      gives_pure (solid_concat (List.cons_ne_nil first rest)
        (List.forall_mem_cons.2 ⟨hfirst, hrest⟩))
  case case8 =>
    intro _ count inner hc hi
    rw [ofTree]
    exact hc.bind fun _ hc => hi.bind fun _ hi => gives_pure (hi.unwrap.replicate hc)
  case case9 =>
    intro _ e index he hi
    rw [ofTree]
    exact he.bind fun _ he => hi.bind fun _ hi => gives_pure (he.select hi)
  case case10 =>
    intro _ e upper lower he
    rw [ofTree]
    exact he.bind fun _ he => (gives_bound upper).bind fun _ _ => (gives_bound lower).bind fun _ _ =>
      gives_pure (he.slice _ _)
  case case11 =>
    intro _ e base op width he hb
    rw [ofTree]
    exact he.bind fun _ he => hb.bind fun _ hb => gives_solid_partSelectOf he hb op width
  case case12 | case13 =>
    intros
    rw [ofTree]
    · split
      · exact gives_refuse _ _
      · exact gives_refuse _ _
    all_goals assumption
  -- rows
  case case14 =>
    rw [ofTrees]
    exact gives_pure (by simp)
  case case15 =>
    intro t ts ht hts
    rw [ofTrees]
    exact ht.bind fun _ hfirst => hts.bind fun _ hrest =>
      gives_pure (List.forall_mem_cons.2 ⟨hfirst, hrest⟩)

/-! ## Outcomes -/

/-- A tree that has an expression defines a signal by it, and the wire depends on the signals that the
expression reads. -/
theorem define_of_run {t : Tree} {e : Expr} (h : (ofTree t).run = ⟨some e, []⟩) (d : Draft)
    (name : String) (location : Option Location) :
    d.define name t location = ⟨{ d with wires := d.wires ++
      [⟨name, ((d.nets.get? name).map Net.width).getD 1, e, e.signals, location⟩] }, []⟩ := by
  rw [Draft.define, h]
  rfl

/-- Whatever was recorded `earlier`, lowering a tree comes to one of two things. Either there is an
expression, nothing more is recorded, nothing in the expression is without bits by its form, and a
signal defined by the tree depends on just the signals that are read in the expression. Or there is
none, and one more warning is recorded. -/
theorem ofTree_outcome (t : Tree) (earlier : Log) :
    (∃ (e : Expr) (deps : NameSet),
      (do (⟨(), earlier⟩ : Logged Unit); (ofTree t).run) = ⟨some e, earlier⟩ ∧
      (∀ (d : Draft) (name : String) (location : Option Location), ∃ width,
        d.define name t location =
          ⟨{ d with wires := d.wires ++ [⟨name, width, e, deps, location⟩] }, []⟩) ∧
      deps = e.signals ∧ (∀ name, name ∈ deps.keys ↔ signal name ∈ e.subexprs) ∧
      ∀ part ∈ e.subexprs, part ≠ concat [] ∧ ∀ body base, part ≠ partSelect body base 0) ∨
    ∃ (location : Option Location) (finding : Finding),
      (do (⟨(), earlier⟩ : Logged Unit); (ofTree t).run) =
        ⟨none, earlier ++ [⟨.warning, location, finding⟩]⟩ := by
  rcases answers_ofTree t with ⟨e, he⟩ | ⟨location, finding, -, he⟩
  · have hsolid : e.Solid := gives_solid_ofTree t e (by rw [he])
    refine .inl ⟨e, e.signals, ?_, fun d name location => ⟨_, define_of_run he d name location⟩, rfl,
      fun _ => mem_signals, fun part hpart => ⟨?_, ?_⟩⟩
    · rw [he]
      exact Logged.ext rfl (List.append_nil _)
    · rintro rfl
      exact hsolid _ hpart rfl
    · rintro body base rfl
      exact hsolid _ hpart rfl
  · refine .inr ⟨location, finding, ?_⟩
    rw [he]
    rfl

end Netlist.Expr
