/-
The operators of an expression that was read from text.

An expression keeps its operators as written, and evaluation fails at one without a meaning. The
expression of a tree has just the operators of the tree, and a minus where a selection runs
downwards; so the expression of a tree that has the shape of one has only operators with a
meaning (`operatorsKnown_of_ofTree`), and its evaluation never fails for want of one.
-/
import Netlist.Expr.OfTree
import Netlist.Proofs.Evaluation
import Netlist.Proofs.Shapes

set_option autoImplicit false

namespace Netlist.Expr

/-! ## Known operators -/

/-- Every operator in the expression has a meaning. -/
def OperatorsKnown (e : Expr) : Prop :=
  ∀ part ∈ e.subexprs, ∀ op, ¬part.HasUnknown op

section OperatorsKnown

variable {op : String} {e left right : Expr}

/-- The operators of an expression are the one on top and those of its parts. -/
theorem operatorsKnown_iff :
    e.OperatorsKnown ↔ (∀ op, ¬e.HasUnknown op) ∧ ∀ part ∈ e.parts, part.OperatorsKnown :=
  forall_mem_subexprs_iff

theorem operatorsKnown_constant (text : String) : (constant text).OperatorsKnown :=
  operatorsKnown_iff.2 ⟨fun _ => id, by simp [parts]⟩

theorem OperatorsKnown.binary (hop : (BinaryOperator.ofText? op).isSome)
    (hleft : left.OperatorsKnown) (hright : right.OperatorsKnown) :
    (binary op left right).OperatorsKnown := by
  refine operatorsKnown_iff.2 ⟨?_, by simp [parts, hleft, hright]⟩
  rintro _ ⟨rfl, hnone⟩
  rw [hnone] at hop
  cases hop

theorem OperatorsKnown.unary (hop : (UnaryOperator.ofText? op).isSome) (h : e.OperatorsKnown) :
    (unary op e).OperatorsKnown := by
  refine operatorsKnown_iff.2 ⟨?_, by simp [parts, h]⟩
  rintro _ ⟨rfl, hnone⟩
  rw [hnone] at hop
  cases hop

/-- An only item that stands for itself stands in the braces as well. -/
theorem mem_subexprs_of_unwrap {s e : Expr} (h : s ∈ (unwrap e).subexprs) : s ∈ e.subexprs := by
  unfold unwrap at h
  split at h
  · exact mem_subexprs_of_mem_parts List.mem_cons_self h
  · exact h

/-- An only item that stands for itself has the operators that it has in braces. -/
theorem OperatorsKnown.unwrap (h : e.OperatorsKnown) : (unwrap e).OperatorsKnown :=
  fun s hs => h s (mem_subexprs_of_unwrap hs)

end OperatorsKnown

/-! ## Work that may yield nothing -/

section Lowering

variable {α β : Type}

/-- A chain of work yields something only if each link does. -/
theorem value_bind_eq_some {x : OptionT Logged α} {f : α → OptionT Logged β} {b : β} :
    (x >>= f).run.value = some b ↔
      ∃ a, x.run.value = some a ∧ (f a).run.value = some b := by
  rw [OptionT.run_bind, Option.elimM, Logged.value_bind]
  cases x.run.value with
  | none => simp
  | some a => simp

theorem value_pure_eq_some {a b : α} :
    (pure a : OptionT Logged α).run.value = some b ↔ a = b :=
  Option.some_inj

theorem value_refuse_ne_some {location : Option Location} {finding : Finding} {a : α} :
    (refuse location finding : OptionT Logged α).run.value ≠ some a :=
  nofun

end Lowering

/-! ## From trees to expressions -/

variable {e : Expr}

theorem exists_of_ofTrees {ts : List Tree} {es : List Expr}
    (h : (ofTrees ts).run.value = some es) :
    ∀ e ∈ es, ∃ t ∈ ts, (ofTree t).run.value = some e := by
  induction ts generalizing es with
  | nil =>
    rw [ofTrees, value_pure_eq_some] at h
    subst h
    simp
  | cons t ts ih =>
    rw [ofTrees] at h
    obtain ⟨first, hfirst, h⟩ := value_bind_eq_some.1 h
    obtain ⟨rest, hrest, h⟩ := value_bind_eq_some.1 h
    rw [value_pure_eq_some] at h
    subst h
    intro e he
    rcases List.mem_cons.1 he with rfl | he
    · exact ⟨t, List.mem_cons_self, hfirst⟩
    · obtain ⟨t', ht', he'⟩ := ih hrest e he
      exact ⟨t', List.mem_cons_of_mem _ ht', he'⟩

/-- A selection that runs downwards subtracts to find its lowest bit, one that runs upwards
adds nothing. -/
theorem OperatorsKnown.partSelectOf {body base : Expr} {op width : Tree}
    (hbody : body.OperatorsKnown) (hbase : base.OperatorsKnown)
    (h : (partSelectOf body base op width).run.value = some e) : e.OperatorsKnown := by
  rw [Expr.partSelectOf] at h
  obtain ⟨bits, -, h⟩ := value_bind_eq_some.1 h
  split at h
  · exact absurd h value_refuse_ne_some
  · next size =>
    split at h
    · rw [value_pure_eq_some] at h
      subst h
      exact operatorsKnown_iff.2 ⟨fun _ => id, by simp [parts, hbody, hbase]⟩
    · rw [value_pure_eq_some] at h
      subst h
      -- the minus is not written in the tree
      have hminus : (BinaryOperator.ofText? "-").isSome := rfl
      have hlowest := hbase.binary hminus (operatorsKnown_constant (Radix.decimal.numeral size))
      exact operatorsKnown_iff.2 ⟨fun _ => id, by simp [parts, hbody, hlowest]⟩
    · exact absurd h value_refuse_ne_some

/-- The operators of the expression are those of the tree. The induction is on the shape of the
tree, so each case has the children that the translation asks for. -/
theorem operatorsKnown_of_ofTree {t : Tree} (ht : t.IsExpression)
    (h : (ofTree t).run.value = some e) : e.OperatorsKnown := by
  have hname : ∀ {name : Tree} {e : Expr}, name.IsLeaf .simpleIdentifier →
      (ofTree name).run.value = some e → e.OperatorsKnown := by
    rintro _ e ⟨l⟩ h
    rw [ofTree, value_pure_eq_some] at h
    subst h
    exact operatorsKnown_iff.2 ⟨fun _ => id, by simp [parts]⟩
  induction ht generalizing e with
  | name l => exact hname (.intro l) h
  | number l =>
    rw [ofTree, value_pure_eq_some] at h
    exact h ▸ operatorsKnown_constant _
  | parenthesized _ ih =>
    rw [ofTree] at h
    exact ih h
  | conditional _ _ _ ihc ihy ihn =>
    rw [ofTree] at h
    obtain ⟨condition, hc, h⟩ := value_bind_eq_some.1 h
    obtain ⟨yes, hy, h⟩ := value_bind_eq_some.1 h
    obtain ⟨no, hn, h⟩ := value_bind_eq_some.1 h
    rw [value_pure_eq_some] at h
    subst h
    exact operatorsKnown_iff.2 ⟨fun _ => id, by simp [parts, ihc hc, ihy hy, ihn hn]⟩
  | unary hop _ ih =>
    rw [ofTree] at h
    obtain ⟨operand, ho, h⟩ := value_bind_eq_some.1 h
    rw [value_pure_eq_some] at h
    exact h ▸ (ih ho).unary hop.known
  | binary _ hop _ ihl ihr =>
    rw [ofTree] at h
    obtain ⟨left, hl, h⟩ := value_bind_eq_some.1 h
    obtain ⟨right, hr, h⟩ := value_bind_eq_some.1 h
    rw [value_pure_eq_some] at h
    exact h ▸ (ihl hl).binary hop.known (ihr hr)
  | concatenation _ ih =>
    rw [ofTree] at h
    obtain ⟨part, hp, h⟩ := value_bind_eq_some.1 h
    obtain ⟨parts, hps, h⟩ := value_bind_eq_some.1 h
    rw [value_pure_eq_some] at h
    subst h
    refine operatorsKnown_iff.2 ⟨fun _ => id, List.forall_mem_cons.2 ⟨?_, ?_⟩⟩
    · exact ih _ List.mem_cons_self hp
    · intro e he
      obtain ⟨t, ht, he⟩ := exists_of_ofTrees hps e he
      exact ih t (List.mem_cons_of_mem _ ht) he
  | replication _ _ _ ihc ihi =>
    rw [ofTree] at h
    obtain ⟨count, hc, h⟩ := value_bind_eq_some.1 h
    obtain ⟨inner, hi, h⟩ := value_bind_eq_some.1 h
    rw [value_pure_eq_some] at h
    subst h
    -- the braces inside may vanish, and then their only item is the body
    exact operatorsKnown_iff.2 ⟨fun _ => id, by simp [parts, (ihi hi).unwrap, ihc hc]⟩
  | bitSelect hleaf _ ih =>
    rw [ofTree] at h
    obtain ⟨body, hb, h⟩ := value_bind_eq_some.1 h
    obtain ⟨index, hi, h⟩ := value_bind_eq_some.1 h
    rw [value_pure_eq_some] at h
    subst h
    exact operatorsKnown_iff.2 ⟨fun _ => id, by simp [parts, hname hleaf hb, ih hi]⟩
  | rangeSelect hleaf _ _ _ _ =>
    rw [ofTree] at h
    obtain ⟨body, hb, h⟩ := value_bind_eq_some.1 h
    -- bounds are numbers by now and have no operators
    obtain ⟨stop, -, h⟩ := value_bind_eq_some.1 h
    obtain ⟨start, -, h⟩ := value_bind_eq_some.1 h
    rw [value_pure_eq_some] at h
    subst h
    exact operatorsKnown_iff.2 ⟨fun _ => id, by simp [parts, hname hleaf hb]⟩
  | indexedRangeSelect hleaf _ _ _ ihb _ =>
    rw [ofTree] at h
    obtain ⟨body, hb, h⟩ := value_bind_eq_some.1 h
    obtain ⟨base, hs, h⟩ := value_bind_eq_some.1 h
    exact (hname hleaf hb).partSelectOf (ihb hs) h

end Netlist.Expr
