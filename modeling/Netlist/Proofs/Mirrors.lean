/-
Expressions of trees that stand elsewhere.

When a tree is carried over to another text, the words in it must still be read there: names,
numbers, operators (`Relocation.Keeps`). A larger node may cover something new, such as a blank that
was put in between two of its words; its text is never used but to say what is wrong. So work on the
tree that was carried over mirrors the work on the tree itself (`Logged.Mirrors`): the result is the
same, as many warnings are recorded, each as serious and about the same place, and if all nodes have
kept their text (`exact`), then each is about the same matter too.
-/
import Netlist.Proofs.Refusals
import Netlist.Proofs.Relocation

set_option autoImplicit false

namespace Netlist

variable {g : Relocation} {exact : Prop}

/-! ## Texts of nodes -/

/-- The words in the tree have their text where they have gone, and so has every other node if
`exact`. An error node is no word, and its text is never read. -/
def Relocation.Keeps (g : Relocation) (exact : Prop) (t : Tree) : Prop :=
  t.Everywhere fun node => exact ∨ node.children = [] ∧ node.kind ≠ .error →
    (g.location node.location).text = node.text

namespace Relocation

variable {t : Tree} {k : NodeKind} {l : Location} {ts : List Tree}

theorem Keeps.child (h : g.Keeps exact (.node k l ts)) : ∀ t ∈ ts, g.Keeps exact t := by
  obtain ⟨-, hts⟩ := h
  exact hts

theorem Keeps.of_mem_children {c : Tree} (h : g.Keeps exact t) (hc : c ∈ t.children) :
    g.Keeps exact c := by
  cases t
  exact h.child c hc

theorem Keeps.text (h : g.Keeps exact t) (hexact : exact) : (t.relocate g).text = t.text := by
  obtain ⟨hnode, -⟩ := h
  rw [Tree.text, Tree.location_relocate]
  exact hnode (.inl hexact)

theorem Keeps.leaf (h : g.Keeps exact t) (ht : t.IsLeaf k) (hk : k ≠ .error) :
    (t.relocate g).text = t.text := by
  obtain ⟨l⟩ := ht
  obtain ⟨hnode, -⟩ := h
  rw [Tree.text, Tree.location_relocate]
  exact hnode (.inr ⟨rfl, hk⟩)

theorem Keeps.word (h : g.Keeps exact t) (ht : t.IsLeaf k) (hk : k ≠ .error) :
    (t.relocate g).word = t.word := by
  rw [Tree.word, h.leaf ht hk, Tree.word]

end Relocation

/-! ## Work and its mirror image -/

/-- The second diagnostic is the first one elsewhere: it is as serious, in the place where that of
the first has gone, and if `exact` about the same matter. -/
structure Diagnostic.Mirrors (g : Relocation) (exact : Prop) (d d' : Diagnostic) : Prop where
  severity : d'.severity = d.severity
  location : d'.location = d.location.map g.location
  finding : exact → d'.finding = d.finding

/-- The second work is the first one elsewhere: it yields the image of what the first yields, and
its diagnostics are those of the first one elsewhere, one by one. -/
structure Logged.Mirrors {α β : Type} (g : Relocation) (exact : Prop) (f : α → β) (x : Logged α)
    (y : Logged β) : Prop where
  value : y.value = f x.value
  log : List.Forall₂ (Diagnostic.Mirrors g exact) x.log y.log

namespace Logged.Mirrors

variable {α β γ δ : Type} {f : α → β} {h : γ → δ} {x : Logged α} {y : Logged β}

theorem pure {a : α} {b : β} (hab : b = f a) : Mirrors g exact f (pure a) (pure b) :=
  ⟨hab, .nil⟩

theorem bind {k : α → Logged γ} {k' : β → Logged δ} (hx : Mirrors g exact f x y)
    (hk : Mirrors g exact h (k x.value) (k' (f x.value))) :
    Mirrors g exact h (x >>= k) (y >>= k') := by
  refine ⟨?_, ?_⟩
  · rw [Logged.value_bind, Logged.value_bind, hx.value]
    exact hk.value
  · rw [Logged.log_bind, Logged.log_bind, hx.value]
    exact List.rel_append hx.log hk.log

theorem warn {location : Option Location} {finding finding' : Finding}
    (h : exact → finding' = finding) : Mirrors g exact id (Logged.warn location finding)
      (Logged.warn (location.map g.location) finding') :=
  ⟨rfl, .cons ⟨rfl, rfl, h⟩ .nil⟩

/-- Work that records a warning and goes on with what it has. -/
theorem warn_pure {location : Option Location} {finding finding' : Finding}
    (h : exact → finding' = finding) {a : α} {b : β} (hab : b = f a) :
    Mirrors g exact f
      (do
        Logged.warn location finding
        return a)
      (do
        Logged.warn (location.map g.location) finding'
        return b) :=
  (warn h).bind (.pure hab)

/-- Rows of work, member by member. -/
theorem foldlM {σ τ : Type} {image : σ → τ} {step : σ → α → Logged σ} {step' : τ → β → Logged τ}
    {xs : List α} (hstep : ∀ s, ∀ x ∈ xs, Mirrors g exact image (step s x) (step' (image s) (f x)))
    (s : σ) : Mirrors g exact image (xs.foldlM step s) ((xs.map f).foldlM step' (image s)) := by
  induction xs generalizing s with
  | nil => exact .pure rfl
  | cons x xs ih =>
    rw [List.map_cons, List.foldlM_cons, List.foldlM_cons]
    exact (hstep s x List.mem_cons_self).bind
      (ih (fun s y hy => hstep s y (List.mem_cons_of_mem _ hy)) _)

theorem forM {step : α → Logged PUnit} {step' : β → Logged PUnit} {xs : List α}
    (hstep : ∀ x ∈ xs, Mirrors g exact id (step x) (step' (f x))) :
    Mirrors g exact id (xs.forM step) ((xs.map f).forM step') := by
  induction xs with
  | nil => exact .pure rfl
  | cons x xs ih =>
    exact (hstep x List.mem_cons_self).bind (ih fun y hy => hstep y (List.mem_cons_of_mem _ hy))

end Logged.Mirrors

/-! ## Constants -/

namespace Tree.IsExpression

variable {t : Tree}

/-- A constant is the same number elsewhere. The induction is on the shape of the tree: its numbers
and operators are words. -/
theorem constant?_relocate (h : t.IsExpression) (hg : g.Keeps exact t) :
    (t.relocate g).constant? = t.constant? := by
  induction h with
  | number l =>
    have htext := hg.leaf (.intro l) (by decide)
    rw [text, location_relocate, text] at htext
    rw [relocate_node, constant?, constant?]
    rw [location_node] at htext
    rw [htext]
  | parenthesized _ ih =>
    rw [relocate_node, List.map_singleton, constant?, constant?]
    exact ih (hg.child _ List.mem_cons_self)
  | @unary l op e hop _ ih =>
    have hword := (hg.child op (by simp)).leaf hop.leaf (by decide)
    rw [relocate_node, List.map_cons, List.map_singleton, constant?, constant?, hword,
      ih (hg.child _ (by simp))]
  | @binary l left op right _ hop _ ihl ihr =>
    have hword := (hg.child op (by simp)).leaf hop.leaf (by decide)
    rw [relocate_node, List.map_cons, List.map_cons, List.map_singleton, constant?, constant?,
      hword, ihl (hg.child _ (by simp)), ihr (hg.child _ (by simp))]
  | _ => simp [constant?]

theorem natConstant?_relocate (h : t.IsExpression) (hg : g.Keeps exact t) :
    (t.relocate g).natConstant? = t.natConstant? := by
  rw [natConstant?, natConstant?, h.constant?_relocate hg]

end Tree.IsExpression

/-! ## Expressions -/

namespace Expr

variable {α β : Type}

theorem mirrors_refuse {location : Option Location} {finding finding' : Finding}
    (h : exact → finding' = finding) :
    Logged.Mirrors g exact id (refuse location finding : OptionT Logged α).run
      (refuse (location.map g.location) finding' : OptionT Logged α).run :=
  .warn_pure h rfl

/-- Work that may yield nothing, in sequence. -/
theorem mirrors_bind {x y : OptionT Logged α} {k k' : α → OptionT Logged β}
    (hx : Logged.Mirrors g exact id x.run y.run)
    (hk : ∀ a, Logged.Mirrors g exact id (k a).run (k' a).run) :
    Logged.Mirrors g exact id (x >>= k).run (y >>= k').run := by
  rw [OptionT.run_bind, OptionT.run_bind]
  refine hx.bind ?_
  cases x.run.value with
  | none => exact .pure rfl
  | some a => exact hk a

theorem mirrors_pure (a : α) :
    Logged.Mirrors g exact id (pure a : OptionT Logged α).run (pure a : OptionT Logged α).run :=
  .pure rfl

variable {t : Tree}

theorem mirrors_bound (h : t.IsExpression) (hg : g.Keeps exact t) :
    Logged.Mirrors g exact id (bound t).run (bound (t.relocate g)).run := by
  rw [bound, bound, h.natConstant?_relocate hg, Tree.location?_relocate]
  cases t.natConstant? with
  | none =>
    refine mirrors_refuse fun hexact => ?_
    rw [hg.text hexact]
  | some n => exact mirrors_pure n

theorem mirrors_partSelectOf (body base : Expr) {op width : Tree} (hop : op.IsRangeOperator)
    (hwidth : width.IsExpression) (hgop : g.Keeps exact op) (hgwidth : g.Keeps exact width) :
    Logged.Mirrors g exact id (partSelectOf body base op width).run
      (partSelectOf body base (op.relocate g) (width.relocate g)).run := by
  refine mirrors_bind (mirrors_bound hwidth hgwidth) fun size => ?_
  rw [hgop.leaf hop.leaf (by decide), Tree.location?_relocate, Tree.location?_relocate]
  split
  · refine mirrors_refuse fun hexact => ?_
    rw [hgwidth.text hexact]
  · split
    · exact mirrors_pure _
    · exact mirrors_pure _
    · exact mirrors_refuse fun _ => rfl

theorem mirrors_ofTrees {ts : List Tree}
    (h : ∀ t ∈ ts, Logged.Mirrors g exact id (ofTree t).run (ofTree (t.relocate g)).run) :
    Logged.Mirrors g exact id (ofTrees ts).run (ofTrees (ts.map (Tree.relocate g))).run := by
  induction ts with
  | nil => exact mirrors_pure []
  | cons t ts ih =>
    rw [List.map_cons, ofTrees, ofTrees]
    have hrest := ih fun t' ht' => h t' (List.mem_cons_of_mem _ ht')
    exact mirrors_bind (h t List.mem_cons_self) fun _ => mirrors_bind hrest fun _ => mirrors_pure _

/-- A tree has the same expression elsewhere. The induction is on its shape. -/
theorem mirrors_ofTree (h : t.IsExpression) (hg : g.Keeps exact t) :
    Logged.Mirrors g exact id (ofTree t).run (ofTree (t.relocate g)).run := by
  have hname : ∀ {name : Tree}, name.IsLeaf .simpleIdentifier → g.Keeps exact name →
      Logged.Mirrors g exact id (ofTree name).run (ofTree (name.relocate g)).run := by
    intro name hleaf hg
    have htext := hg.leaf hleaf (by decide)
    obtain ⟨l⟩ := hleaf
    rw [Tree.relocate_node] at htext ⊢
    rw [ofTree, ofTree]
    rw [Tree.text, Tree.text, Tree.location_node, Tree.location_node] at htext
    rw [htext]
    exact mirrors_pure _
  induction h with
  | name l => exact hname (.intro l) hg
  | number l =>
    have htext := hg.leaf (.intro l) (by decide)
    rw [Tree.relocate_node] at htext ⊢
    rw [ofTree, ofTree]
    rw [Tree.text, Tree.text, Tree.location_node, Tree.location_node] at htext
    rw [htext]
    exact mirrors_pure _
  | parenthesized _ ih =>
    rw [Tree.relocate_node, List.map_singleton, ofTree, ofTree]
    exact ih (hg.child _ List.mem_cons_self)
  | conditional _ _ _ ihc ihy ihn =>
    simp only [Tree.relocate_node, List.map_cons, List.map_nil, ofTree]
    exact mirrors_bind (ihc (hg.child _ (by simp))) fun _ =>
      mirrors_bind (ihy (hg.child _ (by simp))) fun _ =>
        mirrors_bind (ihn (hg.child _ (by simp))) fun _ => mirrors_pure _
  | @unary l op e hop _ ih =>
    simp only [Tree.relocate_node, List.map_cons, List.map_nil, ofTree]
    rw [(hg.child op (by simp)).leaf hop.leaf (by decide)]
    exact mirrors_bind (ih (hg.child _ (by simp))) fun _ => mirrors_pure _
  | @binary l left op right _ hop _ ihl ihr =>
    simp only [Tree.relocate_node, List.map_cons, List.map_nil, ofTree]
    rw [(hg.child op (by simp)).leaf hop.leaf (by decide)]
    exact mirrors_bind (ihl (hg.child _ (by simp))) fun _ =>
      mirrors_bind (ihr (hg.child _ (by simp))) fun _ => mirrors_pure _
  | concatenation _ ih =>
    simp only [Tree.relocate_node, List.map_cons, ofTree]
    have hparts := mirrors_ofTrees fun t ht =>
      ih t (List.mem_cons_of_mem _ ht) (hg.child t (List.mem_cons_of_mem _ ht))
    exact mirrors_bind (ih _ List.mem_cons_self (hg.child _ List.mem_cons_self)) fun _ =>
      mirrors_bind hparts fun _ => mirrors_pure _
  | replication _ _ _ ihc ihi =>
    simp only [Tree.relocate_node, List.map_cons, List.map_nil, ofTree]
    exact mirrors_bind (ihc (hg.child _ (by simp))) fun _ =>
      mirrors_bind (ihi (hg.child _ (by simp))) fun _ => mirrors_pure _
  | bitSelect hleaf _ ih =>
    simp only [Tree.relocate_node, List.map_cons, List.map_nil, ofTree]
    exact mirrors_bind (hname hleaf (hg.child _ (by simp))) fun _ =>
      mirrors_bind (ih (hg.child _ (by simp))) fun _ => mirrors_pure _
  | rangeSelect hleaf hupper hlower _ _ =>
    simp only [Tree.relocate_node, List.map_cons, List.map_nil, ofTree]
    exact mirrors_bind (hname hleaf (hg.child _ (by simp))) fun _ =>
      mirrors_bind (mirrors_bound hupper (hg.child _ (by simp))) fun _ =>
        mirrors_bind (mirrors_bound hlower (hg.child _ (by simp))) fun _ => mirrors_pure _
  | indexedRangeSelect hleaf _ hop hwidth ihb _ =>
    simp only [Tree.relocate_node, List.map_cons, List.map_nil, ofTree]
    exact mirrors_bind (hname hleaf (hg.child _ (by simp))) fun _ =>
      mirrors_bind (ihb (hg.child _ (by simp))) fun _ =>
        mirrors_partSelectOf _ _ hop hwidth (hg.child _ (by simp)) (hg.child _ (by simp))

end Expr

end Netlist
