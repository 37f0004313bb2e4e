/-
Why a tree that was read has no expression.

The reader builds trees of the shapes that the translation to expressions knows, so nearly all that
can go wrong in a tree put together by hand cannot go wrong in one that was read. What is left is a
matter of numbers and not of shape: the bounds of a selection have to be constants, none below zero,
and a selection of a given size must not be empty (`Tree.Refuses`). Just the trees that hold such a
selection have no expression, and the one warning is about a bound of such a selection
(`settles_of_isExpression`). So no message about a shape is ever heard for a text.
-/
import Netlist.Proofs.WellFormed

set_option autoImplicit false

namespace Netlist

/-! ## Bounds -/

namespace Tree

/-- The tree is the other one or stands somewhere in it. -/
inductive Within (s : Tree) : Tree → Prop
  | self : Within s s
  | inside {k : NodeKind} {l : Location} {ts : List Tree} {t : Tree} :
      t ∈ ts → Within s t → Within s (.node k l ts)

/-- The parts of a selection that have to be constants. -/
def bounds : Tree → List Tree
  | node .rangeSelect _ [_, upper, lower] => [upper, lower]
  | node .indexedRangeSelect _ [_, _, _, width] => [width]
  | _ => []

/-- A bound of the selection cannot be used, and why: it is no constant, or one below zero, or it is
the size of the selection and says that there are no bits. -/
inductive Refuses (s bound : Tree) : Finding → Prop
  | unusable : bound ∈ s.bounds → bound.natConstant? = none →
      Refuses s bound (.unusableBound bound.text)
  | empty : s.kind = .indexedRangeSelect → bound ∈ s.bounds → bound.natConstant? = some 0 →
      Refuses s bound (.emptyPartSelect bound.text)

/-- Some selection in the tree has a bound that cannot be used. -/
def Flawed (t bound : Tree) (f : Finding) : Prop :=
  ∃ s : Tree, s.Within t ∧ s.Refuses bound f

section Flawed

variable {k : NodeKind} {l : Location} {ts : List Tree} {t bound : Tree} {f : Finding}

theorem flawed_node :
    (node k l ts).Flawed bound f ↔
      (node k l ts).Refuses bound f ∨ ∃ t ∈ ts, t.Flawed bound f := by
  constructor
  · rintro ⟨s, hwithin, hs⟩
    cases hwithin with
    | self => exact .inl hs
    | inside ht hwithin => exact .inr ⟨_, ht, s, hwithin, hs⟩
  · rintro (hnode | ⟨t, ht, s, hwithin, hs⟩)
    · exact ⟨_, .self, hnode⟩
    · exact ⟨s, .inside ht hwithin, hs⟩

/-- A node that is no selection has no flaws but those of its children. -/
theorem flawed_node_of_bounds (h : (node k l ts).bounds = []) :
    (node k l ts).Flawed bound f ↔ ∃ t ∈ ts, t.Flawed bound f := by
  refine flawed_node.trans (or_iff_right fun hnode => ?_)
  cases hnode with
  | unusable hbound _ => simp [h] at hbound
  | empty _ hbound _ => simp [h] at hbound

theorem IsLeaf.not_flawed (h : t.IsLeaf k) (hk : k ≠ .rangeSelect ∧ k ≠ .indexedRangeSelect) :
    ¬t.Flawed bound f := by
  obtain ⟨l⟩ := h
  have hbounds : (node k l []).bounds = [] := by
    unfold bounds
    split <;> simp_all
  simp [flawed_node_of_bounds hbounds]

/-- Selections are no constants and do not occur in any. -/
theorem IsExpression.not_flawed_of_constant {n : Int} (h : t.IsExpression)
    (hn : t.constant? = some n) : ¬t.Flawed bound f := by
  induction h generalizing n with
  | number l => exact (IsLeaf.intro l).not_flawed (by decide)
  | parenthesized _ ih =>
    rw [constant?] at hn
    rw [flawed_node_of_bounds rfl]
    simpa using ih hn
  | unary hop _ ih =>
    rw [constant?] at hn
    rw [flawed_node_of_bounds rfl]
    split at hn
    · cases hn
    · next m hm => simpa [hop.leaf.not_flawed (by decide)] using ih hm
  | binary _ hop _ ihl ihr =>
    rw [constant?] at hn
    rw [flawed_node_of_bounds rfl]
    split at hn
    · next m n' hleft hright =>
      simpa [hop.leaf.not_flawed (by decide)] using ⟨ihl hleft, ihr hright⟩
    · cases hn
  | _ => simp [constant?] at hn

/-- A bound that can be used has no flaws of its own. -/
theorem IsExpression.not_flawed_of_natConstant (h : t.IsExpression) (hn : t.natConstant? ≠ none) :
    ¬t.Flawed bound f := by
  unfold natConstant? at hn
  split at hn
  · next n hconstant => exact h.not_flawed_of_constant hconstant
  · exact absurd rfl hn

end Flawed

end Tree

/-! ## Translation -/

namespace Expr

variable {α β : Type}

/-- The work yields something, records nothing and there are no flaws; or it yields nothing and
records just one warning, which names a flaw. -/
def Settles (flaws : Tree → Finding → Prop) (x : OptionT Logged α) : Prop :=
  ((∃ a, x.run = ⟨some a, []⟩) ∧ ∀ bound f, ¬flaws bound f) ∨
  ∃ bound f, flaws bound f ∧ x.run = ⟨none, [⟨.warning, bound.location?, f⟩]⟩

section Settles

variable {flaws more : Tree → Finding → Prop} {x : OptionT Logged α}

theorem settles_pure (a : α) : Settles (fun _ _ => False) (pure a) :=
  .inl ⟨⟨a, rfl⟩, fun _ _ => id⟩

theorem Settles.bind {g : α → OptionT Logged β} (hx : Settles flaws x)
    (hg : ∀ a, Settles more (g a)) :
    Settles (fun bound f => flaws bound f ∨ more bound f) (x >>= g) := by
  rcases hx with ⟨⟨a, ha⟩, hnone⟩ | ⟨bound, f, hflaw, hrun⟩
  · rw [Settles, run_bind_of_some ha]
    rcases hg a with ⟨hb, hmore⟩ | ⟨bound, f, hflaw, hrun⟩
    · exact .inl ⟨hb, fun bound f hf => hf.elim (hnone bound f) (hmore bound f)⟩
    · exact .inr ⟨bound, f, .inr hflaw, hrun⟩
  · refine .inr ⟨bound, f, .inl hflaw, ?_⟩
    rw [OptionT.run_bind, hrun]
    rfl

/-- More flaws may be named, as long as there are none where there were none. -/
theorem Settles.widen (h : Settles flaws x) (himp : ∀ bound f, flaws bound f → more bound f)
    (hnone : (∀ bound f, ¬flaws bound f) → ∀ bound f, ¬more bound f) : Settles more x := by
  rcases h with ⟨hx, hflaws⟩ | ⟨bound, f, hflaw, hrun⟩
  · exact .inl ⟨hx, hnone hflaws⟩
  · exact .inr ⟨bound, f, himp bound f hflaw, hrun⟩

theorem Settles.congr (h : Settles flaws x) (hiff : ∀ bound f, flaws bound f ↔ more bound f) :
    Settles more x :=
  h.widen (fun bound f => (hiff bound f).1) fun hnone bound f hf =>
    hnone bound f ((hiff bound f).2 hf)

end Settles

/-! ### Bounds -/

theorem settles_bound (t : Tree) :
    Settles (fun b f => b = t ∧ t.natConstant? = none ∧ f = .unusableBound t.text) (bound t) := by
  unfold bound
  split
  · next n hn => exact .inl ⟨⟨n, rfl⟩, by simp [hn]⟩
  · exact .inr ⟨t, _, ⟨rfl, ‹_›, rfl⟩, rfl⟩

/-- The size of a selection is a bound that is not zero, whatever the rest of the selection. -/
theorem settles_partSelectOf (body base : Expr) {op : Tree} (hop : op.IsRangeOperator)
    (width : Tree) :
    Settles (fun b f => b = width ∧ (width.natConstant? = none ∧ f = .unusableBound width.text ∨
      width.natConstant? = some 0 ∧ f = .emptyPartSelect width.text))
      (partSelectOf body base op width) := by
  unfold partSelectOf bound
  cases hwidth : width.natConstant? with
  | none => exact .inr ⟨width, _, ⟨rfl, .inl ⟨rfl, rfl⟩⟩, rfl⟩
  | some n =>
    cases n with
    | zero => exact .inr ⟨width, _, ⟨rfl, .inr ⟨rfl, rfl⟩⟩, rfl⟩
    | succ size =>
      refine .inl ⟨?_, by simp⟩
      -- both operators that announce a size have a counterpart
      rw [pure_bind]
      rcases hop.known with htext | htext
      · rw [htext]
        exact ⟨_, rfl⟩
      · rw [htext]
        exact ⟨_, rfl⟩

/-! ### Trees -/

theorem settles_ofTrees {ts : List Tree} (h : ∀ t ∈ ts, Settles t.Flawed (ofTree t)) :
    Settles (fun bound f => ∃ t ∈ ts, t.Flawed bound f) (ofTrees ts) := by
  induction ts with
  | nil =>
    rw [ofTrees]
    exact (settles_pure _).congr (by simp)
  | cons t ts ih =>
    rw [ofTrees]
    have hfirst := h t List.mem_cons_self
    have hrest := ih fun t' ht' => h t' (List.mem_cons_of_mem _ ht')
    exact (hfirst.bind fun _ => hrest.bind fun _ => settles_pure _).congr (by simp)

/-- A tree of the shape of an expression has one if and only if no selection in it has a bound that
cannot be used, and if it has none, the only warning names such a bound. The induction is on the
shape: a node that is no selection settles what its children settle. -/
theorem settles_of_isExpression {t : Tree} (h : t.IsExpression) : Settles t.Flawed (ofTree t) := by
  have hname : ∀ {name : Tree}, name.IsLeaf .simpleIdentifier →
      Settles (fun _ _ => False) (ofTree name) := by
    rintro _ ⟨l⟩
    rw [ofTree]
    exact settles_pure _
  induction h with
  | name l =>
    refine (hname (.intro l)).congr fun _ _ => ?_
    simp [(Tree.IsLeaf.intro (k := .simpleIdentifier) l).not_flawed (by decide)]
  | number l =>
    rw [ofTree]
    refine (settles_pure _).congr fun _ _ => ?_
    simp [(Tree.IsLeaf.intro (k := .number) l).not_flawed (by decide)]
  | parenthesized _ ih =>
    rw [ofTree]
    refine ih.congr fun _ _ => ?_
    rw [Tree.flawed_node_of_bounds rfl]
    simp
  | conditional _ _ _ ihc ihy ihn =>
    rw [ofTree]
    refine Settles.congr (ihc.bind fun _ => ihy.bind fun _ => ihn.bind fun _ => settles_pure _)
      fun _ _ => ?_
    rw [Tree.flawed_node_of_bounds rfl]
    simp
  | unary hop _ ih =>
    rw [ofTree]
    refine (ih.bind fun _ => settles_pure _).congr fun _ _ => ?_
    rw [Tree.flawed_node_of_bounds rfl]
    simp [hop.leaf.not_flawed]
  | binary _ hop _ ihl ihr =>
    rw [ofTree]
    refine (ihl.bind fun _ => ihr.bind fun _ => settles_pure _).congr fun _ _ => ?_
    rw [Tree.flawed_node_of_bounds rfl]
    simp [hop.leaf.not_flawed]
  | @concatenation l part parts _ ih =>
    rw [ofTree]
    have hparts := settles_ofTrees fun t ht => ih t (List.mem_cons_of_mem _ ht)
    have hpart := ih part List.mem_cons_self
    refine (hpart.bind fun _ => hparts.bind fun _ => settles_pure _).congr fun _ _ => ?_
    rw [Tree.flawed_node_of_bounds rfl]
    simp
  | replication _ _ _ ihc ihi =>
    rw [ofTree]
    refine (ihc.bind fun _ => ihi.bind fun _ => settles_pure _).congr fun _ _ => ?_
    rw [Tree.flawed_node_of_bounds rfl]
    simp
  | bitSelect hleaf _ ih =>
    rw [ofTree]
    refine ((hname hleaf).bind fun _ => ih.bind fun _ => settles_pure _).congr fun _ _ => ?_
    rw [Tree.flawed_node_of_bounds rfl]
    simp [hleaf.not_flawed]
  | @rangeSelect l name upper lower hleaf hupper hlower _ _ =>
    rw [ofTree]
    refine ((hname hleaf).bind fun _ => (settles_bound upper).bind fun _ =>
      (settles_bound lower).bind fun _ => settles_pure _).widen ?_ ?_
    · rintro bound f (hfalse | ⟨rfl, hnone, rfl⟩ | ⟨rfl, hnone, rfl⟩ | hfalse)
      · exact hfalse.elim
      · exact Tree.flawed_node.2 (.inl (.unusable (by simp [Tree.bounds]) hnone))
      · exact Tree.flawed_node.2 (.inl (.unusable (by simp [Tree.bounds]) hnone))
      · exact hfalse.elim
    · intro hnone bound f hflawed
      have hu : upper.natConstant? ≠ none := fun h => hnone upper _ (.inr (.inl ⟨rfl, h, rfl⟩))
      have hl : lower.natConstant? ≠ none := fun h =>
        hnone lower _ (.inr (.inr (.inl ⟨rfl, h, rfl⟩)))
      rcases Tree.flawed_node.1 hflawed with hnode | ⟨t, ht, hinside⟩
      · cases hnode with
        | unusable hbound h =>
          rcases List.mem_pair.1 hbound with rfl | rfl
          · exact hu h
          · exact hl h
        | empty hkind _ _ => cases hkind
      · simp only [List.mem_cons, List.not_mem_nil, or_false] at ht
        rcases ht with rfl | rfl | rfl
        · exact hleaf.not_flawed (by decide) hinside
        · exact hupper.not_flawed_of_natConstant hu hinside
        · exact hlower.not_flawed_of_natConstant hl hinside
  | @indexedRangeSelect l name base op width hleaf _ hop hwidth ihb _ =>
    rw [ofTree]
    refine ((hname hleaf).bind fun body => ihb.bind fun base =>
      settles_partSelectOf body base hop width).widen ?_ ?_
    · rintro bound f (hfalse | hbase | ⟨rfl, ⟨hnone, rfl⟩ | ⟨hzero, rfl⟩⟩)
      · exact hfalse.elim
      · exact Tree.flawed_node.2 (.inr ⟨base, by simp, hbase⟩)
      · exact Tree.flawed_node.2 (.inl (.unusable (by simp [Tree.bounds]) hnone))
      · exact Tree.flawed_node.2 (.inl (.empty rfl (by simp [Tree.bounds]) hzero))
    · intro hnone bound f hflawed
      have hw : width.natConstant? ≠ none := fun h =>
        hnone width _ (.inr (.inr ⟨rfl, .inl ⟨h, rfl⟩⟩))
      rcases Tree.flawed_node.1 hflawed with hnode | ⟨t, ht, hinside⟩
      · cases hnode with
        | unusable hbound h =>
          rw [List.mem_singleton.1 hbound] at h
          exact hw h
        | empty _ hbound h =>
          rw [List.mem_singleton.1 hbound] at h
          exact hnone width _ (.inr (.inr ⟨rfl, .inr ⟨h, rfl⟩⟩))
      · simp only [List.mem_cons, List.not_mem_nil, or_false] at ht
        rcases ht with rfl | rfl | rfl | rfl
        · exact hleaf.not_flawed (by decide) hinside
        · exact hnone bound f (.inr (.inl hinside))
        · exact hop.leaf.not_flawed (by decide) hinside
        · exact hwidth.not_flawed_of_natConstant hw hinside

end Expr

/-! ## Messages -/

/-- How the messages begin that are about the shape of a tree. -/
def Finding.shapeOpenings : List String :=
  ["Malformed ", "Unsupported expression", "Unsupported part-select operator"]

/-- The message is about the shape of a tree. -/
def Diagnostic.IsAboutShape (d : Diagnostic) : Prop :=
  ∃ opening ∈ Finding.shapeOpenings, opening.toList <+: d.message.toList

namespace Finding

/-- How the message of a finding begins that putting a module of a text together may record. -/
def opening? : Finding → Option String
  | unusableBound _ => "Expected a constant"
  | emptyPartSelect _ => "Part-select width"
  | unusableRange _ => "Could not compute"
  | repeatedPort _ | undeclaredPort _ => "Port "
  | assignedInput _ | undeclaredTarget _ => "Assignment to "
  | changedWidth _ _ _ | repeatedNet _ | undefinedNet _ => "Net "
  | unsupportedTarget _ => "Unsupported assignment target"
  | skippedDefinition _ => "Skipping assignment"
  | repeatedWire _ => "Wire "
  | undefinedOutput _ => "Output "
  | _ => none

theorem isPrefix_append {opening text : String} (rest : String)
    (h : opening.toList <+: text.toList) : opening.toList <+: (text ++ rest).toList := by
  rw [String.toList_append]
  exact h.trans (List.prefix_append _ _)

theorem isPrefix_message {f : Finding} {opening : String} (h : f.opening? = some opening) :
    opening.toList <+: f.message.toList := by
  cases f <;> cases h
  case changedWidth name width portWidth =>
    iterate 7 refine isPrefix_append _ ?_
    decide
  -- the other messages name one thing, at their end or inside
  all_goals
    first
    | exact isPrefix_append _ (by decide)
    | exact isPrefix_append _ (isPrefix_append _ (by decide))

/-- A message that begins in such a way is about something else than a shape. -/
theorem openings_differ {f : Finding} {opening : String} (h : f.opening? = some opening) :
    ∀ other ∈ shapeOpenings,
      ¬opening.toList <+: other.toList ∧ ¬other.toList <+: opening.toList := by
  cases f <;> cases h <;> decide

theorem opening?_of_isAboutDeclaration {f : Finding} (h : f.isAboutDeclaration = true) :
    f.opening?.isSome := by
  cases f <;> first | rfl | cases h

end Finding

namespace Tree

theorem Refuses.opening? {s bound : Tree} {f : Finding} (h : s.Refuses bound f) :
    f.opening?.isSome := by
  cases h <;> rfl

end Tree

/-- The finding is one of those of which it is known how their messages begin. -/
def Diagnostic.IsForeseen (d : Diagnostic) : Prop :=
  d.finding.opening?.isSome

theorem Diagnostic.IsForeseen.not_isAboutShape {d : Diagnostic} (h : d.IsForeseen) :
    ¬d.IsAboutShape := by
  obtain ⟨opening, hopening⟩ := Option.isSome_iff_exists.1 h
  rintro ⟨other, hother, hprefix⟩
  have hdiffer := Finding.openings_differ hopening other hother
  rcases List.prefix_or_prefix_of_prefix (Finding.isPrefix_message hopening) hprefix with h | h
  · exact hdiffer.1 h
  · exact hdiffer.2 h

/-! ## What loading records -/

namespace Expr

/-- Work that settles its flaws records what is known of them. -/
theorem Settles.records {α : Type} {P : Diagnostic → Prop} {flaws : Tree → Finding → Prop}
    {x : OptionT Logged α} (h : Settles flaws x)
    (hP : ∀ bound f, flaws bound f → P ⟨.warning, bound.location?, f⟩) : x.run.Records P := by
  rcases h with ⟨⟨a, hrun⟩, -⟩ | ⟨bound, f, hflaw, hrun⟩
  · rw [hrun]
    exact .pure _
  · rw [hrun]
    intro d hd
    rw [List.mem_singleton.1 hd]
    exact hP bound f hflaw

end Expr

namespace Draft

/-- All that the passes record of a module that was read is foreseen: its definitions are
expressions, and its items have the children that they need. -/
theorem permits_of_isModule {module : Tree} (h : module.IsModule) :
    Permits Diagnostic.IsForeseen module where
  declarations _ _ := Finding.opening?_of_isAboutDeclaration
  expression e he := by
    refine (Expr.settles_of_isExpression (h.isExpression_of_defines he)).records ?_
    rintro bound f ⟨s, -, hs⟩
    exact hs.opening?
  definition d hd item hitem hkind hchildren := by
    rw [h.descendants_eq_childrenOf rfl, Tree.mem_childrenOf] at hd
    cases (h.isModulePart d hd.1).isNetPart hd.2 item hitem with
    | before hpart =>
      rcases hpart with ⟨⟨l⟩⟩ | ⟨⟨l⟩⟩ | ⟨⟨_, _⟩⟩ <;> cases hkind
    | name hleaf =>
      obtain ⟨l⟩ := hleaf
      cases hkind
    | defined => exact (hchildren _ _ rfl).elim
  assignment a ha item hitem hchildren := by
    rw [h.descendants_eq_childrenOf rfl, Tree.mem_childrenOf] at ha
    cases (h.isModulePart a ha.1).isAssignment ha.2 item (Tree.mem_childrenOf.1 hitem).1 with
    | intro => exact (hchildren _ _ rfl).elim

theorem WellFormed.foreseen_finish {d : Draft} (h : d.WellFormed) (name : String) :
    (d.finish name).Records Diagnostic.IsForeseen := by
  intro x hx
  rw [log_finish, List.mem_append, List.mem_append] at hx
  rcases hx with hx | hx | hx
  · obtain ⟨repeated, hrepeated⟩ := records_keepWires h.not_isInput_of_mem x hx
    rw [Diagnostic.IsForeseen, hrepeated]
    rfl
  · exact Logged.Records.forM (fun _ _ => records_checkOutput fun _ => rfl) x hx
  · exact Logged.Records.forM (fun _ _ => records_checkNet fun _ => rfl) x hx

theorem foreseen_assemble {module : Tree} (h : module.IsModule) :
    (assemble module).Records Diagnostic.IsForeseen := by
  rw [assemble_eq]
  exact (permits_of_isModule h).records_ofModule.bind
    ((wellFormed_ofModule module).foreseen_finish _)

end Draft

namespace Module

/-- Whatever is recorded while a text is loaded is foreseen, also if loading then fails. -/
theorem foreseen_load (source : Source) (top : Option String) :
    (load source top).run.Records Diagnostic.IsForeseen := by
  cases hroot : Grammar.parseFile (codeOf source) with
  | error e =>
    rw [run_load_of_parse_error hroot]
    exact List.forall_mem_nil _
  | ok root =>
    cases hselect : select root top with
    | error e =>
      rw [run_load_of_select_error hroot hselect]
      exact List.forall_mem_nil _
    | ok t =>
      rw [run_load hroot hselect]
      exact Draft.foreseen_assemble (isModule_of_select hroot hselect)

/-- Reading and translating agree on the shapes of trees. The tree of a text that was read as an
expression has an expression, unless a selection in it has a bound that cannot be used, of which the
only warning is. And whatever module of whatever text is loaded, no message is about the shape of a
tree. -/
theorem shapes_agree :
    (∀ (source : Source) (t : Tree), Grammar.parseExpression source = .ok t →
      ((∃ e, (Expr.ofTree t).run = ⟨some e, []⟩) ∧ ∀ bound f, ¬t.Flawed bound f) ∨
      ∃ bound f, t.Flawed bound f ∧
        (Expr.ofTree t).run = ⟨none, [⟨.warning, bound.location?, f⟩]⟩) ∧
    ∀ (source : Source) (top : Option String), ∀ d ∈ (load source top).run.log,
      ¬d.IsAboutShape :=
  ⟨fun _ _ h => Expr.settles_of_isExpression (Grammar.isExpression_of_parseExpression h),
    fun source top d hd => (foreseen_load source top d hd).not_isAboutShape⟩

/-- An expression with a selection whose upper bound is no constant. -/
def unsteadyText : String :=
  "a[a:0]"

/-- A module with a definition that has no expression. -/
def unsteadyModuleText : String :=
  "module m(input [3:0] a, output y); assign y = a[a:0]; endmodule"

/-- The definition is left out because of a bound; the shapes of its nodes are fine. -/
theorem shapes_agree_unsteady :
    (∃ t, Grammar.parseExpression (.ofText unsteadyText) = .ok t ∧
      (((∃ e, (Expr.ofTree t).run = ⟨some e, []⟩) ∧ ∀ bound f, ¬t.Flawed bound f) ∨
      ∃ bound f, t.Flawed bound f ∧
        (Expr.ofTree t).run = ⟨none, [⟨.warning, bound.location?, f⟩]⟩)) ∧
    (load (.ofText unsteadyModuleText) none).run.log.map Diagnostic.message =
      ["Expected a constant non-negative bound: `a`", "Skipping assignment to y",
        "Output declared but never assigned: y"] ∧
    ∀ d ∈ (load (.ofText unsteadyModuleText) none).run.log, ¬d.IsAboutShape := by
  have hread : (Grammar.parseExpression (.ofText unsteadyText)).toOption.isSome := by
    decide +kernel
  obtain ⟨t, ht⟩ := Option.isSome_iff_exists.1 hread
  have hparse := of_toOption_eq_some ht
  exact ⟨⟨t, hparse, shapes_agree.1 _ _ hparse⟩, by decide +kernel, shapes_agree.2 _ _⟩

end Module

end Netlist
