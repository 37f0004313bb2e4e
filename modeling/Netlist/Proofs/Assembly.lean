/-
Where the wires of an assembled module come from.

Three passes over a tree add wires to a draft, and a last one drops some of them and takes the
inputs out of what the others come after. Whatever is left out on the way, each wire that stays
is read off a tree that defines it (`ReadOff`), and comes after just the signals that its
expression reads, inputs aside (`readOff_of_assemble`). Only two operations on drafts touch the
wires: adding a definition and keeping the first wire of each name. All others leave the wires
alone, and the invariant passes through them for free.
-/
import Netlist.Module.OfTree
import Netlist.Proofs.Signals

set_option autoImplicit false

namespace Netlist

/-! ## Rows of work that records diagnostics -/

theorem Logged.foldlM_preserves {σ α : Type} {P : σ → Prop} {f : σ → α → Logged σ} {xs : List α}
    {s : σ} (hstep : ∀ s, ∀ x ∈ xs, P s → P (f s x).value) (hs : P s) :
    P (xs.foldlM f s).value := by
  induction xs generalizing s with
  | nil => exact hs
  | cons x xs ih =>
    rw [List.foldlM_cons, Logged.value_bind]
    have hnext := hstep s x List.mem_cons_self hs
    exact ih (fun s' y hy => hstep s' y (List.mem_cons_of_mem _ hy)) hnext

/-! ## Trees that define signals -/

/-- The tree defines a signal of the module: in a net declaration or in an assignment. -/
def Tree.Defines (module e : Tree) : Prop :=
  (∃ d ∈ module.descendants .netDeclaration, ∃ item ∈ d.children, ∃ name,
    item.kind = .netDeclAssignment ∧ item.children = [name, e]) ∨
  (∃ a ∈ module.descendants .continuousAssign, ∃ item ∈ a.childrenOf .netAssignment, ∃ target,
    item.children = [target, e])

/-- The wire is read off a tree of the given ones, and comes after all that it reads. -/
def Wire.ReadOff (P : Tree → Prop) (w : Wire) : Prop :=
  (∃ e, P e ∧ (Expr.ofTree e).run.value = some w.definition) ∧ w.deps = w.definition.signals

/-- Every wire of the module is read off a tree of the given ones, and comes after just the
signals that its expression reads, inputs aside. -/
structure Module.ReadOff (P : Tree → Prop) (m : Module) : Prop where
  definition : ∀ w ∈ m.wires, ∃ e, P e ∧ (Expr.ofTree e).run.value = some w.definition
  mem_deps : ∀ w ∈ m.wires, ∀ name,
    name ∈ w.deps.keys ↔ name ∈ w.definition.signals.keys ∧ name ∉ m.inputNames

theorem Module.ReadOff.coversReads {P : Tree → Prop} {m : Module} (h : m.ReadOff P) :
    m.CoversReads :=
  fun w hw name hname hinput => (h.mem_deps w hw name).2 ⟨hname, hinput⟩

namespace Draft

variable {P : Tree → Prop} {d : Draft}

/-- All wires of the draft are read off trees of the given ones. -/
def ReadOff (P : Tree → Prop) (d : Draft) : Prop :=
  ∀ w ∈ d.wires, w.ReadOff P

theorem ReadOff.congr {d' : Draft} (h : d.ReadOff P) (hwires : d'.wires = d.wires) :
    d'.ReadOff P := by
  rw [ReadOff, hwires]
  exact h

/-! ## Ports -/

theorem wires_addPort (isInput : Bool) (width : Nat) (d : Draft) (nameNode : Tree) :
    (addPort isInput width d nameNode).value.wires = d.wires := by
  unfold addPort
  dsimp only
  split
  · rfl
  · split <;> rfl

theorem wires_addPorts (d : Draft) (declaration : Tree) :
    (addPorts d declaration).value.wires = d.wires := by
  unfold addPorts
  exact Logged.foldlM_preserves (P := fun d' : Draft => d'.wires = d.wires)
    (fun d' nameNode _ h => (wires_addPort _ _ d' nameNode).trans h) rfl

theorem wires_readPorts (d : Draft) (module : Tree) :
    (d.readPorts module).value.wires = d.wires := by
  unfold readPorts
  exact Logged.foldlM_preserves (P := fun d' : Draft => d'.wires = d.wires)
    (fun d' declaration _ h => (wires_addPorts d' declaration).trans h) rfl

/-! ## Definitions -/

/-- A definition adds the expression of its tree, or nothing. -/
theorem ReadOff.define {e : Tree} (h : d.ReadOff P) (he : P e) (name : String)
    (location : Option Location) : (d.define name e location).value.ReadOff P := by
  rw [Draft.define, Logged.value_bind]
  split
  · next expr hexpr =>
    intro w hw
    rcases List.mem_append.1 hw with hw | hw
    · exact h w hw
    · rw [List.mem_singleton.1 hw]
      exact ⟨⟨e, he, hexpr⟩, rfl⟩
  · exact h

theorem wires_declareNet (d : Draft) (name : String) (width : Nat)
    (location : Option Location) : (d.declareNet name width location).value.wires = d.wires := by
  unfold declareNet
  split
  · rfl
  · split
    · split <;> rfl
    · rfl

theorem ReadOff.addNet {definition : Option Tree} (h : d.ReadOff P)
    (hP : ∀ e, definition = some e → P e) (width : Nat) (item nameNode : Tree) :
    (d.addNet width item nameNode definition).value.ReadOff P := by
  unfold Draft.addNet
  dsimp only
  split
  · split <;> exact h
  -- what is no input is declared first, which leaves the wires alone, and then defined
  · rw [Logged.value_bind]
    have hdeclared := h.congr (wires_declareNet d nameNode.word width nameNode.location?)
    split
    · next e => exact hdeclared.define (hP e rfl) _ _
    · exact hdeclared

theorem ReadOff.addNetItem {item : Tree} (h : d.ReadOff P) (width : Nat)
    (hP : ∀ name e, item.kind = .netDeclAssignment → item.children = [name, e] → P e) :
    (addNetItem width d item).value.ReadOff P := by
  unfold Draft.addNetItem
  split
  · exact h.addNet (by simp) _ _ _
  · next name e hkind hchildren =>
    refine h.addNet (fun e' he' => ?_) _ _ _
    cases he'
    exact hP name e hkind hchildren
  · exact h
  · exact h

theorem ReadOff.readNets {module : Tree} (h : d.ReadOff P) (hP : ∀ e, module.Defines e → P e) :
    (d.readNets module).value.ReadOff P := by
  unfold Draft.readNets
  refine Logged.foldlM_preserves (fun d declaration hd h => ?_) h
  rw [addNets, Logged.value_bind]
  refine Logged.foldlM_preserves (fun d item hitem h => ?_) h
  refine h.addNetItem _ fun name e hkind hchildren => hP e ?_
  exact .inl ⟨declaration, hd, item, hitem, name, hkind, hchildren⟩

theorem ReadOff.addAssignment {assignment : Tree} (h : d.ReadOff P)
    (hP : ∀ target e, assignment.children = [target, e] → P e) :
    (addAssignment d assignment).value.ReadOff P := by
  unfold Draft.addAssignment
  split
  · next target e hchildren =>
    dsimp only
    -- only an assignment to a declared name that is no input defines anything
    split
    · exact h
    · split
      · exact h
      · split
        · exact h
        · exact h.define (hP target e hchildren) _ _
  · exact h

theorem ReadOff.readAssignments {module : Tree} (h : d.ReadOff P)
    (hP : ∀ e, module.Defines e → P e) : (d.readAssignments module).value.ReadOff P := by
  unfold Draft.readAssignments
  refine Logged.foldlM_preserves (fun d assign ha h => ?_) h
  refine Logged.foldlM_preserves (fun d item hitem h => ?_) h
  refine h.addAssignment fun target e hchildren => hP e ?_
  exact .inr ⟨assign, ha, item, hitem, target, hchildren⟩

/-! ## The finished module -/

theorem isInput_iff {name : String} : d.isInput name = true ↔ name ∈ d.inputs.map Input.name := by
  rw [isInput, List.any_eq_true, List.mem_map]
  simp only [beq_iff_eq]

/-- A wire without the inputs in what it comes after. -/
def clean (d : Draft) (w : Wire) : Wire :=
  { w with deps := w.deps.filter fun name => !d.isInput name }

theorem keepWires_subset (d : Draft) (ws : List Wire) :
    ∀ k ∈ (ws.foldlM d.keepWire []).value, ∃ w ∈ ws, k = d.clean w := by
  refine Logged.foldlM_preserves
    (P := fun kept : List Wire => ∀ k ∈ kept, ∃ w ∈ ws, k = d.clean w) (fun kept w hw h => ?_) ?_
  · unfold keepWire
    split
    · exact h
    · split
      · exact h
      · intro k hk
        rcases List.mem_append.1 hk with hk | hk
        · exact h k hk
        · exact ⟨w, hw, List.mem_singleton.1 hk⟩
  · simp

theorem ReadOff.finish (h : d.ReadOff P) (name : String) :
    (d.finish name).value.ReadOff P := by
  have hkept := d.keepWires_subset d.wires
  have hinput : ∀ signal, d.isInput signal = true ↔
      signal ∈ (d.finish name).value.inputNames := fun _ => isInput_iff
  refine ⟨fun k hk => ?_, fun k hk signal => ?_⟩
  · obtain ⟨w, hw, rfl⟩ := hkept k hk
    exact (h w hw).1
  · obtain ⟨w, hw, rfl⟩ := hkept k hk
    rw [clean, NameMap.mem_keys_filter, (h w hw).2, ← hinput, Bool.not_eq_true,
      Bool.not_eq_true', and_comm]

/-- The draft of a module after its ports, its net declarations and its assignments. -/
def ofModule (module : Tree) : Logged Draft := do
  let d ← start.readPorts module
  let d ← d.readNets module
  d.readAssignments module

theorem assemble_eq (module : Tree) :
    assemble module = ofModule module >>= fun d => d.finish module.moduleName := by
  rw [assemble, ofModule, bind_assoc]
  refine congrArg _ (funext fun d => ?_)
  rw [bind_assoc]

/-- Every wire of a draft is read off one of the trees that define signals in the module. -/
theorem readOff_ofModule (module : Tree) : (ofModule module).value.ReadOff module.Defines := by
  have hstart : (start.readPorts module).value.ReadOff module.Defines := by
    rw [ReadOff, wires_readPorts]
    simp [start]
  exact (hstart.readNets fun _ => id).readAssignments fun _ => id

theorem readOff_of_assemble (module : Tree) :
    (assemble module).value.ReadOff module.Defines := by
  rw [assemble_eq, Logged.value_bind]
  exact (readOff_ofModule module).finish _

end Draft

end Netlist
