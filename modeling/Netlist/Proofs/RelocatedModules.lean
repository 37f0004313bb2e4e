/-
Modules of trees that stand elsewhere.

Putting a module together reads the words of its tree, the numbers of its ranges and the expressions
of its definitions, and keeps the places of nets and wires only to report them. So the module of a
tree that was carried over is the module of the tree, with its wires in the places where they have
gone (`mirrors_assemble`). The order of evaluation goes by names and does not depend on places at
all (`schedule_relocate`). Each pass is followed step by step, over drafts that differ in nothing
but places.
-/
import Netlist.Proofs.Mirrors

set_option autoImplicit false

namespace Netlist

/-! ## Drafts and modules elsewhere -/

section Places

variable (g : Relocation)

/-- The net in the place where its declaration has gone. -/
def Net.relocate (net : Net) : Net :=
  { net with location := net.location.map g.location }

/-- The wire in the place where its definition has gone. -/
def Wire.relocate (w : Wire) : Wire :=
  { w with location := w.location.map g.location }

/-- The draft with its nets and wires in the places where they have gone. -/
def Draft.relocate (d : Draft) : Draft :=
  ⟨d.inputs, d.nets.map (Net.relocate g), d.outputs, d.wires.map (Wire.relocate g)⟩

/-- The module with its wires in the places where they have gone. -/
def Module.relocate (m : Module) : Module :=
  { m with wires := m.wires.map (Wire.relocate g) }

end Places

variable {g : Relocation} {exact : Prop}

/-! ## What declarations say -/

namespace Tree

variable {t : Tree}

theorem of_child?_eq_some {k : NodeKind} {c : Tree} (h : t.child? k = some c) :
    c ∈ t.children ∧ c.kind = k := by
  have hfind : (t.children.find? fun c => c.kind == k) = some c := h
  exact ⟨List.mem_of_find?_eq_some hfind, by simpa using List.find?_some hfind⟩

/-- Every range in the declaration has two bounds, which are expressions. -/
def HasRanges (t : Tree) : Prop :=
  ∀ c ∈ t.children, c.kind = .packedDimension → c.IsRange

theorem mirrors_declaredWidth (ht : t.HasRanges) (hg : g.Keeps exact t) :
    Logged.Mirrors g exact id t.declaredWidth (t.relocate g).declaredWidth := by
  unfold declaredWidth
  rw [child?_relocate]
  cases hchild : t.child? .packedDimension with
  | none => exact .pure rfl
  | some range =>
    obtain ⟨hmem, hkind⟩ := of_child?_eq_some hchild
    have hrange := hg.of_mem_children hmem
    obtain @⟨l, upper, lower, hupper, hlower⟩ := ht range hmem hkind
    have hu := hupper.constant?_relocate (hrange.child upper (by simp))
    have hl := hlower.constant?_relocate (hrange.child lower (by simp))
    simp only [Option.map_some, children_relocate, children_node, List.map_cons, List.map_nil, hu,
      hl]
    split
    · exact .pure rfl
    · rw [location?_relocate]
      exact .warn_pure (fun hexact => by rw [hrange.text hexact]) rfl

/-! ### The parts of a module -/

theorem IsTypePart.hasRange {c : Tree} (h : c.IsTypePart) (hk : c.kind = .packedDimension) :
    c.IsRange := by
  rcases h with ⟨⟨l⟩⟩ | ⟨⟨l⟩⟩ | hrange
  · cases hk
  · cases hk
  · exact hrange

theorem IsPortPart.hasRange {c : Tree} (h : c.IsPortPart) (hk : c.kind = .packedDimension) :
    c.IsRange := by
  rcases h with hbefore | ⟨⟨l⟩⟩
  · exact hbefore.hasRange hk
  · cases hk

theorem IsNetPart.hasRange {c : Tree} (h : c.IsNetPart) (hk : c.kind = .packedDimension) :
    c.IsRange := by
  rcases h with hbefore | ⟨⟨l⟩⟩ | _
  · exact hbefore.hasRange hk
  · cases hk
  · cases hk

theorem IsPortPart.isLeaf {c : Tree} {k : NodeKind} (h : c.IsPortPart) (hc : c.kind = k)
    (hk : k = .simpleIdentifier ∨ k = .portDirection) : c.IsLeaf k := by
  subst hc
  rcases h with (⟨⟨l⟩⟩ | ⟨⟨l⟩⟩ | ⟨_, _⟩) | ⟨⟨l⟩⟩
  · exact .intro l
  · simp at hk
  · simp at hk
  · exact .intro l

theorem IsModulePart.isPortPart (h : t.IsModulePart) (hk : t.kind = .portDeclaration) :
    ∀ c ∈ t.children, c.IsPortPart := by
  rcases h with ⟨⟨l⟩⟩ | _ | hitem | ⟨⟨l⟩⟩
  · cases hk
  · cases hk
  · cases hitem with
    | ports hparts => exact hparts
    | nets => cases hk
    | assignments => cases hk
  · cases hk

theorem IsModulePart.listed_isLeaf (h : t.IsModulePart) (hk : t.kind = .listOfPorts) :
    ∀ c ∈ t.children, c.IsLeaf .simpleIdentifier := by
  rcases h with ⟨⟨l⟩⟩ | hnames | hitem | ⟨⟨l⟩⟩
  · cases hk
  · exact hnames
  · cases hitem <;> cases hk
  · cases hk

theorem IsModulePart.isLeaf (h : t.IsModulePart) (hk : t.kind = .simpleIdentifier) :
    t.IsLeaf .simpleIdentifier := by
  rcases h with hname | _ | hitem | ⟨⟨l⟩⟩
  · exact hname
  · cases hk
  · cases hitem <;> cases hk
  · cases hk

/-- A module has the same name elsewhere. -/
theorem IsModule.moduleName_relocate (h : t.IsModule) (hg : g.Keeps exact t) :
    (t.relocate g).moduleName = t.moduleName := by
  rw [moduleName, moduleName, child?_relocate]
  cases hchild : t.child? .simpleIdentifier with
  | none => rfl
  | some name =>
    obtain ⟨hmem, hkind⟩ := of_child?_eq_some hchild
    exact (hg.of_mem_children hmem).word ((h.isModulePart name hmem).isLeaf hkind) (by decide)

end Tree

namespace Draft

variable {d : Draft} {name : String} {nameNode item : Tree}

@[simp] theorem isInput_relocate (d : Draft) (name : String) :
    (d.relocate g).isInput name = d.isInput name := rfl

@[simp] theorem contains_relocate (d : Draft) (name : String) :
    (d.relocate g).nets.contains name = d.nets.contains name :=
  NameMap.contains_map _ _ _

@[simp] theorem isDefined_relocate (d : Draft) (name : String) :
    (d.relocate g).isDefined name = d.isDefined name := by
  simp [isDefined, relocate, Wire.relocate, List.any_map, Function.comp_def]

/-! ## Ports -/

theorem mirrors_addPort (isInput : Bool) (width : Nat) (d : Draft)
    (hname : nameNode.IsLeaf .simpleIdentifier) (hg : g.Keeps exact nameNode) :
    Logged.Mirrors g exact (relocate g) (addPort isInput width d nameNode)
      (addPort isInput width (d.relocate g) (nameNode.relocate g)) := by
  unfold addPort
  rw [hg.word hname (by decide), Tree.location?_relocate]
  dsimp only
  rw [isInput_relocate, contains_relocate]
  split
  · exact .warn_pure (fun _ => rfl) rfl
  · split
    · exact .pure rfl
    · refine .pure ?_
      simp [relocate, NameMap.map_insert, Net.relocate]

/-- The declaration is one of inputs. -/
def declaresInputs (declaration : Tree) : Bool :=
  match declaration.child? .portDirection with
  | some direction => direction.word == "input"
  | none => false

theorem addPorts_eq (d : Draft) (declaration : Tree) :
    addPorts d declaration = declaration.declaredWidth >>= fun width =>
      (declaration.childrenOf .simpleIdentifier).foldlM
        (addPort (declaresInputs declaration) width) d := rfl

theorem declaresInputs_relocate {declaration : Tree}
    (hparts : ∀ c ∈ declaration.children, c.IsPortPart) (hg : g.Keeps exact declaration) :
    declaresInputs (declaration.relocate g) = declaresInputs declaration := by
  rw [declaresInputs, declaresInputs, Tree.child?_relocate]
  cases hchild : declaration.child? .portDirection with
  | none => rfl
  | some direction =>
    obtain ⟨hmem, hkind⟩ := Tree.of_child?_eq_some hchild
    have hleaf := (hparts direction hmem).isLeaf hkind (.inr rfl)
    exact congrArg (· == "input") ((hg.of_mem_children hmem).word hleaf (by decide))

theorem mirrors_addPorts (d : Draft) {declaration : Tree}
    (hparts : ∀ c ∈ declaration.children, c.IsPortPart) (hg : g.Keeps exact declaration) :
    Logged.Mirrors g exact (relocate g) (addPorts d declaration)
      (addPorts (d.relocate g) (declaration.relocate g)) := by
  have hranges : declaration.HasRanges := fun c hc hk => (hparts c hc).hasRange hk
  rw [addPorts_eq, addPorts_eq, Tree.childrenOf_relocate, declaresInputs_relocate hparts hg]
  refine (Tree.mirrors_declaredWidth hranges hg).bind (.foldlM (fun d nameNode hname => ?_) d)
  obtain ⟨hmem, hkind⟩ := Tree.mem_childrenOf.1 hname
  exact mirrors_addPort _ _ d ((hparts nameNode hmem).isLeaf hkind (.inl rfl))
    (hg.of_mem_children hmem)

theorem mirrors_checkListed (d : Draft) (hname : nameNode.IsLeaf .simpleIdentifier)
    (hg : g.Keeps exact nameNode) :
    Logged.Mirrors g exact id (checkListed d nameNode)
      (checkListed (d.relocate g) (nameNode.relocate g)) := by
  unfold checkListed
  rw [hg.word hname (by decide), Tree.location?_relocate]
  dsimp only
  rw [isInput_relocate, contains_relocate]
  split
  · exact .pure rfl
  · exact .warn fun _ => rfl

theorem mirrors_readPorts (d : Draft) {module : Tree} (h : module.IsModule)
    (hg : g.Keeps exact module) :
    Logged.Mirrors g exact (relocate g) (d.readPorts module)
      ((d.relocate g).readPorts (module.relocate g)) := by
  unfold readPorts
  rw [Tree.descendants_relocate, Tree.childrenOf_relocate, h.descendants_eq_childrenOf rfl]
  refine .bind (.foldlM (fun d declaration hmem => ?_) d) (.bind (.forM fun list hmem => ?_)
    (.pure rfl))
  · obtain ⟨hmem, hkind⟩ := Tree.mem_childrenOf.1 hmem
    exact mirrors_addPorts d ((h.isModulePart declaration hmem).isPortPart hkind)
      (hg.of_mem_children hmem)
  · obtain ⟨hmem, hkind⟩ := Tree.mem_childrenOf.1 hmem
    have hleaves := (h.isModulePart list hmem).listed_isLeaf hkind
    rw [Tree.childrenOf_relocate]
    refine .forM fun nameNode hname => ?_
    have hname := (Tree.mem_childrenOf.1 hname).1
    exact mirrors_checkListed _ (hleaves nameNode hname)
      ((hg.of_mem_children hmem).of_mem_children hname)

/-! ## Definitions and nets -/

theorem mirrors_define (d : Draft) (name : String) {e : Tree} (he : e.IsExpression)
    (hg : g.Keeps exact e) (location : Option Location) :
    Logged.Mirrors g exact (relocate g) (d.define name e location)
      ((d.relocate g).define name (e.relocate g) (location.map g.location)) := by
  have hwidth : (((d.relocate g).nets.get? name).map Net.width).getD 1 =
      ((d.nets.get? name).map Net.width).getD 1 := by
    rw [relocate, NameMap.get?_map, Option.map_map]
    rfl
  unfold define
  rw [hwidth]
  refine (Expr.mirrors_ofTree he hg).bind ?_
  rw [id]
  split
  · exact .pure (by simp [relocate, Wire.relocate])
  · exact .warn_pure (fun _ => rfl) rfl

theorem mirrors_declareNet (d : Draft) (name : String) (width : Nat)
    (location : Option Location) :
    Logged.Mirrors g exact (relocate g) (d.declareNet name width location)
      ((d.relocate g).declareNet name width (location.map g.location)) := by
  have hinsert : (relocate g { d with nets := d.nets.insert name ⟨width, false, location⟩ }) =
      { d.relocate g with
        nets := (d.relocate g).nets.insert name ⟨width, false, location.map g.location⟩ } := by
    simp [relocate, NameMap.map_insert, Net.relocate]
  have hget : (d.relocate g).nets.get? name = (d.nets.get? name).map (Net.relocate g) :=
    NameMap.get?_map _ _ _
  unfold declareNet
  rw [hget]
  cases d.nets.get? name with
  | none => exact .pure hinsert.symm
  | some net =>
    simp only [Option.map_some, Net.relocate]
    split
    · split
      · exact .warn_pure (fun _ => rfl) hinsert.symm
      · exact .pure hinsert.symm
    · exact .warn_pure (fun _ => rfl) rfl

theorem mirrors_addNet (d : Draft) (width : Nat) (item : Tree) {definition : Option Tree}
    (hname : nameNode.IsLeaf .simpleIdentifier) (hgname : g.Keeps exact nameNode)
    (he : ∀ e ∈ definition, e.IsExpression ∧ g.Keeps exact e) :
    Logged.Mirrors g exact (relocate g) (d.addNet width item nameNode definition)
      ((d.relocate g).addNet width (item.relocate g) (nameNode.relocate g)
        (definition.map (Tree.relocate g))) := by
  unfold addNet
  rw [hgname.word hname (by decide), Tree.location?_relocate, Tree.location?_relocate,
    Option.isSome_map]
  dsimp only
  rw [isInput_relocate]
  split
  · split
    · exact .warn_pure (fun _ => rfl) rfl
    · exact .pure rfl
  · refine (mirrors_declareNet _ _ _ _).bind ?_
    cases definition with
    | none => exact .pure rfl
    | some e =>
      obtain ⟨hexpr, hge⟩ := he e rfl
      exact mirrors_define _ _ hexpr hge _

theorem mirrors_addNetItem (width : Nat) (d : Draft) (h : item.IsNetPart)
    (hg : g.Keeps exact item) :
    Logged.Mirrors g exact (relocate g) (addNetItem width d item)
      (addNetItem width (d.relocate g) (item.relocate g)) := by
  cases h with
  | before hpart =>
    -- what stands before the names adds nothing
    rcases hpart with ⟨⟨l⟩⟩ | ⟨⟨l⟩⟩ | ⟨_, _⟩ <;>
      · rw [Tree.relocate_node]
        exact .pure rfl
  | name hleaf =>
    have hnone : ∀ e ∈ (none : Option Tree), e.IsExpression ∧ g.Keeps exact e := nofun
    have hnet := mirrors_addNet d width item hleaf hg hnone
    obtain ⟨l⟩ := hleaf
    rw [Tree.relocate_node] at hnet ⊢
    exact hnet
  | @defined l name e hname he =>
    have hsome : ∀ e' ∈ some e, e'.IsExpression ∧ g.Keeps exact e' := by
      simpa using ⟨he, hg.child e (by simp)⟩
    have hnet := mirrors_addNet d width (.node .netDeclAssignment l [name, e]) hname
      (hg.child name (by simp)) hsome
    rw [Tree.relocate_node] at hnet ⊢
    exact hnet

theorem mirrors_readNets (d : Draft) {module : Tree} (h : module.IsModule)
    (hg : g.Keeps exact module) :
    Logged.Mirrors g exact (relocate g) (d.readNets module)
      ((d.relocate g).readNets (module.relocate g)) := by
  unfold readNets
  rw [Tree.descendants_relocate, h.descendants_eq_childrenOf rfl]
  refine .foldlM (fun d declaration hmem => ?_) d
  obtain ⟨hmem, hkind⟩ := Tree.mem_childrenOf.1 hmem
  have hparts := (h.isModulePart declaration hmem).isNetPart hkind
  have hg := hg.of_mem_children hmem
  have hranges : declaration.HasRanges := fun c hc hk => (hparts c hc).hasRange hk
  unfold addNets
  rw [Tree.children_relocate]
  refine (Tree.mirrors_declaredWidth hranges hg).bind (.foldlM (fun d item hitem => ?_) d)
  exact mirrors_addNetItem _ d (hparts item hitem) (hg.of_mem_children hitem)

/-! ## Assignments -/

theorem mirrors_addAssignment (d : Draft) (h : item.IsAssignment) (hg : g.Keeps exact item) :
    Logged.Mirrors g exact (relocate g) (addAssignment d item)
      (addAssignment (d.relocate g) (item.relocate g)) := by
  obtain @⟨l, target, e, htarget, he⟩ := h
  have hgtarget := hg.child target (by simp)
  have hge := hg.child e (by simp)
  simp only [addAssignment, Tree.children_relocate, Tree.children_node, List.map_cons,
    List.map_nil, Tree.kind_relocate, Tree.location?_relocate]
  by_cases hkind : target.kind = .simpleIdentifier
  · rw [if_neg (not_not_intro hkind), if_neg (not_not_intro hkind),
      hgtarget.word (htarget.isLeaf hkind) (by decide), isInput_relocate, contains_relocate]
    split
    · exact .warn_pure (fun _ => rfl) rfl
    · split
      · exact .warn_pure (fun _ => rfl) rfl
      · exact mirrors_define _ _ he hge _
  · rw [if_pos hkind, if_pos hkind]
    exact .warn_pure (fun hexact => by rw [hgtarget.text hexact]) rfl

theorem mirrors_readAssignments (d : Draft) {module : Tree} (h : module.IsModule)
    (hg : g.Keeps exact module) :
    Logged.Mirrors g exact (relocate g) (d.readAssignments module)
      ((d.relocate g).readAssignments (module.relocate g)) := by
  unfold readAssignments
  rw [Tree.descendants_relocate, h.descendants_eq_childrenOf rfl]
  refine .foldlM (fun d assign hmem => ?_) d
  obtain ⟨hmem, hkind⟩ := Tree.mem_childrenOf.1 hmem
  have hparts := (h.isModulePart assign hmem).isAssignment hkind
  rw [Tree.childrenOf_relocate]
  refine .foldlM (fun d item hitem => ?_) d
  have hitem := (Tree.mem_childrenOf.1 hitem).1
  have hg := (hg.of_mem_children hmem).of_mem_children hitem
  exact mirrors_addAssignment d (hparts item hitem) hg

/-! ## The finished module -/

theorem mirrors_keepWire (d : Draft) (kept : List Wire) (w : Wire) :
    Logged.Mirrors g exact (List.map (Wire.relocate g)) (d.keepWire kept w)
      ((d.relocate g).keepWire (kept.map (Wire.relocate g)) (w.relocate g)) := by
  have hany : ((kept.map (Wire.relocate g)).any fun k => k.name == (w.relocate g).name) =
      kept.any fun k => k.name == w.name := by
    rw [List.any_map]
    rfl
  simp only [keepWire, hany]
  by_cases hinput : d.isInput w.name = true
  · rw [if_pos hinput, if_pos (c := (d.relocate g).isInput (w.relocate g).name = true) hinput]
    exact .warn_pure (fun _ => rfl) rfl
  · rw [if_neg hinput, if_neg (c := (d.relocate g).isInput (w.relocate g).name = true) hinput]
    split
    · exact .warn_pure (fun _ => rfl) rfl
    · exact .pure (by simp [Wire.relocate])

theorem mirrors_checkOutput (d : Draft) (name : String) :
    Logged.Mirrors g exact id (d.checkOutput name) ((d.relocate g).checkOutput name) := by
  have hlocation : ((d.relocate g).nets.get? name).bind Net.location =
      ((d.nets.get? name).bind Net.location).map g.location := by
    rw [relocate, NameMap.get?_map]
    cases d.nets.get? name <;> rfl
  rw [checkOutput, checkOutput, isDefined_relocate, hlocation]
  split
  · exact .pure rfl
  · exact .warn fun _ => rfl

theorem mirrors_checkNet (d : Draft) (net : String × Net) :
    Logged.Mirrors g exact id (d.checkNet net)
      ((d.relocate g).checkNet (net.1, net.2.relocate g)) := by
  rw [checkNet, checkNet, isDefined_relocate]
  have houtputs : (d.relocate g).outputs = d.outputs := rfl
  simp only [houtputs]
  split
  · exact .pure rfl
  · exact ⟨rfl, .cons ⟨rfl, rfl, fun _ => rfl⟩ .nil⟩

/-- What is done once the wires are known. -/
theorem mirrors_conclude (d : Draft) (name : String) :
    Logged.Mirrors g exact (Module.relocate g)
      (do
        d.outputs.forM d.checkOutput
        d.nets.entries.forM d.checkNet
        return ⟨name, d.inputs, d.wires, d.outputs⟩)
      (do
        (d.relocate g).outputs.forM (d.relocate g).checkOutput
        (d.relocate g).nets.entries.forM (d.relocate g).checkNet
        return ⟨name, (d.relocate g).inputs, (d.relocate g).wires, (d.relocate g).outputs⟩) := by
  have houtputs : Logged.Mirrors g exact id (d.outputs.forM d.checkOutput)
      ((d.outputs.map id).forM (d.relocate g).checkOutput) :=
    .forM fun name _ => mirrors_checkOutput d name
  rw [List.map_id] at houtputs
  exact houtputs.bind ((Logged.Mirrors.forM fun net _ => mirrors_checkNet d net).bind (.pure rfl))

theorem mirrors_finish (d : Draft) (name : String) :
    Logged.Mirrors g exact (Module.relocate g) (d.finish name) ((d.relocate g).finish name) := by
  unfold finish
  refine .bind (.foldlM (fun kept w _ => d.mirrors_keepWire kept w) []) ?_
  exact mirrors_conclude { d with wires := _ } name

/-- The module of a tree elsewhere is the module of the tree, with its wires elsewhere. -/
theorem mirrors_assemble {module : Tree} (h : module.IsModule) (hg : g.Keeps exact module) :
    Logged.Mirrors g exact (Module.relocate g) (assemble module)
      (assemble (module.relocate g)) := by
  have hstart : start.relocate g = start := rfl
  have hports := mirrors_readPorts start h hg
  rw [hstart] at hports
  unfold assemble
  rw [h.moduleName_relocate hg]
  exact hports.bind ((mirrors_readNets _ h hg).bind ((mirrors_readAssignments _ h hg).bind
    (mirrors_finish _ _)))

end Draft

end Netlist
