/-
What the reader of source files builds.

The readers of declarations, items, headers and files hold one another, the innermost being the
reader of expressions. Each of them keeps what it holds in shape (`Fits`) as long as the reader
inside it does, so the invariant of one is the step lemma of the next. Whatever is read as a
file has therefore the shape of a file (`isFile_of_parseFile`), spoiled items included.
-/
import Netlist.Grammar.Parse
import Netlist.Proofs.ReadExpressions

set_option autoImplicit false

namespace Netlist

/-- Two stages that may fail succeed only one after the other. -/
theorem exists_of_bind_eq_ok {ε α β : Type} {x : Except ε α} {f : α → Except ε β} {b : β}
    (h : x >>= f = .ok b) : ∃ a, x = .ok a ∧ f a = .ok b := by
  cases x with
  | error e => cases h
  | ok a => exact ⟨a, rfl, h⟩

theorem of_toOption_eq_some {ε α : Type} {x : Except ε α} {a : α} (h : x.toOption = some a) :
    x = .ok a := by
  cases x with
  | error e => cases h
  | ok b =>
    cases h
    rfl

namespace Tree

/-! ## Growing nodes -/

/-- The declaration of a port. -/
def IsPortDeclaration (t : Tree) : Prop :=
  t.IsItem ∧ t.kind = .portDeclaration

theorem isPortDeclaration_spanning {parts : List Tree} (h : ∀ t ∈ parts, t.IsPortPart) :
    (spanning .portDeclaration parts).IsPortDeclaration := by
  obtain ⟨l, hnode⟩ := spanning_eq_node .portDeclaration parts
  rw [hnode]
  exact ⟨.ports h, rfl⟩

theorem IsPortDeclaration.extend {t name : Tree} (h : t.IsPortDeclaration)
    (hname : name.IsLeaf .simpleIdentifier) : (t.extend name).IsPortDeclaration := by
  obtain ⟨hitem, hkind⟩ := h
  cases hitem with
  | ports hparts => exact ⟨.ports (forall_mem_snoc hparts (.name hname)), rfl⟩
  | nets => cases hkind
  | assignments => cases hkind

end Tree

namespace Grammar

variable {source : Source} {t : Token}

theorem isTypePart_of_directionNode? {node : Tree} (h : directionNode? source t = some node) :
    node.IsTypePart := by
  unfold directionNode? at h
  split at h <;> cases h <;> exact .direction (isLeaf_tokenNode _ _ _)

theorem isTypePart_of_netTypeNode? {node : Tree} (h : netTypeNode? source t = some node) :
    node.IsTypePart := by
  unfold netTypeNode? at h
  split at h <;> cases h <;> exact .netType (isLeaf_tokenNode _ _ _)

theorem isLeaf_of_nameNode? {name : Tree} (h : nameNode? source t = some name) :
    name.IsLeaf .simpleIdentifier := by
  unfold nameNode? at h
  split at h <;> cases h
  exact isLeaf_tokenNode _ _ _

/-! ## Declarations up to their first name -/

/-- The bounds that are being read fit. -/
def HeadStage.Fits : HeadStage → Prop
  | .direction | .netType | .range => True
  | .upper _ e => e.Fits
  | .lower _ bound e => bound.IsExpression ∧ e.Fits

namespace Head

/-- All that is held of a declaration before its first name fits. -/
structure Fits (h : Head) : Prop where
  parts : ∀ t ∈ h.parts, t.IsTypePart
  stage : h.stage.Fits

/-- What a declaration is after a token. -/
def Step.Fits : Step → Prop
  | .reading h => h.Fits
  | .named parts name => (∀ t ∈ parts, t.IsTypePart) ∧ name.IsLeaf .simpleIdentifier

variable {h : Head} {next : Step}

theorem Fits.stepName (hfits : h.Fits) (hs : h.stepName source t = some next) : next.Fits := by
  unfold Head.stepName at hs
  obtain ⟨name, hname, rfl⟩ := Option.map_eq_some_iff.1 hs
  exact ⟨hfits.parts, isLeaf_of_nameNode? hname⟩

theorem Fits.stepRange (hfits : h.Fits) (hs : h.stepRange source t = some next) :
    next.Fits := by
  unfold Head.stepRange at hs
  split at hs
  · cases hs
    exact ⟨hfits.parts, Reader.fits_start _⟩
  · exact hfits.stepName hs

/-- Reading a token before the first name keeps everything fitting. A token that a bound
refuses ends it, and the bound is then an expression. -/
theorem Fits.step (hfits : h.Fits) (ht : t.ReadFrom source.contents)
    (hs : h.step source t = some next) : next.Fits := by
  have hstage := hfits.stage
  unfold Head.step at hs
  cases heq : h.stage with
  | direction =>
    rw [heq] at hs
    dsimp only at hs
    split at hs
    · next hnode =>
      cases hs
      exact ⟨forall_mem_snoc hfits.parts (isTypePart_of_netTypeNode? hnode), trivial⟩
    · exact hfits.stepRange hs
  | netType =>
    rw [heq] at hs
    exact hfits.stepRange hs
  | upper start e =>
    rw [heq] at hs hstage
    dsimp only at hs
    split at hs
    · next hfeed =>
      cases hs
      exact ⟨hfits.parts, hstage.feed ht hfeed⟩
    · next hfeed _ =>
      cases hs
      exact ⟨hfits.parts, hstage.feed ht hfeed, Reader.fits_start _⟩
    · cases hs
  | lower start upper e =>
    rw [heq] at hs hstage
    obtain ⟨hupper, he⟩ := hstage
    dsimp only at hs
    split at hs
    · next hfeed =>
      cases hs
      exact ⟨hfits.parts, hupper, he.feed ht hfeed⟩
    · next hfeed _ =>
      cases hs
      have hlower : Tree.IsExpression _ := he.feed ht hfeed
      exact ⟨forall_mem_snoc hfits.parts (.range (.intro hupper hlower)), trivial⟩
    · cases hs
  | range =>
    rw [heq] at hs
    exact hfits.stepName hs

end Head

theorem isPortDeclaration_portNode {parts : List Tree} {name : Tree}
    (hparts : ∀ t ∈ parts, t.IsTypePart) (hname : name.IsLeaf .simpleIdentifier) :
    (portNode parts name).IsPortDeclaration :=
  Tree.isPortDeclaration_spanning
    (forall_mem_snoc (fun t ht => .before (hparts t ht)) (.name hname))

/-! ## Items -/

namespace Item

/-- All that is held of an item fits. -/
def Fits : Item → Prop
  | .blank => True
  | .port h => h.Fits
  | .portNamed declaration => declaration.IsPortDeclaration
  | .portComma declaration => declaration.IsPortDeclaration
  | .net h => h.Fits
  | .netNamed parts name => (∀ t ∈ parts, t.IsNetPart) ∧ name.IsLeaf .simpleIdentifier
  | .netValue parts name e =>
    (∀ t ∈ parts, t.IsNetPart) ∧ name.IsLeaf .simpleIdentifier ∧ e.Fits
  | .netComma parts => ∀ t ∈ parts, t.IsNetPart
  | .target _ parts e => (∀ t ∈ parts, t.IsAssignment) ∧ e.Fits
  | .value _ parts left e => (∀ t ∈ parts, t.IsAssignment) ∧ left.IsExpression ∧ e.Fits

/-- What an item is after a token. -/
def Step.Fits : Step → Prop
  | .reading i => i.Fits
  | .complete t => t.IsItem

variable {i : Item} {next : Step}

theorem fits_stepNetPart {parts : List Tree} (hparts : ∀ t ∈ parts, t.IsNetPart)
    (hs : stepNetPart parts t = some next) : next.Fits := by
  unfold stepNetPart at hs
  split at hs
  · cases hs
    exact hparts
  · cases hs
    obtain ⟨l, hnode⟩ := Tree.spanning_eq_node .netDeclaration parts
    rw [hnode]
    exact Tree.IsItem.nets hparts
  · cases hs

theorem fits_stepAssignment {start : Nat} {parts : List Tree} {last : Tree}
    (hparts : ∀ t ∈ parts, t.IsAssignment) (hlast : last.IsAssignment)
    (hs : stepAssignment source start parts last t = some next) : next.Fits := by
  have hall := forall_mem_snoc hparts hlast
  unfold stepAssignment at hs
  split at hs
  · cases hs
    exact ⟨hall, Reader.fits_start _⟩
  · cases hs
    exact Tree.IsItem.assignments hall
  · cases hs

theorem fits_stepBlank (hs : stepBlank source t = some next) : next.Fits := by
  unfold stepBlank at hs
  split at hs
  · next hnode =>
    cases hs
    exact ⟨List.forall_mem_singleton.2 (isTypePart_of_directionNode? hnode), trivial⟩
  · next hnode =>
    cases hs
    exact ⟨List.forall_mem_singleton.2 (isTypePart_of_netTypeNode? hnode), trivial⟩
  · cases hs
    exact ⟨by simp, Reader.fits_start _⟩
  · cases hs

/-- Reading a token of an item keeps everything fitting. An expression inside the item ends at
the first token that it refuses, and that token decides how the item goes on. -/
theorem Fits.step (hfits : i.Fits) (ht : t.ReadFrom source.contents)
    (hs : i.step source t = some next) : next.Fits := by
  cases i with
  | blank => exact fits_stepBlank hs
  | port h =>
    obtain ⟨step, hstep, rfl⟩ := Option.map_eq_some_iff.1 hs
    have hhead := Head.Fits.step hfits ht hstep
    cases step with
    | reading head => exact hhead
    | named parts name => exact isPortDeclaration_portNode hhead.1 hhead.2
  | portNamed declaration =>
    unfold Item.step at hs
    dsimp only at hs
    split at hs <;> cases hs
    · exact hfits
    · exact hfits.1
  | portComma declaration =>
    obtain ⟨name, hname, rfl⟩ := Option.map_eq_some_iff.1 hs
    exact Tree.IsPortDeclaration.extend hfits (isLeaf_of_nameNode? hname)
  | net h =>
    obtain ⟨step, hstep, rfl⟩ := Option.map_eq_some_iff.1 hs
    have hhead := Head.Fits.step hfits ht hstep
    cases step with
    | reading head => exact hhead
    | named parts name => exact ⟨fun t ht => .before (hhead.1 t ht), hhead.2⟩
  | netNamed parts name =>
    obtain ⟨hparts, hname⟩ := hfits
    unfold Item.step at hs
    dsimp only at hs
    split at hs
    · cases hs
      exact ⟨hparts, hname, Reader.fits_start _⟩
    · exact fits_stepNetPart (forall_mem_snoc hparts (.name hname)) hs
  | netValue parts name e =>
    obtain ⟨hparts, hname, he⟩ := hfits
    unfold Item.step at hs
    dsimp only at hs
    split at hs
    · next hfeed =>
      cases hs
      exact ⟨hparts, hname, he.feed ht hfeed⟩
    · next whole hfeed =>
      obtain ⟨l, hnode⟩ := Tree.spanning_eq_node .netDeclAssignment [name, whole]
      rw [hnode] at hs
      exact fits_stepNetPart (forall_mem_snoc hparts (.defined hname (he.feed ht hfeed))) hs
    · cases hs
  | netComma parts =>
    obtain ⟨name, hname, rfl⟩ := Option.map_eq_some_iff.1 hs
    exact ⟨hfits, isLeaf_of_nameNode? hname⟩
  | target start parts e =>
    obtain ⟨hparts, he⟩ := hfits
    unfold Item.step at hs
    dsimp only at hs
    split at hs
    · next hfeed =>
      cases hs
      exact ⟨hparts, he.feed ht hfeed⟩
    · next hfeed _ =>
      cases hs
      exact ⟨hparts, he.feed ht hfeed, Reader.fits_start _⟩
    · cases hs
  | value start parts target e =>
    obtain ⟨hparts, htarget, he⟩ := hfits
    unfold Item.step at hs
    dsimp only at hs
    split at hs
    · next hfeed =>
      cases hs
      exact ⟨hparts, htarget, he.feed ht hfeed⟩
    · next whole hfeed =>
      obtain ⟨l, hnode⟩ := Tree.spanning_eq_node .netAssignment [target, whole]
      rw [hnode] at hs
      exact fits_stepAssignment hparts (.intro htarget (he.feed ht hfeed)) hs
    · cases hs

end Item

/-! ## Headers -/

/-- The ports that have been read fit. -/
structure Ports.Fits (p : Ports) : Prop where
  bare : ∀ t ∈ p.bare, t.IsLeaf .simpleIdentifier
  declared : ∀ t ∈ p.declared, t.IsPortDeclaration

namespace Ports

variable {p : Ports}

theorem fits_none : Ports.none.Fits :=
  ⟨by simp [none], by simp [none]⟩

theorem Fits.addDeclaration {declaration : Tree} (h : p.Fits)
    (hd : declaration.IsPortDeclaration) : (p.addDeclaration declaration).Fits :=
  ⟨h.bare, forall_mem_snoc h.declared hd⟩

theorem Fits.addName {name : Tree} (h : p.Fits) (hname : name.IsLeaf .simpleIdentifier) :
    (p.addName name).Fits := by
  unfold Ports.addName
  split
  · next last hlast =>
    -- the last declaration gives way to itself with one more name
    have hmem := List.mem_of_getLast? hlast
    refine ⟨h.bare, forall_mem_snoc (fun t ht => ?_) ((h.declared last hmem).extend hname)⟩
    exact h.declared t (List.dropLast_subset _ ht)
  · exact ⟨forall_mem_snoc h.bare hname, h.declared⟩

theorem Fits.nodes (h : p.Fits) : ∀ t ∈ p.nodes, t.IsModulePart := by
  have hdeclared : ∀ t ∈ p.declared, t.IsModulePart := fun t ht => .item (h.declared t ht).1
  unfold Ports.nodes
  split
  · exact hdeclared
  · obtain ⟨l, hnode⟩ := Tree.spanning_eq_node .listOfPorts p.bare
    rw [hnode]
    exact List.forall_mem_cons.2 ⟨.listed h.bare, hdeclared⟩

end Ports

namespace Header

/-- All that is held of a header fits. -/
def Fits : Header → Prop
  | .blank => True
  | .named name | .opened name => name.IsLeaf .simpleIdentifier
  | .port name ports h => name.IsLeaf .simpleIdentifier ∧ ports.Fits ∧ h.Fits
  | .portRead name ports | .portComma name ports | .closed name ports =>
    name.IsLeaf .simpleIdentifier ∧ ports.Fits

/-- What a header is after a token. -/
def Step.Fits : Step → Prop
  | .reading h => h.Fits
  | .complete children => ∀ t ∈ children, t.IsModulePart

variable {h : Header} {next : Step}

theorem fits_stepPort {name : Tree} {ports : Ports} (hname : name.IsLeaf .simpleIdentifier)
    (hports : ports.Fits) (hs : stepPort source name ports t = some next) : next.Fits := by
  unfold stepPort at hs
  split at hs
  · next hnode =>
    cases hs
    have hparts := List.forall_mem_singleton.2 (isTypePart_of_directionNode? hnode)
    exact ⟨hname, hports, hparts, trivial⟩
  · next hbare =>
    cases hs
    exact ⟨hname, hports.addName (isLeaf_of_nameNode? hbare)⟩
  · cases hs

theorem Fits.step (hfits : h.Fits) (ht : t.ReadFrom source.contents)
    (hs : h.step source t = some next) : next.Fits := by
  cases h with
  | blank =>
    obtain ⟨name, hname, rfl⟩ := Option.map_eq_some_iff.1 hs
    exact isLeaf_of_nameNode? hname
  | named name =>
    unfold Header.step at hs
    dsimp only at hs
    split at hs <;> cases hs
    · exact hfits
    · exact List.forall_mem_singleton.2 (.name hfits)
  | opened name =>
    unfold Header.step at hs
    dsimp only at hs
    split at hs
    · cases hs
      exact ⟨hfits, Ports.fits_none⟩
    · exact fits_stepPort hfits Ports.fits_none hs
  | port name ports head =>
    obtain ⟨hname, hports, hhead⟩ := hfits
    obtain ⟨step, hstep, rfl⟩ := Option.map_eq_some_iff.1 hs
    have hnext := hhead.step ht hstep
    cases step with
    | reading head => exact ⟨hname, hports, hnext⟩
    | named parts portName =>
      exact ⟨hname, hports.addDeclaration (isPortDeclaration_portNode hnext.1 hnext.2)⟩
  | portRead name ports =>
    unfold Header.step at hs
    dsimp only at hs
    split at hs <;> cases hs <;> exact hfits
  | portComma name ports => exact fits_stepPort hfits.1 hfits.2 hs
  | closed name ports =>
    unfold Header.step at hs
    dsimp only at hs
    split at hs <;> cases hs
    exact List.forall_mem_cons.2 ⟨.name hfits.1, hfits.2.nodes⟩

end Header

/-! ## Files -/

/-- What is held of the module that is being read fits. -/
def Place.Fits : Place → Prop
  | .outside | .lost _ => True
  | .header _ h => h.Fits
  | .body _ children item => (∀ t ∈ children, t.IsModulePart) ∧ item.Fits
  | .closed _ _ children | .spoiled _ children _ _ => ∀ t ∈ children, t.IsModulePart

namespace SourceFile

/-- All that is held of a source file fits. -/
structure Fits (f : SourceFile) : Prop where
  modules : ∀ t ∈ f.modules, t.IsModule
  place : f.place.Fits

variable {f : SourceFile}

theorem fits_start : start.Fits :=
  ⟨by simp [start], trivial⟩

theorem Fits.goto {place : Place} (h : f.Fits) (hplace : place.Fits) : (f.goto place).Fits :=
  ⟨h.modules, hplace⟩

/-- A spoiled item leaves an error node behind, whichever token ends it. -/
theorem fits_afterSpoiled {start stop : Nat} {children : List Tree} {refused : Token}
    (h : ∀ t ∈ children, t.IsModulePart) :
    (afterSpoiled source start children refused stop).Fits :=
  ⟨forall_mem_snoc h (.spoiled (.intro _)), trivial⟩

theorem Fits.refuse {start : Nat} {children : List Tree} (h : f.Fits)
    (hchildren : ∀ t ∈ children, t.IsModulePart) : (f.refuse source start children t).Fits := by
  unfold SourceFile.refuse
  split
  · exact h.goto (fits_afterSpoiled hchildren)
  · exact h.goto hchildren

theorem Fits.step_body {start : Nat} {children : List Tree} {item : Item} (h : f.Fits)
    (hplace : f.place = .body start children item) (ht : t.ReadFrom source.contents) :
    (f.step source t).Fits := by
  obtain ⟨hchildren, hitem⟩ : (∀ t ∈ children, t.IsModulePart) ∧ item.Fits := by
    have hfits := h.place
    rwa [hplace] at hfits
  simp only [SourceFile.step, hplace]
  split
  · exact h.goto hchildren
  · split
    · next hstep => exact h.goto ⟨hchildren, hitem.step ht hstep⟩
    · next hstep =>
      have hnode : Tree.IsItem _ := hitem.step ht hstep
      exact h.goto ⟨forall_mem_snoc hchildren (.item hnode), trivial⟩
    · exact h.refuse hchildren

/-- Reading a token of a file keeps everything fitting. -/
theorem Fits.step (h : f.Fits) (ht : t.ReadFrom source.contents) : (f.step source t).Fits := by
  have hplace := h.place
  cases heq : f.place with
  | body start children item => exact h.step_body heq ht
  | outside =>
    simp only [SourceFile.step, heq]
    split
    · exact h.goto trivial
    · exact h.goto trivial
  | header start header =>
    rw [heq] at hplace
    simp only [SourceFile.step, heq]
    split
    · next hstep => exact h.goto (Header.Fits.step hplace ht hstep)
    · next hstep => exact h.goto ⟨Header.Fits.step hplace ht hstep, trivial⟩
    · exact h.goto trivial
  | closed start stop children =>
    rw [heq] at hplace
    simp only [SourceFile.step, heq]
    split
    · exact ⟨forall_mem_snoc h.modules (.intro hplace), trivial⟩
    · exact h.refuse hplace
  | spoiled start children refused stop =>
    rw [heq] at hplace
    simp only [SourceFile.step, heq]
    split
    · exact h.goto (fits_afterSpoiled hplace)
    · exact h.goto hplace
  | lost refused => simpa only [SourceFile.step, heq] using h

theorem Fits.run {ts : List Token} (h : f.Fits) (hts : ∀ t ∈ ts, t.ReadFrom source.contents) :
    (f.run source ts).Fits := by
  induction ts generalizing f with
  | nil => exact h
  | cons t ts ih =>
    have hstep := h.step (hts t List.mem_cons_self)
    exact ih hstep fun t' ht' => hts t' (List.mem_cons_of_mem _ ht')

theorem Fits.isModule_of_finish {modules : List Tree} (h : f.Fits)
    (hf : f.finish source = .ok modules) : ∀ t ∈ modules, t.IsModule := by
  have hplace := h.place
  unfold SourceFile.finish at hf
  split at hf
  · cases hf
    exact h.modules
  · next heq =>
    rw [heq] at hplace
    cases hf
    exact forall_mem_snoc h.modules (.intro hplace)
  all_goals cases hf

end SourceFile

/-! ## What is read from text -/

variable {root : Tree}

theorem readFrom_of_tokens {ts : List Token} (h : tokens source = .ok ts) :
    ∀ t ∈ ts, t.ReadFrom source.contents := by
  unfold tokens at h
  split at h
  · next hscan =>
    cases h
    exact Token.readFrom_of_scan hscan
  · cases h

/-- A text that is read as an expression has the shape of one. -/
theorem isExpression_of_parseExpression (h : parseExpression source = .ok root) :
    root.IsExpression := by
  obtain ⟨ts, hts, hroot⟩ := exists_of_bind_eq_ok h
  unfold expressionOfTokens at hroot
  split at hroot
  · cases hroot
  · next hrun =>
    have hfits := (Reader.fits_start .any).run (readFrom_of_tokens hts) hrun
    split at hroot
    · next hfinish =>
      cases hroot
      exact hfits.isExpression hfinish
    · cases hroot

/-- A text is read as a file where its tokens are a row of modules from the start to the end. -/
theorem parseFile_eq_ok_iff : parseFile source = .ok root ↔ ∃ ts modules,
    tokens source = .ok ts ∧ (SourceFile.start.run source ts).finish source = .ok modules ∧
      root = nodeOver source .sourceFile 0 source.byteLength modules := by
  constructor
  · intro h
    obtain ⟨ts, hts, hroot⟩ := exists_of_bind_eq_ok h
    unfold fileOfTokens at hroot
    split at hroot
    · next modules hfinish => exact ⟨ts, modules, hts, hfinish, (Except.ok.inj hroot).symm⟩
    · cases hroot
    · cases hroot
  · rintro ⟨ts, modules, hts, hfinish, rfl⟩
    have hfile : fileOfTokens source ts =
        .ok (nodeOver source .sourceFile 0 source.byteLength modules) := by
      rw [fileOfTokens, hfinish]
    rw [parseFile, hts]
    exact hfile

/-- A text that is read as a file has the shape of one. -/
theorem isFile_of_parseFile (h : parseFile source = .ok root) : root.IsFile := by
  obtain ⟨ts, modules, hts, hfinish, rfl⟩ := parseFile_eq_ok_iff.1 h
  have hfits := SourceFile.fits_start.run (readFrom_of_tokens hts)
  exact .intro (hfits.isModule_of_finish hfinish)

end Grammar

end Netlist
