/-
A phrase drives the reader of files.

Each reader stands inside a larger one: that of expressions in those of ranges and definitions,
those in the reader of items or of headers, and those in the reader of files. What a part does to
its own reader is said once, and the larger reader takes it along (`Reads.lift`). The readers of
parts end where they refuse a token or where a name comes, so each lemma says both what has been
read and what the next token does. A file without recovered items is read, and read as the trees of
its modules (`Phrase.finish_run`).
-/
import Netlist.Proofs.DerivationRuns
import Netlist.Proofs.FileGrammar
import Netlist.Proofs.Shapes

set_option autoImplicit false

namespace Netlist.Grammar

variable {source : Source} {t : Token} {p : Punctuation} {ts us : List Token}

/-! ## Expressions inside larger constructs -/

namespace Reader

variable {r next : Reader} {e : Tree}

theorem feed_of_step (h : r.step source t = some next) :
    r.feed source t = some (.reading next) := by
  rw [feed, h]

theorem exists_operand_of_finish? (h : r.finish? = some e) :
    ∃ read, r.progress = .operand read ∧ close 0 r.stack read = ([], e) := by
  rw [finish?] at h
  split at h
  · next read hprogress =>
    split at h
    · next hclose =>
      cases h
      exact ⟨read, hprogress, hclose⟩
    · cases h
  · cases h

/-- A complete expression goes on with operators, with question marks and, behind a name, with
brackets. Any other sign comes after it. -/
theorem feed_of_finish? (h : r.finish? = some e) (hp : t.terminal = .punctuation p)
    (hbinary : p.binary? = none) (hquestion : p ≠ .question) (hbracket : p ≠ .openBracket) :
    r.feed source t = some (.complete e) := by
  obtain ⟨read, hprogress, hclose⟩ := exists_operand_of_finish? h
  have hstep : r.step source t = none := by
    simp only [step, hprogress, stepOperand, hp]
    split
    · rfl
    · simp only [stepSign, hbinary, hclose]
  rw [feed, hstep, h]
  rfl

end Reader

/-! ## Leaves -/

theorem directionNode?_eq_some_iff {node : Tree} : directionNode? source t = some node ↔
    (∃ k ∈ directions, t.terminal = .keyword k) ∧ node = tokenNode source .portDirection t := by
  unfold directionNode? directions
  cases hx : t.terminal with
  | keyword k => cases k <;> simp [eq_comm]
  | _ => simp

theorem netTypeNode?_eq_some_iff {node : Tree} : netTypeNode? source t = some node ↔
    (∃ k ∈ netTypes, t.terminal = .keyword k) ∧ node = tokenNode source .netType t := by
  unfold netTypeNode? netTypes
  cases hx : t.terminal with
  | keyword k => cases k <;> simp [eq_comm]
  | _ => simp

theorem nameNode?_eq_some_iff {node : Tree} : nameNode? source t = some node ↔
    t.terminal = .identifier ∧ node = tokenNode source .simpleIdentifier t := by
  unfold nameNode?
  cases hx : t.terminal with
  | identifier => simp [eq_comm]
  | _ => simp

theorem nameNode?_eq (name : Lexeme .identifier) :
    nameNode? source name.1 = some (tokenNode source .simpleIdentifier name.1) :=
  nameNode?_eq_some_iff.2 ⟨name.2, rfl⟩

theorem directionNode?_eq (d : KeyAmong directions) :
    directionNode? source d.1 = some (tokenNode source .portDirection d.1) :=
  directionNode?_eq_some_iff.2 ⟨d.2, rfl⟩

theorem netTypeNode?_eq (k : KeyAmong netTypes) :
    netTypeNode? source k.1 = some (tokenNode source .netType k.1) :=
  netTypeNode?_eq_some_iff.2 ⟨k.2, rfl⟩

/-- The type of a net is no direction. -/
theorem directionNode?_eq_none (k : KeyAmong netTypes) : directionNode? source k.1 = none := by
  obtain ⟨t, k, hmem, ht⟩ := k
  simp only [netTypes, List.mem_cons, List.not_mem_nil, or_false] at hmem
  rcases hmem with rfl | rfl | rfl
  · simp only [directionNode?, ht]
  · simp only [directionNode?, ht]
  · simp only [directionNode?, ht]

/-! ## Declarations up to their first name -/

namespace Head

/-- Reads a token that is not the name. -/
def next (source : Source) (h : Head) (t : Token) : Option Head :=
  match h.step source t with
  | some (.reading next) => some next
  | _ => none

theorem next_eq_some_iff {h h' : Head} :
    h.next source t = some h' ↔ h.step source t = some (.reading h') := by
  unfold next
  cases h.step source t with
  | none => simp
  | some s => cases s <;> simp

theorem next_of_step {h h' : Head} (hs : h.step source t = some (.reading h')) :
    h.next source t = some h' :=
  next_eq_some_iff.2 hs

/-- An expression inside a declaration. -/
theorem reads_expression {f : Reader → Head} {r r' : Reader}
    (hr : Reads (Reader.step source) r ts r')
    (hf : ∀ e t e', e.step source t = some e' → (f e).step source t = some (.reading (f e'))) :
    Reads (next source) (f r) ts (f r') :=
  hr.lift fun _ _ _ hs => next_of_step (hf _ _ _ hs)

/-- The name may come. -/
def AwaitsName (stage : HeadStage) : Prop :=
  stage = .direction ∨ stage = .netType ∨ stage = .range

theorem AwaitsName.step {stage : HeadStage} (h : AwaitsName stage) (parts : List Tree)
    (name : Lexeme .identifier) : (⟨parts, stage⟩ : Head).step source name.1 =
      some (.named parts (tokenNode source .simpleIdentifier name.1)) := by
  have htype : netTypeNode? source name.1 = none := by
    rw [netTypeNode?, name.2]
  rcases h with rfl | rfl | rfl
  · simp only [Head.step, htype, stepRange, name.2, stepName, nameNode?_eq, Option.map_some]
  · simp only [Head.step, stepRange, name.2, stepName, nameNode?_eq, Option.map_some]
  · simp only [Head.step, stepName, nameNode?_eq, Option.map_some]

/-- The type of a net follows a direction. -/
theorem reads_type (first : Tree) (ty : Phrase (.optional .netType)) :
    ∃ stage, (stage = .direction ∨ stage = .netType) ∧
      Reads (next source) ⟨[first], .direction⟩ ty.yield ⟨first :: ty.trees source, stage⟩ := by
  match ty with
  | .absent => exact ⟨.direction, .inl rfl, .done⟩
  | .present (.netType t) =>
    refine ⟨.netType, .inr rfl, .one (next_of_step ?_)⟩
    simp only [step, netTypeNode?_eq]
    rfl

/-- A range follows what comes before it. -/
theorem reads_range {stage : HeadStage} (hstage : stage = .direction ∨ stage = .netType)
    (parts : List Tree) (r : Phrase (.optional .range)) : ∃ stage', AwaitsName stage' ∧
      Reads (next source) ⟨parts, stage⟩ r.yield ⟨parts ++ r.trees source, stage'⟩ := by
  match r with
  | .absent =>
    refine ⟨stage, hstage.imp_right .inl, ?_⟩
    rw [Phrase.trees, List.append_nil]
    exact .done
  | .present (.range o u s l c) =>
    obtain ⟨upper, e₁, hu, hreads₁, hf₁⟩ := u.exists_run source
    obtain ⟨lower, e₂, hl, hreads₂, hf₂⟩ := l.exists_run source
    have hopen : (⟨parts, stage⟩ : Head).next source o.1 =
        some ⟨parts, .upper o.1.start (.start .any)⟩ := by
      apply next_of_step
      have htype : netTypeNode? source o.1 = none := by
        rw [netTypeNode?, o.2]
      rcases hstage with rfl | rfl
      · simp only [step, htype, stepRange, o.2]
      · simp only [step, stepRange, o.2]
    -- neither sign continues an expression, so each comes after a complete bound
    have hcolon : (⟨parts, .upper o.1.start e₁⟩ : Head).next source s.1 =
        some ⟨parts, .lower o.1.start upper (.start .any)⟩ := by
      apply next_of_step
      simp only [step, Reader.feed_of_finish? hf₁ s.2 rfl nofun nofun, s.2]
    have hclose : (⟨parts, .lower o.1.start upper e₂⟩ : Head).next source c.1 =
        some ⟨parts ++ [nodeOver source .packedDimension o.1.start c.1.stop [upper, lower]],
          .range⟩ := by
      apply next_of_step
      simp only [step, Reader.feed_of_finish? hf₂ c.2 rfl nofun nofun, c.2]
    have hupper := reads_expression (f := fun e => (⟨parts, .upper o.1.start e⟩ : Head)) hreads₁
      fun e t e' he => by
        simp only [step, Reader.feed_of_step he]
    have hlower := reads_expression (f := fun e => (⟨parts, .lower o.1.start upper e⟩ : Head))
      hreads₂ fun e t e' he => by
        simp only [step, Reader.feed_of_step he]
    refine ⟨.range, .inr (.inr rfl), ?_⟩
    rw [Phrase.yield, Phrase.trees, Phrase.yield, Phrase.trees, hu, hl]
    exact .read hopen (hupper.append (.read hcolon (hlower.append (.one hclose))))

/-- The declaration of a port up to its first name. -/
theorem reads_port (source : Source) (first : Tree) (ty : Phrase (.optional .netType))
    (r : Phrase (.optional .range)) :
    ∃ stage, AwaitsName stage ∧ Reads (next source) ⟨[first], .direction⟩ (ty.yield ++ r.yield)
      ⟨first :: (ty.trees source ++ r.trees source), stage⟩ := by
  obtain ⟨stage, hstage, htype⟩ := reads_type first ty
  obtain ⟨stage', hstage', hrange⟩ := reads_range hstage (first :: ty.trees source) r
  exact ⟨stage', hstage', htype.append hrange⟩

end Head

/-! ## Items -/

namespace Item

/-- Reads a token that does not end the item. -/
def next (source : Source) (i : Item) (t : Token) : Option Item :=
  match i.step source t with
  | some (.reading next) => some next
  | _ => none

theorem next_eq_some_iff {i i' : Item} :
    i.next source t = some i' ↔ i.step source t = some (.reading i') := by
  unfold next
  cases i.step source t with
  | none => simp
  | some s => cases s <;> simp

theorem next_of_step {i i' : Item} (hs : i.step source t = some (.reading i')) :
    i.next source t = some i' :=
  next_eq_some_iff.2 hs

theorem next_of_head {f : Head → Item} {h h' : Head} (hs : h.next source t = some h')
    (hf : ∀ h t h', h.step source t = some (.reading h') →
      (f h).step source t = some (.reading (f h'))) : (f h).next source t = some (f h') :=
  next_of_step (hf _ _ _ (Head.next_eq_some_iff.1 hs))

/-- A declaration inside an item. -/
theorem reads_head {f : Head → Item} {h h' : Head} (hr : Reads (Head.next source) h ts h')
    (hf : ∀ h t h', h.step source t = some (.reading h') →
      (f h).step source t = some (.reading (f h'))) : Reads (next source) (f h) ts (f h') :=
  hr.lift fun _ _ _ hs => next_of_head hs hf

/-- An expression inside an item. -/
theorem reads_expression {f : Reader → Item} {r r' : Reader}
    (hr : Reads (Reader.step source) r ts r')
    (hf : ∀ e t e', e.step source t = some e' → (f e).step source t = some (.reading (f e'))) :
    Reads (next source) (f r) ts (f r') :=
  hr.lift fun _ _ _ hs => next_of_step (hf _ _ _ hs)

/-! ### Ports -/

/-- The declaration of ports is read, up to a name. -/
theorem reads_portDeclaration (source : Source) : (d : Phrase .portDeclaration) →
    ∃ node, d.trees source = [node] ∧ Reads (next source) .blank d.yield (.portNamed node)
  | .port (.portHead d ty r name) => by
    obtain ⟨stage, hstage, hhead⟩ :=
      Head.reads_port source (tokenNode source .portDirection d.1) ty r
    have hdirection : Item.blank.next source d.1 =
        some (.port ⟨[tokenNode source .portDirection d.1], .direction⟩) := by
      apply next_of_step
      simp only [step, stepBlank, directionNode?_eq]
    have hitem := reads_head (f := Item.port) hhead fun h t h' hs => by
      simp only [step, hs, Option.map_some]
    have hname : ∀ parts, (Item.port ⟨parts, stage⟩).next source name.1 =
        some (.portNamed (portNode parts (tokenNode source .simpleIdentifier name.1))) := by
      intro parts
      apply next_of_step
      simp only [step, hstage.step, Option.map_some]
    have hreads := Reads.read hdirection (hitem.append (.one (hname _)))
    refine ⟨_, rfl, ?_⟩
    rw [portNode, List.cons_append, List.append_assoc] at hreads
    rw [List.append_assoc] at hreads
    exact hreads
  | .nextPort d s name => by
    obtain ⟨node, hnode, hreads⟩ := reads_portDeclaration source d
    have hcomma : (Item.portNamed node).next source s.1 = some (.portComma node) := by
      apply next_of_step
      simp only [step, s.2]
    have hname : (Item.portComma node).next source name.1 =
        some (.portNamed (node.extend (tokenNode source .simpleIdentifier name.1))) := by
      apply next_of_step
      simp only [step, nameNode?_eq, Option.map_some]
    refine ⟨node.extend (tokenNode source .simpleIdentifier name.1), ?_, ?_⟩
    · rw [Phrase.trees, hnode]
      rfl
    · rw [Phrase.yield]
      exact hreads.append (.read hcomma (.one hname))

/-! ### Nets -/

/-- The next token may be the name of a net. -/
def AwaitsNet (source : Source) (i : Item) (parts : List Tree) : Prop :=
  ∀ name : Lexeme .identifier, i.step source name.1 =
    some (.reading (.netNamed parts (tokenNode source .simpleIdentifier name.1)))

/-- Behind the parts, a comma or the end of the declaration may come. -/
def EndsNet (source : Source) (i : Item) (parts : List Tree) : Prop :=
  ∀ t : Token, t.terminal = .punctuation .comma ∨ t.terminal = .punctuation .semicolon →
    i.step source t = stepNetPart parts t

theorem awaitsNet_netComma (parts : List Tree) : AwaitsNet source (.netComma parts) parts := by
  intro name
  simp only [step, nameNode?_eq, Option.map_some]

theorem reads_netItem {i : Item} {parts : List Tree} (h : AwaitsNet source i parts) :
    (d : Phrase .netItem) → ∃ i', Reads (next source) i d.yield i' ∧
      EndsNet source i' (parts ++ d.trees source)
  | .net name => by
    refine ⟨_, .one (next_of_step (h name)), ?_⟩
    intro t ht
    rcases ht with ht | ht
    · simp only [step, ht]
      rfl
    · simp only [step, ht]
      rfl
  | .definedNet name s e => by
    obtain ⟨whole, r, hwhole, hr, hf⟩ := e.exists_run source
    have hequals :
        (Item.netNamed parts (tokenNode source .simpleIdentifier name.1)).next source s.1 =
          some (.netValue parts (tokenNode source .simpleIdentifier name.1) (.start .any)) := by
      apply next_of_step
      simp only [step, s.2]
    have hvalue := reads_expression
      (f := Item.netValue parts (tokenNode source .simpleIdentifier name.1)) hr fun e t e' he => by
        simp only [step, Reader.feed_of_step he]
    refine ⟨_, .read (next_of_step (h name)) (.read hequals hvalue), ?_⟩
    intro t ht
    rw [Phrase.trees, hwhole]
    rcases ht with ht | ht
    · simp only [step, Reader.feed_of_finish? hf ht rfl nofun nofun]
    · simp only [step, Reader.feed_of_finish? hf ht rfl nofun nofun]

theorem reads_netItems {i : Item} {parts : List Tree} (h : AwaitsNet source i parts) :
    (ds : Phrase (.row .netItem)) → ∃ i', Reads (next source) i ds.yield i' ∧
      EndsNet source i' (parts ++ ds.trees source)
  | .one d => reads_netItem h d
  | .more ds s d => by
    obtain ⟨i₁, hreads₁, hends₁⟩ := reads_netItems h ds
    have hcomma : i₁.next source s.1 = some (.netComma (parts ++ ds.trees source)) := by
      apply next_of_step
      rw [hends₁ s.1 (.inl s.2)]
      simp only [stepNetPart, s.2]
    obtain ⟨i₂, hreads₂, hends₂⟩ := reads_netItem (awaitsNet_netComma _) d
    refine ⟨i₂, hreads₁.append (.read hcomma hreads₂), ?_⟩
    rw [Phrase.trees, ← List.append_assoc]
    exact hends₂

/-- The declaration of nets is read, up to the sign that ends it. -/
theorem reads_netDeclaration (source : Source) : (d : Phrase .netDeclaration) → ∃ i parts,
    d.trees source = [.spanning .netDeclaration parts] ∧ Reads (next source) .blank d.yield i ∧
      EndsNet source i parts
  | .netDeclaration (.netType k) r items => by
    obtain ⟨stage, hstage, hhead⟩ :=
      Head.reads_range (.inr rfl) [tokenNode source .netType k.1] r
    have htype : Item.blank.next source k.1 =
        some (.net ⟨[tokenNode source .netType k.1], .netType⟩) := by
      have hdirection : directionNode? source k.1 = none := directionNode?_eq_none k
      apply next_of_step
      simp only [step, stepBlank, hdirection, netTypeNode?_eq]
    have hitem := reads_head (f := Item.net) hhead fun h t h' hs => by
      simp only [step, hs, Option.map_some]
    have hawaits : ∀ parts, AwaitsNet source (.net ⟨parts, stage⟩) parts := by
      intro parts name
      simp only [step, hstage.step, Option.map_some]
    obtain ⟨i, hitems, hends⟩ := reads_netItems (hawaits _) items
    refine ⟨i, _, ?_, .read htype (hitem.append hitems), hends⟩
    rw [Phrase.trees, Phrase.trees, List.append_assoc]

/-! ### Assignments -/

/-- Behind the assignments, another one or the end of the item may come. -/
def EndsAssigns (source : Source) (i : Item) (start : Nat) (parts : List Tree) : Prop :=
  (∀ t : Token, t.terminal = .punctuation .comma →
    i.step source t = some (.reading (.target start parts (.start .operand)))) ∧
  ∀ t : Token, t.terminal = .punctuation .semicolon →
    i.step source t = some (.complete (assignsNode source start parts))

theorem assignsNode_snoc (start : Nat) (parts : List Tree) (last : Tree) :
    assignsNode source start (parts ++ [last]) =
      nodeOver source .continuousAssign start last.location.stop (parts ++ [last]) := by
  rw [assignsNode, List.getLast?_concat]
  rfl

theorem reads_assignment (source : Source) (start : Nat) (parts : List Tree) :
    (d : Phrase .assignment) → ∃ i,
      Reads (next source) (.target start parts (.start .operand)) d.yield i ∧
        EndsAssigns source i start (parts ++ d.trees source)
  | .assignment l s e => by
    obtain ⟨left, hleft, hr₁⟩ := l.exists_run_primary source .operand
    obtain ⟨right, r₂, hright, hr₂, hf₂⟩ := e.exists_run source
    -- the target is read as an operand, which the equals sign cannot continue
    have hf₁ : (⟨.operand, [], .operand left⟩ : Reader).finish? = some left := rfl
    have htarget := reads_expression (f := Item.target start parts) hr₁ fun e t e' he => by
      simp only [step, Reader.feed_of_step he]
    have hequals : (Item.target start parts ⟨.operand, [], .operand left⟩).next source s.1 =
        some (.value start parts left (.start .any)) := by
      apply next_of_step
      simp only [step, Reader.feed_of_finish? hf₁ s.2 rfl nofun nofun, s.2]
    have hvalue := reads_expression (f := Item.value start parts left) hr₂ fun e t e' he => by
      simp only [step, Reader.feed_of_step he]
    refine ⟨_, htarget.append (.read hequals hvalue), ?_, ?_⟩
    · intro t ht
      rw [Phrase.trees, hleft, hright]
      simp only [step, Reader.feed_of_finish? hf₂ ht rfl nofun nofun, stepAssignment, ht]
      rfl
    · intro t ht
      rw [Phrase.trees, hleft, hright, assignsNode_snoc]
      simp only [step, Reader.feed_of_finish? hf₂ ht rfl nofun nofun, stepAssignment, ht]
      rfl

theorem reads_assignments (source : Source) (start : Nat) : (ds : Phrase (.row .assignment)) → ∃ i,
    Reads (next source) (.target start [] (.start .operand)) ds.yield i ∧
      EndsAssigns source i start (ds.trees source)
  | .one d => reads_assignment source start [] d
  | .more ds s d => by
    obtain ⟨i₁, hreads₁, hends₁⟩ := reads_assignments source start ds
    have hcomma : i₁.next source s.1 = some (.target start (ds.trees source) (.start .operand)) :=
      next_of_step (hends₁.1 s.1 s.2)
    obtain ⟨i₂, hreads₂, hends₂⟩ := reads_assignment source start (ds.trees source) d
    exact ⟨i₂, hreads₁.append (.read hcomma hreads₂), hends₂⟩

/-! ### Items -/

/-- An item is read up to its semicolon, which completes it. -/
theorem reads_item (source : Source) : (d : Phrase (.item false)) →
    ∃ ts i s node, d.yield = ts ++ [s] ∧ d.trees source = [node] ∧
      Reads (next source) .blank ts i ∧ i.step source s = some (.complete node)
  | .portsItem d s => by
    obtain ⟨node, hnode, hreads⟩ := reads_portDeclaration source d
    refine ⟨d.yield, _, s.1, node, rfl, hnode, hreads, ?_⟩
    simp only [step, s.2]
  | .netsItem d s => by
    obtain ⟨i, parts, hnode, hreads, hends⟩ := reads_netDeclaration source d
    refine ⟨d.yield, i, s.1, _, rfl, hnode, hreads, ?_⟩
    rw [hends s.1 (.inr s.2)]
    simp only [stepNetPart, s.2]
  | .assignsItem (.continuousAssign k items) s => by
    obtain ⟨i, hreads, hends⟩ := reads_assignments source k.1.start items
    have hassign : Item.blank.next source k.1 = some (.target k.1.start [] (.start .operand)) := by
      apply next_of_step
      simp only [step, stepBlank, directionNode?, netTypeNode?, k.2]
    exact ⟨k.1 :: items.yield, i, s.1, _, rfl, rfl, .read hassign hreads, hends.2 s.1 s.2⟩

end Item

/-! ## Headers -/

theorem Ports.add_declaration (ports : Ports) (parts : List Tree) :
    ports.add (.spanning .portDeclaration parts) =
      ports.addDeclaration (.spanning .portDeclaration parts) := by
  rw [Ports.add, Tree.kind_spanning, if_pos rfl]

namespace Header

/-- Reads a token that does not end the header. -/
def next (source : Source) (h : Header) (t : Token) : Option Header :=
  match h.step source t with
  | some (.reading next) => some next
  | _ => none

theorem next_eq_some_iff {h h' : Header} :
    h.next source t = some h' ↔ h.step source t = some (.reading h') := by
  unfold next
  cases h.step source t with
  | none => simp
  | some s => cases s <;> simp

theorem next_of_step {h h' : Header} (hs : h.step source t = some (.reading h')) :
    h.next source t = some h' :=
  next_eq_some_iff.2 hs

theorem next_of_head {name : Tree} {ports : Ports} {h h' : Head} (hs : h.next source t = some h') :
    (Header.port name ports h).next source t = some (.port name ports h') := by
  apply next_of_step
  simp only [step, Head.next_eq_some_iff.1 hs, Option.map_some]

/-- The first token of a port may come. -/
def AwaitsPort (source : Source) (h : Header) (name : Tree) (ports : Ports) : Prop :=
  ∀ t : Token, t.terminal ≠ .punctuation .closeParen →
    h.step source t = stepPort source name ports t

theorem awaitsPort_opened (source : Source) (name : Tree) :
    AwaitsPort source (.opened name) name .none := by
  intro t ht
  simp only [step]

theorem awaitsPort_portComma (source : Source) (name : Tree) (ports : Ports) :
    AwaitsPort source (.portComma name ports) name ports := by
  intro t _
  rfl

theorem reads_portItem {h : Header} {name : Tree} {ports : Ports}
    (hh : AwaitsPort source h name ports) : (d : Phrase .portItem) →
      Reads (next source) h d.yield (.portRead name ((d.trees source).foldl Ports.add ports))
  | .listedPort n => by
    apply Reads.one
    apply next_of_step
    have hdirection : directionNode? source n.1 = none := by
      simp only [directionNode?, n.2]
    rw [hh n.1 (by rw [n.2]; nofun)]
    simp only [stepPort, hdirection, nameNode?_eq]
    rfl
  | .declaredPort (.portHead d ty r n) => by
    obtain ⟨stage, hstage, hhead⟩ :=
      Head.reads_port source (tokenNode source .portDirection d.1) ty r
    have hdirection : h.next source d.1 =
        some (.port name ports ⟨[tokenNode source .portDirection d.1], .direction⟩) := by
      apply next_of_step
      rw [hh d.1 (by obtain ⟨t, k, -, ht⟩ := d; rw [ht]; nofun)]
      simp only [stepPort, directionNode?_eq]
    have hhead' : Reads (next source)
        (.port name ports ⟨[tokenNode source .portDirection d.1], .direction⟩) (ty.yield ++ r.yield)
        (.port name ports ⟨_, stage⟩) :=
      hhead.lift (f := Header.port name ports) fun _ _ _ hs => next_of_head hs
    have hname : ∀ parts, (Header.port name ports ⟨parts, stage⟩).next source n.1 =
        some (.portRead name (ports.addDeclaration
          (portNode parts (tokenNode source .simpleIdentifier n.1)))) := by
      intro parts
      apply next_of_step
      simp only [step, hstage.step, Option.map_some]
    have hreads := Reads.read hdirection (hhead'.append (.one (hname _)))
    rw [portNode, List.cons_append, List.append_assoc] at hreads
    rw [List.append_assoc] at hreads
    rw [Phrase.trees, Phrase.trees, List.foldl_cons, List.foldl_nil, Ports.add_declaration]
    exact hreads

theorem reads_portItems {h : Header} {name : Tree} (hh : AwaitsPort source h name .none) :
    (ds : Phrase (.row .portItem)) →
      Reads (next source) h ds.yield (.portRead name (Ports.ofItems (ds.trees source)))
  | .one d => reads_portItem hh d
  | .more ds s d => by
    have hreads := reads_portItems hh ds
    have hcomma : (Header.portRead name (Ports.ofItems (ds.trees source))).next source s.1 =
        some (.portComma name (Ports.ofItems (ds.trees source))) := by
      apply next_of_step
      simp only [step, s.2]
    have hawaits := awaitsPort_portComma source name (Ports.ofItems (ds.trees source))
    have hport := reads_portItem hawaits d
    rw [Phrase.trees, Ports.ofItems, List.foldl_append]
    exact hreads.append (.read hcomma hport)

/-- A header is read up to its semicolon, which completes it. -/
theorem reads_header (source : Source) (name : Lexeme .identifier) (s : Sign .semicolon) :
    (ports : Phrase (.optional .ports)) → ∃ h,
      Reads (next source) .blank (name.1 :: ports.yield) h ∧ h.step source s.1 =
        some (.complete (tokenNode source .simpleIdentifier name.1 :: ports.trees source)) := by
  have hname : Header.blank.next source name.1 =
      some (.named (tokenNode source .simpleIdentifier name.1)) := by
    apply next_of_step
    simp only [step, nameNode?_eq, Option.map_some]
  intro ports
  match ports with
  | .absent =>
    refine ⟨_, .one hname, ?_⟩
    simp only [step, s.2]
    rfl
  | .present (.noPorts o c) =>
    have hopen : (Header.named (tokenNode source .simpleIdentifier name.1)).next source o.1 =
        some (.opened (tokenNode source .simpleIdentifier name.1)) := by
      apply next_of_step
      simp only [step, o.2]
    have hclose : (Header.opened (tokenNode source .simpleIdentifier name.1)).next source c.1 =
        some (.closed (tokenNode source .simpleIdentifier name.1) .none) := by
      apply next_of_step
      simp only [step, c.2]
    refine ⟨_, .read hname (.read hopen (.one hclose)), ?_⟩
    simp only [step, s.2]
    rfl
  | .present (.ports o items c) =>
    have hopen : (Header.named (tokenNode source .simpleIdentifier name.1)).next source o.1 =
        some (.opened (tokenNode source .simpleIdentifier name.1)) := by
      apply next_of_step
      simp only [step, o.2]
    have hitems := reads_portItems
      (awaitsPort_opened source (tokenNode source .simpleIdentifier name.1)) items
    have hclose : ∀ ports,
        (Header.portRead (tokenNode source .simpleIdentifier name.1) ports).next source c.1 =
          some (.closed (tokenNode source .simpleIdentifier name.1) ports) := by
      intro ports
      apply next_of_step
      simp only [step, c.2]
    refine ⟨_, .read hname (.read hopen (hitems.append (.one (hclose _)))), ?_⟩
    simp only [step, s.2]
    rfl

end Header

/-! ## Files -/

namespace SourceFile

variable {modules children : List Tree} {start : Nat}

theorem run_cons (f : SourceFile) : f.run source (t :: ts) = (f.step source t).run source ts :=
  rfl

theorem run_append (f : SourceFile) : f.run source (ts ++ us) = (f.run source ts).run source us :=
  List.foldl_append

theorem run_concat (f : SourceFile) : f.run source (ts ++ [t]) = (f.run source ts).step source t :=
  run_append f

/-- Where a token leads that an item has read. -/
def bodyAfter (start : Nat) (children : List Tree) : Item.Step → Place
  | .reading next => .body start children next
  | .complete node => .body start (children ++ [node]) .blank

/-- In the body of a module a token is offered to the item, unless the keyword that ends the module
stands between items. -/
theorem step_body {i : Item} {s : Item.Step} (h : i.step source t = some s) :
    (⟨modules, .body start children i⟩ : SourceFile).step source t =
      ⟨modules, bodyAfter start children s⟩ := by
  simp only [step]
  split
  · next hkey =>
    simp only [Item.step, Item.stepBlank, directionNode?, netTypeNode?, hkey] at h
    cases h
  · rw [h]
    cases s <;> rfl

theorem run_body {i i' : Item} (h : Reads (Item.next source) i ts i') :
    (⟨modules, .body start children i⟩ : SourceFile).run source ts =
      ⟨modules, .body start children i'⟩ := by
  induction h with
  | done => rfl
  | read hs _ ih =>
    rw [run_cons, step_body (Item.next_eq_some_iff.1 hs)]
    exact ih

theorem run_header {h h' : Header} (hr : Reads (Header.next source) h ts h') :
    (⟨modules, .header start h⟩ : SourceFile).run source ts = ⟨modules, .header start h'⟩ := by
  induction hr with
  | done => rfl
  | read hs _ ih =>
    rw [run_cons]
    simp only [step, Header.next_eq_some_iff.1 hs]
    exact ih

theorem run_item (d : Phrase (.item false)) :
    (⟨modules, .body start children .blank⟩ : SourceFile).run source d.yield =
      ⟨modules, .body start (children ++ d.trees source) .blank⟩ := by
  obtain ⟨ts, i, s, node, hyield, hnode, hreads, hs⟩ := Item.reads_item source d
  rw [hyield, hnode, run_concat, run_body hreads]
  exact step_body hs

theorem run_items : (ds : Phrase (.many (.item false))) →
    (⟨modules, .body start children .blank⟩ : SourceFile).run source ds.yield =
      ⟨modules, .body start (children ++ ds.trees source) .blank⟩
  | .none => by
    rw [Phrase.trees, List.append_nil]
    rfl
  | .snoc ds d => by
    rw [Phrase.yield, Phrase.trees, run_append, run_items ds, run_item, List.append_assoc]

/-- A module may come wherever the file may end. -/
theorem step_of_finish {f : SourceFile} (h : f.finish source = .ok modules)
    (k : Key .module) : f.step source k.1 = ⟨modules, .header k.1.start .blank⟩ := by
  unfold finish at h
  split at h
  · next hplace =>
    cases h
    simp only [step, hplace, k.2]
    rfl
  · next hplace =>
    cases h
    simp only [step, hplace, k.2]
  all_goals cases h

theorem finish_run_module {f : SourceFile} (h : f.finish source = .ok modules) :
    (d : Phrase (.module false)) →
      (f.run source d.yield).finish source = .ok (modules ++ d.trees source)
  | .module k name ports s items e => by
    obtain ⟨h', hreads, hs⟩ := Header.reads_header source name s ports
    have hbody : (⟨modules, .header k.1.start h'⟩ : SourceFile).step source s.1 =
        ⟨modules, .body k.1.start (tokenNode source .simpleIdentifier name.1 :: ports.trees source)
          .blank⟩ := by
      simp only [step, hs]
      rfl
    have hend : ∀ children, (⟨modules, .body k.1.start children .blank⟩ : SourceFile).step source
        e.1 = ⟨modules, .closed k.1.start e.1.stop children⟩ := by
      intro children
      simp only [step, e.2]
      rfl
    have hsplit : (Phrase.module k name ports s items e).yield =
        k.1 :: (name.1 :: ports.yield ++ s.1 :: (items.yield ++ [e.1])) := rfl
    calc (f.run source (Phrase.module k name ports s items e).yield).finish source
        = ((⟨modules, .header k.1.start .blank⟩ : SourceFile).run source
            (name.1 :: ports.yield ++ s.1 :: (items.yield ++ [e.1]))).finish source := by
          rw [hsplit, run_cons, step_of_finish h]
      _ = ((⟨modules, .header k.1.start h'⟩ : SourceFile).run source
            (s.1 :: (items.yield ++ [e.1]))).finish source := by
          rw [run_append, run_header hreads]
      _ = ((⟨modules, .body k.1.start (tokenNode source .simpleIdentifier name.1 ::
            ports.trees source) .blank⟩ : SourceFile).run source
              (items.yield ++ [e.1])).finish source := by
          rw [run_cons, hbody]
      _ = ((⟨modules, .body k.1.start (tokenNode source .simpleIdentifier name.1 ::
            ports.trees source ++ items.trees source) .blank⟩ : SourceFile).run source
              [e.1]).finish source := by
          rw [run_append, run_items]
      _ = .ok (modules ++ (Phrase.module k name ports s items e).trees source) := by
          rw [run_cons, hend]
          rfl

end SourceFile

namespace Phrase

/-- A file without recovered items is read as its modules. -/
theorem finish_run (source : Source) : (d : Phrase (.many (.module false))) →
    (SourceFile.start.run source d.yield).finish source = .ok (d.trees source)
  | .none => rfl
  | .snoc ds d => by
    rw [yield, SourceFile.run_append]
    exact SourceFile.finish_run_module (finish_run source ds) d

end Phrase

end Netlist.Grammar
