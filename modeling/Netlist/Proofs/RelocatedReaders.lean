/-
Reading a text whose tokens stand elsewhere.

The readers decide by terminals and by what is open, never by where a token stands: offsets only go
into the nodes. So reading tokens that have been carried over is the same as carrying over what has
been read, step by step and for every reader (`SourceFile.step_relocate`), and a text whose tokens
stand elsewhere has the same tree elsewhere, or the same fault (`fileOfTokens_relocate`).
-/
import Netlist.Grammar.Parse
import Netlist.Proofs.Relocation
import Netlist.Proofs.Spans

set_option autoImplicit false

namespace Netlist.Grammar

/-! ## States -/

section States

variable (g : Relocation)

/-- An open construct with its parts carried over. -/
def Frame.relocate : Frame → Frame
  | unary op => unary (op.relocate g)
  | binary tier left op => binary tier (left.relocate g) (op.relocate g)
  | thenArm condition => thenArm (condition.relocate g)
  | elseArm condition yes => elseArm (condition.relocate g) (yes.relocate g)
  | paren start => paren (g.place start)
  | index name => index (name.relocate g)
  | lowerBound name upper => lowerBound (name.relocate g) (upper.relocate g)
  | partWidth name base op => partWidth (name.relocate g) (base.relocate g) (op.relocate g)
  | items start read => items (g.place start) (read.map (Tree.relocate g))
  | copies start count inner read =>
    copies (g.place start) (count.relocate g) (g.place inner) (read.map (Tree.relocate g))

/-- What has just been read, carried over. -/
def Progress.relocate : Progress → Progress
  | awaiting => awaiting
  | operand t => operand (t.relocate g)
  | copied start count inner => copied (g.place start) (count.relocate g) (inner.relocate g)

/-- An expression in the making, carried over. -/
def Reader.relocate (r : Reader) : Reader :=
  ⟨r.goal, r.stack.map (Frame.relocate g), r.progress.relocate g⟩

/-- What a token has done to an expression, carried over. -/
def Reader.Fed.relocate : Reader.Fed → Reader.Fed
  | reading r => reading (r.relocate g)
  | complete t => complete (t.relocate g)

/-- How far a declaration has been read, carried over. -/
def HeadStage.relocate : HeadStage → HeadStage
  | .direction => .direction
  | .netType => .netType
  | .upper start e => .upper (g.place start) (e.relocate g)
  | .lower start high e => .lower (g.place start) (high.relocate g) (e.relocate g)
  | .range => .range

/-- A declaration before its first name, carried over. -/
def Head.relocate (h : Head) : Head :=
  ⟨h.parts.map (Tree.relocate g), h.stage.relocate g⟩

/-- What a token has done to a declaration, carried over. -/
def Head.Step.relocate : Head.Step → Head.Step
  | reading h => reading (h.relocate g)
  | named parts name => named (parts.map (Tree.relocate g)) (name.relocate g)

/-- An item in the making, carried over. -/
def Item.relocate : Item → Item
  | blank => blank
  | port h => port (h.relocate g)
  | portNamed declaration => portNamed (declaration.relocate g)
  | portComma declaration => portComma (declaration.relocate g)
  | net h => net (h.relocate g)
  | netNamed parts name => netNamed (parts.map (Tree.relocate g)) (name.relocate g)
  | netValue parts name e =>
    netValue (parts.map (Tree.relocate g)) (name.relocate g) (e.relocate g)
  | netComma parts => netComma (parts.map (Tree.relocate g))
  | target start parts e =>
    target (g.place start) (parts.map (Tree.relocate g)) (e.relocate g)
  | value start parts left e =>
    value (g.place start) (parts.map (Tree.relocate g)) (left.relocate g) (e.relocate g)

/-- What a token has done to an item, carried over. -/
def Item.Step.relocate : Item.Step → Item.Step
  | reading i => reading (i.relocate g)
  | complete t => complete (t.relocate g)

/-- Ports carried over. -/
def Ports.relocate (p : Ports) : Ports :=
  ⟨p.bare.map (Tree.relocate g), p.declared.map (Tree.relocate g)⟩

/-- A header in the making, carried over. -/
def Header.relocate : Header → Header
  | blank => blank
  | named name => named (name.relocate g)
  | opened name => opened (name.relocate g)
  | port name ports h => port (name.relocate g) (ports.relocate g) (h.relocate g)
  | portRead name ports => portRead (name.relocate g) (ports.relocate g)
  | portComma name ports => portComma (name.relocate g) (ports.relocate g)
  | closed name ports => closed (name.relocate g) (ports.relocate g)

/-- What a token has done to a header, carried over. -/
def Header.Step.relocate : Header.Step → Header.Step
  | reading h => reading (h.relocate g)
  | complete children => complete (children.map (Tree.relocate g))

/-- A place in a file, carried over. -/
def Place.relocate : Place → Place
  | outside => outside
  | header start h => header (g.place start) (h.relocate g)
  | body start children item =>
    body (g.place start) (children.map (Tree.relocate g)) (item.relocate g)
  | closed start stop children =>
    closed (g.place start) (g.place stop) (children.map (Tree.relocate g))
  | spoiled start children refused stop =>
    spoiled (g.place start) (children.map (Tree.relocate g)) (refused.relocate g) (g.place stop)
  | lost refused => lost (refused.relocate g)

/-- A file in the making, carried over. -/
def SourceFile.relocate (f : SourceFile) : SourceFile :=
  ⟨f.modules.map (Tree.relocate g), f.place.relocate g⟩

end States

variable {source : Source} (g : Relocation)

/-! ## Expressions -/

namespace Reader

theorem close_relocate (least : Nat) (stack : List Frame) (t : Tree) :
    close least (stack.map (Frame.relocate g)) (t.relocate g) =
      ((close least stack t).1.map (Frame.relocate g), (close least stack t).2.relocate g) := by
  induction stack, t using close.induct least with
  | case1 op rest t ih =>
    rw [List.map_cons, Frame.relocate, close, close, ← ih,
      Tree.relocate_spanning g _ (List.cons_ne_nil _ _)]
    rfl
  | case2 tier left op rest t hle ih =>
    rw [List.map_cons, Frame.relocate, close, close, if_pos hle, if_pos hle, ← ih,
      Tree.relocate_spanning g _ (List.cons_ne_nil _ _)]
    rfl
  | case3 tier left op rest t hlt =>
    rw [List.map_cons, Frame.relocate, close, close, if_neg hlt, if_neg hlt]
    rfl
  | case4 condition yes rest t hzero ih =>
    rw [List.map_cons, Frame.relocate, close, close, if_pos hzero, if_pos hzero, ← ih,
      Tree.relocate_spanning g _ (List.cons_ne_nil _ _)]
    rfl
  | case5 condition yes rest t hzero =>
    rw [List.map_cons, Frame.relocate, close, close, if_neg hzero, if_neg hzero]
    rfl
  | case6 stack t hunary hbinary helse =>
    -- nothing on top of the stack can be closed
    cases stack with
    | nil => rfl
    | cons frame rest =>
      cases frame with
      | unary op => exact (hunary _ _ rfl).elim
      | binary tier left op => exact (hbinary _ _ _ _ rfl).elim
      | elseArm condition yes => exact (helse _ _ _ rfl).elim
      | _ => rfl

theorem finish?_relocate (r : Reader) :
    (r.relocate g).finish? = r.finish?.map (Tree.relocate g) := by
  obtain ⟨goal, stack, progress⟩ := r
  cases progress with
  | awaiting => rfl
  | operand t =>
    simp only [finish?, relocate, Progress.relocate, close_relocate]
    rcases close 0 stack t with ⟨_ | ⟨frame, below⟩, whole⟩ <;> rfl
  | copied start count inner => rfl

theorem relocate_start (goal : Goal) : (start goal).relocate g = start goal := rfl

theorem stepAwaiting_relocate (hsource : source.origin ≠ .unknown) (r : Reader) (t : Token) :
    stepAwaiting g.source (r.relocate g) (t.relocate g) =
      (stepAwaiting source r t).map (relocate g) := by
  unfold stepAwaiting
  rw [Token.terminal_relocate]
  obtain ⟨goal, stack, progress⟩ := r
  cases t.terminal with
  | identifier => simp [withOperand, relocate, Progress.relocate, relocate_tokenNode g hsource]
  | number => simp [withOperand, relocate, Progress.relocate, relocate_tokenNode g hsource]
  | keyword k => rfl
  | punctuation p =>
    cases p <;> cases goal <;> cases stack <;>
      simp [push, relocate, Progress.relocate, Frame.relocate, relocate_tokenNode g hsource,
        Punctuation.unary?]

theorem stepSign_relocate (hsource : source.origin ≠ .unknown) (r : Reader) (read : Tree)
    (p : Punctuation) (t : Token) :
    stepSign g.source (r.relocate g) (read.relocate g) p (t.relocate g) =
      (stepSign source r read p t).map (relocate g) := by
  have hstack : (r.relocate g).stack = r.stack.map (Frame.relocate g) := rfl
  unfold stepSign
  simp only [hstack, close_relocate]
  cases p.binary? with
  | some op =>
    simp [push, relocate, Progress.relocate, Frame.relocate, relocate_tokenNode g hsource]
  | none =>
    dsimp only
    rcases close 0 r.stack read with ⟨_ | ⟨frame, below⟩, e⟩
    · cases p <;> rfl
    · -- most signs mean nothing here, and the others look at the innermost open construct
      cases p
      case question | colon | plusColon | minusColon | comma | openBrace | closeParen | closeBracket
          | closeBrace =>
        rcases frame with _ | _ | _ | _ | _ | _ | _ | _ | ⟨start, _ | ⟨first, rest⟩⟩ | _ <;>
          simp [push, withOperand, relocate, Progress.relocate, Frame.relocate,
            relocate_nodeOver g hsource, relocate_tokenNode g hsource]
      all_goals rfl

theorem stepOperand_relocate (hsource : source.origin ≠ .unknown) (r : Reader) (read : Tree)
    (t : Token) :
    stepOperand g.source (r.relocate g) (read.relocate g) (t.relocate g) =
      (stepOperand source r read t).map (relocate g) := by
  have hsign := fun p => stepSign_relocate g hsource r read p t
  have hindex : (r.relocate g).push (.index (read.relocate g)) (r.relocate g).stack =
      (r.push (.index read) r.stack).relocate g := rfl
  unfold stepOperand
  rw [Token.terminal_relocate, Tree.kind_relocate, hindex]
  cases t.terminal with
  | identifier | number | keyword k => rfl
  | punctuation p =>
    obtain ⟨goal, stack, progress⟩ := r
    cases p
    case openBracket => by_cases hkind : read.kind = .simpleIdentifier <;> simp [hkind]
    -- where an operand is complete by itself, any other sign is refused
    all_goals
      cases goal with
      | any => exact hsign _
      | operand =>
        cases stack with
        | nil => rfl
        | cons frame rest => exact hsign _

theorem step_relocate (hsource : source.origin ≠ .unknown) (r : Reader) (t : Token) :
    (r.relocate g).step g.source (t.relocate g) = (r.step source t).map (relocate g) := by
  cases hprogress : r.progress with
  | awaiting =>
    have hprogress' : (r.relocate g).progress = .awaiting := by rw [relocate, hprogress]; rfl
    rw [step, step, hprogress, hprogress']
    exact stepAwaiting_relocate g hsource r t
  | operand read =>
    have hprogress' : (r.relocate g).progress = .operand (read.relocate g) := by
      rw [relocate, hprogress]; rfl
    rw [step, step, hprogress, hprogress']
    exact stepOperand_relocate g hsource r read t
  | copied start count inner =>
    have hprogress' : (r.relocate g).progress =
        .copied (g.place start) (count.relocate g) (inner.relocate g) := by
      rw [relocate, hprogress]; rfl
    rw [step, step, hprogress, hprogress', Token.terminal_relocate]
    cases t.terminal with
    | punctuation p =>
      cases p
      case closeBrace =>
        simp [withOperand, relocate, Progress.relocate, relocate_nodeOver g hsource]
      all_goals rfl
    | _ => rfl

theorem feed_relocate (hsource : source.origin ≠ .unknown) (r : Reader) (t : Token) :
    (r.relocate g).feed g.source (t.relocate g) = (r.feed source t).map (Fed.relocate g) := by
  rw [feed, feed, step_relocate g hsource, finish?_relocate]
  cases r.step source t with
  | some next => rfl
  | none => cases r.finish? <;> rfl

end Reader

/-! ## Items -/

section Nodes

theorem directionNode?_relocate (hsource : source.origin ≠ .unknown) (t : Token) :
    directionNode? g.source (t.relocate g) = (directionNode? source t).map (Tree.relocate g) := by
  unfold directionNode?
  rw [Token.terminal_relocate, ← relocate_tokenNode g hsource]
  split <;> rfl

theorem netTypeNode?_relocate (hsource : source.origin ≠ .unknown) (t : Token) :
    netTypeNode? g.source (t.relocate g) = (netTypeNode? source t).map (Tree.relocate g) := by
  unfold netTypeNode?
  rw [Token.terminal_relocate, ← relocate_tokenNode g hsource]
  split <;> rfl

theorem nameNode?_relocate (hsource : source.origin ≠ .unknown) (t : Token) :
    nameNode? g.source (t.relocate g) = (nameNode? source t).map (Tree.relocate g) := by
  unfold nameNode?
  rw [Token.terminal_relocate, ← relocate_tokenNode g hsource]
  split <;> rfl

end Nodes

namespace Head

theorem stepName_relocate (hsource : source.origin ≠ .unknown) (h : Head) (t : Token) :
    (h.relocate g).stepName g.source (t.relocate g) =
      (h.stepName source t).map (Step.relocate g) := by
  rw [stepName, stepName, nameNode?_relocate g hsource]
  cases nameNode? source t <;> rfl

theorem stepRange_relocate (hsource : source.origin ≠ .unknown) (h : Head) (t : Token) :
    (h.relocate g).stepRange g.source (t.relocate g) =
      (h.stepRange source t).map (Step.relocate g) := by
  unfold stepRange
  rw [Token.terminal_relocate, stepName_relocate g hsource]
  split <;> rfl

theorem step_relocate (hsource : source.origin ≠ .unknown) (h : Head) (t : Token) :
    (h.relocate g).step g.source (t.relocate g) = (h.step source t).map (Step.relocate g) := by
  obtain ⟨parts, stage⟩ := h
  cases stage with
  | direction =>
    have hrange := stepRange_relocate g hsource ⟨parts, .direction⟩ t
    simp only [step, relocate, HeadStage.relocate, netTypeNode?_relocate g hsource]
    cases netTypeNode? source t with
    | some netType => simp [Step.relocate, relocate, HeadStage.relocate]
    | none => exact hrange
  | netType => exact stepRange_relocate g hsource ⟨parts, .netType⟩ t
  | upper start e =>
    simp only [step, relocate, HeadStage.relocate, Reader.feed_relocate g hsource,
      Token.terminal_relocate]
    rcases e.feed source t with _ | next | upper
    · rfl
    · rfl
    · cases t.terminal with
      | punctuation p => cases p <;> rfl
      | _ => rfl
  | lower start upper e =>
    simp only [step, relocate, HeadStage.relocate, Reader.feed_relocate g hsource,
      Token.terminal_relocate]
    rcases e.feed source t with _ | next | lower
    · rfl
    · rfl
    · cases t.terminal with
      | punctuation p =>
        cases p
        case closeBracket =>
          simp [Reader.Fed.relocate, Step.relocate, relocate, HeadStage.relocate,
            relocate_nodeOver g hsource]
        all_goals rfl
      | _ => rfl
  | range => exact stepName_relocate g hsource ⟨parts, .range⟩ t

end Head

theorem portNode_relocate (parts : List Tree) (name : Tree) :
    portNode (parts.map (Tree.relocate g)) (name.relocate g) =
      (portNode parts name).relocate g := by
  rw [portNode, portNode, Tree.relocate_spanning g _ (by simp), List.map_append, List.map_singleton]

namespace Item

theorem stepNetPart_relocate {parts : List Tree} (hparts : parts ≠ []) (t : Token) :
    stepNetPart (parts.map (Tree.relocate g)) (t.relocate g) =
      (stepNetPart parts t).map (Step.relocate g) := by
  unfold stepNetPart
  rw [Token.terminal_relocate, ← Tree.relocate_spanning g _ hparts]
  split <;> rfl

theorem stepAssignment_relocate (hsource : source.origin ≠ .unknown) (start : Nat)
    (parts : List Tree) (last : Tree) (t : Token) :
    stepAssignment g.source (g.place start) (parts.map (Tree.relocate g)) (last.relocate g)
        (t.relocate g) =
      (stepAssignment source start parts last t).map (Step.relocate g) := by
  have hnode := relocate_nodeOver g hsource .continuousAssign start last.location.stop
    (parts ++ [last])
  rw [List.map_append, List.map_singleton] at hnode
  unfold stepAssignment
  rw [Token.terminal_relocate, Tree.location_relocate, g.stop_location, ← hnode]
  split
  · simp [Step.relocate, relocate, Reader.relocate_start]
  · rfl
  · rfl

theorem stepBlank_relocate (hsource : source.origin ≠ .unknown) (t : Token) :
    stepBlank g.source (t.relocate g) = (stepBlank source t).map (Step.relocate g) := by
  unfold stepBlank
  rw [directionNode?_relocate g hsource, netTypeNode?_relocate g hsource, Token.terminal_relocate]
  cases directionNode? source t with
  | some direction => rfl
  | none =>
    cases netTypeNode? source t with
    | some netType => rfl
    | none =>
      cases t.terminal with
      | keyword k => cases k <;> rfl
      | _ => rfl

theorem step_relocate (hsource : source.origin ≠ .unknown) (i : Item) (t : Token) :
    (i.relocate g).step g.source (t.relocate g) = (i.step source t).map (Step.relocate g) := by
  cases i with
  | blank => exact stepBlank_relocate g hsource t
  | port h =>
    simp only [step, relocate, Head.step_relocate g hsource]
    rcases h.step source t with _ | next | ⟨parts, name⟩
    · rfl
    · rfl
    · simp [Head.Step.relocate, Step.relocate, relocate, portNode_relocate]
  | portNamed declaration =>
    simp only [step, relocate, Token.terminal_relocate]
    split <;> rfl
  | portComma declaration =>
    simp only [step, relocate, nameNode?_relocate g hsource]
    cases nameNode? source t with
    | none => rfl
    | some name => simp [Step.relocate, relocate, Tree.relocate_extend]
  | net h =>
    simp only [step, relocate, Head.step_relocate g hsource]
    rcases h.step source t with _ | next | ⟨parts, name⟩ <;> rfl
  | netNamed parts name =>
    have hpart := stepNetPart_relocate g (List.append_ne_nil_of_right_ne_nil parts
      (List.cons_ne_nil name [])) t
    rw [List.map_append, List.map_singleton] at hpart
    simp only [step, relocate, Token.terminal_relocate, hpart]
    split <;> rfl
  | netValue parts name e =>
    simp only [step, relocate, Reader.feed_relocate g hsource]
    rcases e.feed source t with _ | next | whole
    · rfl
    · rfl
    · have hpart := stepNetPart_relocate g (List.append_ne_nil_of_right_ne_nil parts
        (List.cons_ne_nil (Tree.spanning .netDeclAssignment [name, whole]) [])) t
      rw [List.map_append, List.map_singleton,
        Tree.relocate_spanning g _ (List.cons_ne_nil _ _)] at hpart
      exact hpart
  | netComma parts =>
    simp only [step, relocate, nameNode?_relocate g hsource]
    cases nameNode? source t <;> rfl
  | target start parts e =>
    simp only [step, relocate, Reader.feed_relocate g hsource, Token.terminal_relocate]
    rcases e.feed source t with _ | next | whole
    · rfl
    · rfl
    · cases t.terminal with
      | punctuation p => cases p <;> rfl
      | _ => rfl
  | value start parts left e =>
    simp only [step, relocate, Reader.feed_relocate g hsource]
    rcases e.feed source t with _ | next | whole
    · rfl
    · rfl
    · have hassignment := stepAssignment_relocate g hsource start parts
        (.spanning .netAssignment [left, whole]) t
      rw [Tree.relocate_spanning g _ (List.cons_ne_nil _ _)] at hassignment
      exact hassignment

end Item

/-! ## Headers -/

namespace Ports

theorem addDeclaration_relocate (p : Ports) (declaration : Tree) :
    (p.relocate g).addDeclaration (declaration.relocate g) =
      (p.addDeclaration declaration).relocate g := by
  simp [addDeclaration, relocate]

theorem addName_relocate (p : Ports) (name : Tree) :
    (p.relocate g).addName (name.relocate g) = (p.addName name).relocate g := by
  obtain ⟨bare, declared⟩ := p
  rcases List.eq_nil_or_concat declared with rfl | ⟨init, last, rfl⟩
  · simp [addName, relocate]
  · simp [addName, relocate, Tree.relocate_extend]

theorem nodes_relocate (p : Ports) :
    (p.relocate g).nodes = p.nodes.map (Tree.relocate g) := by
  obtain ⟨bare, declared⟩ := p
  cases bare with
  | nil => rfl
  | cons name names =>
    simp only [nodes, relocate, List.map_cons]
    rw [Tree.relocate_spanning g _ (List.cons_ne_nil _ _), List.map_cons]

end Ports

namespace Header

theorem stepPort_relocate (hsource : source.origin ≠ .unknown) (name : Tree) (ports : Ports)
    (t : Token) :
    stepPort g.source (name.relocate g) (ports.relocate g) (t.relocate g) =
      (stepPort source name ports t).map (Step.relocate g) := by
  unfold stepPort
  rw [directionNode?_relocate g hsource, nameNode?_relocate g hsource]
  cases directionNode? source t with
  | some direction => rfl
  | none =>
    cases nameNode? source t with
    | none => rfl
    | some bare => simp [Step.relocate, relocate, Ports.addName_relocate]

theorem step_relocate (hsource : source.origin ≠ .unknown) (h : Header) (t : Token) :
    (h.relocate g).step g.source (t.relocate g) = (h.step source t).map (Step.relocate g) := by
  cases h with
  | blank =>
    simp only [step, relocate, nameNode?_relocate g hsource]
    cases nameNode? source t <;> rfl
  | named name =>
    simp only [step, relocate, Token.terminal_relocate]
    split <;> rfl
  | opened name =>
    have hport := stepPort_relocate g hsource name .none t
    have hnone : Ports.none.relocate g = .none := rfl
    rw [hnone] at hport
    simp only [step, relocate, Token.terminal_relocate, hport]
    split <;> rfl
  | port name ports h =>
    simp only [step, relocate, Head.step_relocate g hsource]
    rcases h.step source t with _ | next | ⟨parts, portName⟩
    · rfl
    · rfl
    · simp [Head.Step.relocate, Step.relocate, relocate, portNode_relocate,
        Ports.addDeclaration_relocate]
  | portRead name ports =>
    simp only [step, relocate, Token.terminal_relocate]
    split <;> rfl
  | portComma name ports => exact stepPort_relocate g hsource name ports t
  | closed name ports =>
    simp only [step, relocate, Token.terminal_relocate, Ports.nodes_relocate]
    split <;> rfl

end Header

/-! ## Files -/

namespace SourceFile

theorem moduleNode_relocate (hsource : source.origin ≠ .unknown) (start stop : Nat)
    (children : List Tree) :
    (moduleNode source start stop children).relocate g =
      moduleNode g.source (g.place start) (g.place stop) (children.map (Tree.relocate g)) :=
  relocate_nodeOver g hsource .moduleDeclaration start stop children

theorem afterSpoiled_relocate (hsource : source.origin ≠ .unknown) (start : Nat)
    (children : List Tree) (refused : Token) (stop : Nat) :
    (afterSpoiled source start children refused stop).relocate g =
      afterSpoiled g.source (g.place start) (children.map (Tree.relocate g)) (refused.relocate g)
        (g.place stop) := by
  simp [afterSpoiled, Place.relocate, Item.relocate, relocate_nodeOver g hsource]

theorem refuse_relocate (hsource : source.origin ≠ .unknown) (f : SourceFile) (start : Nat)
    (children : List Tree) (t : Token) :
    (f.relocate g).refuse g.source (g.place start) (children.map (Tree.relocate g))
        (t.relocate g) =
      (f.refuse source start children t).relocate g := by
  unfold refuse
  rw [Token.terminal_relocate, Token.stop_relocate, ← afterSpoiled_relocate g hsource]
  split <;> rfl

/-- A token in the body of a module that does not end it is offered to the item. -/
theorem step_body_offered {modules children : List Tree} {start : Nat} {item : Item} {t : Token}
    (h : item = .blank → t.terminal ≠ .keyword .endmodule) :
    (⟨modules, .body start children item⟩ : SourceFile).step source t =
      match item.step source t with
      | some (.reading next) => ⟨modules, .body start children next⟩
      | some (.complete node) => ⟨modules, .body start (children ++ [node]) .blank⟩
      | none => refuse source ⟨modules, .body start children item⟩ start children t := by
  cases item with
  | blank =>
    cases hkey : t.terminal with
    | keyword k =>
      cases k
      case endmodule => exact absurd hkey (h rfl)
      all_goals
        simp only [step, hkey]
        rfl
    | _ =>
      simp only [step, hkey]
      rfl
  | _ => rfl

theorem relocate_eq_blank_iff {item : Item} : item.relocate g = .blank ↔ item = .blank := by
  cases item <;> simp [Item.relocate]

theorem step_relocate (hsource : source.origin ≠ .unknown) (f : SourceFile) (t : Token) :
    (f.relocate g).step g.source (t.relocate g) = (f.step source t).relocate g := by
  obtain ⟨modules, place⟩ := f
  cases place with
  | outside =>
    simp only [step, relocate, Place.relocate, Token.terminal_relocate]
    split <;> rfl
  | header start h =>
    simp only [step, relocate, Place.relocate, Header.step_relocate g hsource]
    rcases h.step source t with _ | next | children <;> rfl
  | body start children item =>
    have hrefuse := refuse_relocate g hsource ⟨modules, .body start children item⟩ start children t
    by_cases hend : item = .blank ∧ t.terminal = .keyword .endmodule
    · obtain ⟨rfl, hkey⟩ := hend
      simp only [step, relocate, Place.relocate, Item.relocate, Token.terminal_relocate, hkey]
      rfl
    · have hoffered : item = .blank → t.terminal ≠ .keyword .endmodule := fun hitem hkey =>
        hend ⟨hitem, hkey⟩
      have hoffered' : item.relocate g = .blank → (t.relocate g).terminal ≠ .keyword .endmodule :=
        fun hitem => hoffered ((relocate_eq_blank_iff g).1 hitem)
      have hplace : (⟨modules, .body start children item⟩ : SourceFile).relocate g =
          ⟨modules.map (Tree.relocate g), .body (g.place start)
            (children.map (Tree.relocate g)) (item.relocate g)⟩ := rfl
      rw [step_body_offered hoffered, hplace, step_body_offered hoffered',
        Item.step_relocate g hsource]
      rcases item.step source t with _ | next | node
      · exact hrefuse
      · rfl
      · simp [Item.Step.relocate, relocate, Place.relocate, Item.relocate]
  | closed start stop children =>
    have hrefuse := refuse_relocate g hsource ⟨modules, .closed start stop children⟩ start
      children t
    have hmodule := moduleNode_relocate g hsource start stop children
    simp only [step, relocate, Place.relocate, Token.terminal_relocate]
    split
    · simp [Header.relocate, hmodule]
    · exact hrefuse
  | spoiled start children refused stop =>
    simp only [step, relocate, Place.relocate, Token.terminal_relocate,
      ← afterSpoiled_relocate g hsource]
    split <;> rfl
  | lost refused => rfl

/-- A row of tokens that have been carried over. The induction is on the row. -/
theorem run_relocate (hsource : source.origin ≠ .unknown) (f : SourceFile) (ts : List Token) :
    (f.relocate g).run g.source (ts.map (Token.relocate g)) = (f.run source ts).relocate g := by
  induction ts generalizing f with
  | nil => rfl
  | cons t ts ih =>
    rw [List.map_cons, run, List.foldl_cons, step_relocate g hsource]
    exact ih (f.step source t)

/-- What is missing in a file, carried over. -/
def Incomplete.relocate (g : Relocation) : Incomplete → Incomplete
  | refused t => refused (t.relocate g)
  | ended => ended

theorem finish_relocate (hsource : source.origin ≠ .unknown) (f : SourceFile) :
    (f.relocate g).finish g.source =
      ((f.finish source).map (List.map (Tree.relocate g))).mapError (Incomplete.relocate g) := by
  obtain ⟨modules, place⟩ := f
  cases place with
  | closed start stop children =>
    refine congrArg Except.ok ?_
    simp [relocate, moduleNode_relocate g hsource]
  | _ => rfl

/-- Tokens that have been carried over are read as the same modules elsewhere. -/
theorem finish_run_relocate_eq_ok_iff (hsource : source.origin ≠ .unknown) {ts : List Token}
    {modules : List Tree} :
    (start.run g.source (ts.map (Token.relocate g))).finish g.source = .ok modules ↔
      ∃ ms, (start.run source ts).finish source = .ok ms ∧
        ms.map (Tree.relocate g) = modules := by
  have hrun : start.run g.source (ts.map (Token.relocate g)) = (start.run source ts).relocate g :=
    run_relocate g hsource start ts
  rw [hrun, finish_relocate g hsource]
  cases (start.run source ts).finish source with
  | error e =>
    constructor
    · exact nofun
    · rintro ⟨ms, hms, -⟩
      cases hms
  | ok ms =>
    constructor
    · intro h
      exact ⟨ms, rfl, Except.ok.inj h⟩
    · rintro ⟨ms', hms, rfl⟩
      obtain rfl := Except.ok.inj hms
      rfl

end SourceFile

/-! ## Refused tokens -/

/-- The token that was refused. -/
def Place.refused? : Place → Option Token
  | .spoiled _ _ refused _ | .lost refused => some refused
  | _ => none

namespace SourceFile

theorem refused_refuse (f : SourceFile) (start : Nat) (children : List Tree) {t u : Token}
    (h : (f.refuse source start children t).place.refused? = some u) : u = t := by
  unfold refuse at h
  split at h
  · cases h
  · exact (Option.some.inj h).symm

/-- A token that is refused behind a step is the one that was read, or was refused before. -/
theorem refused_step (f : SourceFile) {t u : Token}
    (h : (f.step source t).place.refused? = some u) :
    u = t ∨ f.place.refused? = some u := by
  obtain ⟨modules, place⟩ := f
  cases place with
  | outside =>
    simp only [step] at h
    split at h
    · cases h
    · exact .inl (Option.some.inj h).symm
  | header start hd =>
    simp only [step] at h
    split at h
    · cases h
    · cases h
    · exact .inl (Option.some.inj h).symm
  | body start children item =>
    simp only [step] at h
    split at h
    · cases h
    · split at h
      · cases h
      · cases h
      · exact .inl (refused_refuse _ start children h)
  | closed start stop children =>
    simp only [step] at h
    split at h
    · cases h
    · exact .inl (refused_refuse _ start children h)
  | spoiled start children refused stop =>
    simp only [step] at h
    split at h
    · cases h
    · exact .inr h
  | lost refused => exact .inr h

/-- The token that spoils a file is one of its tokens. The induction is on the row. -/
theorem mem_of_refused_run (f : SourceFile) {ts : List Token} {u : Token}
    (h : (f.run source ts).place.refused? = some u) : u ∈ ts ∨ f.place.refused? = some u := by
  induction ts generalizing f with
  | nil => exact .inr h
  | cons t ts ih =>
    rcases ih (f.step source t) h with hmem | hstep
    · exact .inl (List.mem_cons_of_mem _ hmem)
    · refine (refused_step f hstep).imp_left ?_
      rintro rfl
      exact List.mem_cons_self

theorem refused_of_finish {f : SourceFile} {u : Token}
    (h : f.finish source = .error (.refused u)) : f.place.refused? = some u := by
  obtain ⟨modules, place⟩ := f
  cases place with
  | outside | closed | header | body => cases h
  | spoiled start children refused stop =>
    cases h
    rfl
  | lost refused =>
    cases h
    rfl

theorem mem_of_finish_run {ts : List Token} {u : Token}
    (h : (start.run source ts).finish source = .error (.refused u)) : u ∈ ts :=
  (mem_of_refused_run start (refused_of_finish h)).resolve_right nofun

end SourceFile

/-! ## Whole texts -/

/-- The error in the place where it has gone. -/
def ParseError.relocate (g : Relocation) (e : ParseError) : ParseError :=
  ⟨g.location e.location, e.fault⟩

theorem ParseError.relocate_mk (hsource : source.origin ≠ .unknown) (start stop : Nat)
    (fault : Fault) :
    ParseError.relocate g ⟨⟨source, start, stop⟩, fault⟩ =
      ⟨⟨g.source, g.place start, g.place stop⟩, fault⟩ := by
  rw [ParseError.relocate, g.location_mk hsource]

theorem terminals_relocate (ts : List Token) :
    (ts.map (Token.relocate g)).map Token.terminal = ts.map Token.terminal := by
  rw [List.map_map]
  rfl

theorem ended_relocate (h : g.CoversText source) (ts : List Token) :
    ParseError.ended g.source (ts.map (Token.relocate g)) =
      (ParseError.ended source ts).relocate g := by
  rw [ParseError.ended, ParseError.ended, ParseError.relocate_mk g h.known, List.getLast?_map,
    terminals_relocate]
  cases ts.getLast? with
  | none => simp [h.start]
  | some t => rfl

/-- Tokens that differ in their new places have those in front of them that they had. -/
theorem tokensBefore_relocate {ts : List Token} (hnodup : (ts.map (Token.relocate g)).Nodup)
    {t : Token} (ht : t ∈ ts) :
    tokensBefore (t.relocate g) (ts.map (Token.relocate g)) =
      (tokensBefore t ts).map (Token.relocate g) := by
  obtain ⟨before, after, rfl, hbefore⟩ := List.eq_append_cons_of_mem ht
  have hmoved : t.relocate g ∉ before.map (Token.relocate g) := by
    rw [List.map_append, List.map_cons] at hnodup
    exact fun hmem => List.disjoint_of_nodup_append hnodup hmem List.mem_cons_self
  rw [List.map_append, List.map_cons, tokensBefore_append hmoved, tokensBefore_append hbefore]

theorem nodup_of_tokens {ts : List Token} (h : tokens source = .ok ts) : ts.Nodup := by
  unfold tokens at h
  split at h
  · next us hscan =>
    cases h
    exact (Token.inOrder_of_scans (Token.scan_eq_ok_iff.1 hscan)).nodup
  · cases h

theorem refused_relocate (h : g.CoversText source) {ts : List Token}
    (hnodup : (ts.map (Token.relocate g)).Nodup) {t : Token} (ht : t ∈ ts) :
    ParseError.refused g.source
        (tokensBefore (t.relocate g) (ts.map (Token.relocate g))) (t.relocate g) =
      (ParseError.refused source (tokensBefore t ts) t).relocate g := by
  rw [ParseError.refused, ParseError.refused, ParseError.relocate_mk g h.known,
    tokensBefore_relocate g hnodup ht, terminals_relocate]
  rfl

/-- Tokens that have been carried over, no two of them to one place, are read as the same file elsewhere,
or refused for the same fault elsewhere. -/
theorem fileOfTokens_relocate (h : g.CoversText source) {ts : List Token}
    (hnodup : (ts.map (Token.relocate g)).Nodup) :
    fileOfTokens g.source (ts.map (Token.relocate g)) =
      ((fileOfTokens source ts).map (Tree.relocate g)).mapError (ParseError.relocate g) := by
  have hstart : SourceFile.start.relocate g = .start := rfl
  have hrun := SourceFile.run_relocate g h.known .start ts
  rw [hstart] at hrun
  unfold fileOfTokens
  rw [hrun, SourceFile.finish_relocate g h.known]
  cases hfinish : (SourceFile.start.run source ts).finish source with
  | ok modules =>
    refine congrArg Except.ok ?_
    rw [relocate_nodeOver g h.known, h.start, h.stop]
  | error e =>
    cases e with
    | refused t =>
      exact congrArg Except.error (refused_relocate g h hnodup (SourceFile.mem_of_finish_run hfinish))
    | ended => exact congrArg Except.error (ended_relocate g h ts)

/-- A text with its tokens elsewhere is read as the same file elsewhere. -/
theorem parseFile_relocate (h : g.CoversText source)
    (htokens : tokens g.source =
      ((tokens source).map (List.map (Token.relocate g))).mapError (ParseError.relocate g)) :
    parseFile g.source =
      ((parseFile source).map (Tree.relocate g)).mapError (ParseError.relocate g) := by
  unfold parseFile
  cases hts : tokens source with
  | error e =>
    rw [htokens, hts]
    rfl
  | ok ts =>
    rw [hts] at htokens
    rw [htokens]
    exact fileOfTokens_relocate g h (nodup_of_tokens htokens)

end Netlist.Grammar
