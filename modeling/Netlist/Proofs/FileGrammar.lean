/-
The grammar of source files.

The grammar is given by its derivations, as that of expressions is: one constructor a production.
Three forms of production belong to any symbol: it may be absent, it may stand in a row with commas
between, and it may be repeated. The items of a module come in two symbols. A plain item is a
declaration or an assignment. Where items may be recovered, an item may also be any row of tokens up
to a semicolon, of which the error node covers the tokens from the refused one on; this is the only
production that the plain grammar lacks.

A phrase has a row of tokens and builds trees: none where something is absent, one for each port of
a header that is not joined to the port before it, and one for most phrases.
-/
import Netlist.Grammar.SourceFile
import Netlist.Proofs.ExpressionGrammar

set_option autoImplicit false

namespace Netlist

namespace Grammar

/-! ## Terminals -/

/-- A token of a keyword. -/
abbrev Key (k : Keyword) : Type :=
  Lexeme (.keyword k)

/-- A token of one of several keywords. -/
abbrev KeyAmong (ks : List Keyword) : Type :=
  { t : Token // ∃ k ∈ ks, t.terminal = .keyword k }

/-- The directions of ports. -/
def directions : List Keyword :=
  [.input, .output, .inout]

/-- The types of nets. -/
def netTypes : List Keyword :=
  [.wire, .logic, .reg]

/-! ## Phrases -/

/-- What phrases are derived from. -/
inductive Symbol where
  | netType
  | range
  /-- The declaration of a port up to its first name. -/
  | portHead
  | portDeclaration
  | netItem
  | netDeclaration
  | assignment
  | continuousAssign
  /-- A port in the header of a module. -/
  | portItem
  | ports
  /-- An item of a module; `recovers` says whether it may be recovered. -/
  | item (recovers : Bool)
  | module (recovers : Bool)
  /-- The symbol or nothing. -/
  | optional (x : Symbol)
  /-- The symbol at least once, with commas between. -/
  | row (x : Symbol)
  /-- The symbol any number of times. -/
  | many (x : Symbol)

/-- Some item of the symbol may be recovered. -/
def Symbol.recovers : Symbol → Bool
  | item r | module r => r
  | optional x | row x | many x => x.recovers
  | _ => false

/-- A derivation from a symbol. -/
inductive Phrase : Symbol → Type where
  | absent {x : Symbol} : Phrase (.optional x)
  | present {x : Symbol} : Phrase x → Phrase (.optional x)
  | one {x : Symbol} : Phrase x → Phrase (.row x)
  | more {x : Symbol} : Phrase (.row x) → Sign .comma → Phrase x → Phrase (.row x)
  | none {x : Symbol} : Phrase (.many x)
  | snoc {x : Symbol} : Phrase (.many x) → Phrase x → Phrase (.many x)
  | netType : KeyAmong netTypes → Phrase .netType
  | range : Sign .openBracket → Derivation .expression → Sign .colon → Derivation .expression →
      Sign .closeBracket → Phrase .range
  | portHead : KeyAmong directions → Phrase (.optional .netType) → Phrase (.optional .range) →
      Lexeme .identifier → Phrase .portHead
  | port : Phrase .portHead → Phrase .portDeclaration
  | nextPort : Phrase .portDeclaration → Sign .comma → Lexeme .identifier → Phrase .portDeclaration
  | net : Lexeme .identifier → Phrase .netItem
  | definedNet : Lexeme .identifier → Sign .equals → Derivation .expression → Phrase .netItem
  | netDeclaration : Phrase .netType → Phrase (.optional .range) → Phrase (.row .netItem) →
      Phrase .netDeclaration
  | assignment : Derivation (.tier 12) → Sign .equals → Derivation .expression →
      Phrase .assignment
  | continuousAssign : Key .assign → Phrase (.row .assignment) → Phrase .continuousAssign
  | declaredPort : Phrase .portHead → Phrase .portItem
  | listedPort : Lexeme .identifier → Phrase .portItem
  | noPorts : Sign .openParen → Sign .closeParen → Phrase .ports
  | ports : Sign .openParen → Phrase (.row .portItem) → Sign .closeParen → Phrase .ports
  | portsItem {recovers : Bool} : Phrase .portDeclaration → Sign .semicolon →
      Phrase (.item recovers)
  | netsItem {recovers : Bool} : Phrase .netDeclaration → Sign .semicolon →
      Phrase (.item recovers)
  | assignsItem {recovers : Bool} : Phrase .continuousAssign → Sign .semicolon →
      Phrase (.item recovers)
  /-- Recovery behind a refused token: all tokens up to the next semicolon are dropped. -/
  | spoiled (before : List Token) (refused : Token) (dropped : List Token) :
      Sign .semicolon → Phrase (.item true)
  /-- Recovery at a refused semicolon. -/
  | cutShort (before : List Token) : Sign .semicolon → Phrase (.item true)
  | module {recovers : Bool} : Key .module → Lexeme .identifier → Phrase (.optional .ports) →
      Sign .semicolon → Phrase (.many (.item recovers)) → Key .endmodule →
      Phrase (.module recovers)

/-! ## Tokens and trees -/

/-- Adds an item of a header: a declaration, or a bare name. -/
def Ports.add (ports : Ports) (item : Tree) : Ports :=
  if item.kind = .portDeclaration then ports.addDeclaration item else ports.addName item

/-- The ports of a header. -/
def Ports.ofItems (items : List Tree) : Ports :=
  items.foldl Ports.add .none

/-- The assignments of one keyword, which end where the last of them does. -/
def assignsNode (source : Source) (start : Nat) (assignments : List Tree) : Tree :=
  nodeOver source .continuousAssign start
    ((assignments.getLast?.map fun t => t.location.stop).getD start) assignments

namespace Phrase

/-- The tokens that are derived. -/
@[simp] def yield : {x : Symbol} → Phrase x → List Token
  | _, absent => []
  | _, present p => p.yield
  | _, one p => p.yield
  | _, more ps s p => ps.yield ++ s.1 :: p.yield
  | _, none => []
  | _, snoc ps p => ps.yield ++ p.yield
  | _, netType t => [t.1]
  | _, range o u s l c => o.1 :: (u.yield ++ s.1 :: (l.yield ++ [c.1]))
  | _, portHead d t r name => d.1 :: (t.yield ++ (r.yield ++ [name.1]))
  | _, port p => p.yield
  | _, nextPort p s name => p.yield ++ [s.1, name.1]
  | _, net name => [name.1]
  | _, definedNet name s e => name.1 :: s.1 :: e.yield
  | _, netDeclaration t r items => t.yield ++ (r.yield ++ items.yield)
  | _, assignment target s e => target.yield ++ s.1 :: e.yield
  | _, continuousAssign k items => k.1 :: items.yield
  | _, declaredPort p => p.yield
  | _, listedPort name => [name.1]
  | _, noPorts o c => [o.1, c.1]
  | _, ports o items c => o.1 :: (items.yield ++ [c.1])
  | _, portsItem p s => p.yield ++ [s.1]
  | _, netsItem p s => p.yield ++ [s.1]
  | _, assignsItem p s => p.yield ++ [s.1]
  | _, spoiled before refused dropped s => before ++ refused :: (dropped ++ [s.1])
  | _, cutShort before s => before ++ [s.1]
  | _, module k name listed s items e =>
    k.1 :: name.1 :: (listed.yield ++ s.1 :: (items.yield ++ [e.1]))

variable (source : Source)

/-- The trees that a phrase builds. -/
@[simp] def trees : {x : Symbol} → Phrase x → List Tree
  | _, absent => []
  | _, present p => p.trees
  | _, one p => p.trees
  | _, more ps _ p => ps.trees ++ p.trees
  | _, none => []
  | _, snoc ps p => ps.trees ++ p.trees
  | _, netType t => [tokenNode source .netType t.1]
  | _, range o u _ l c =>
    [nodeOver source .packedDimension o.1.start c.1.stop (u.trees source ++ l.trees source)]
  | _, portHead d t r name =>
    [.spanning .portDeclaration (tokenNode source .portDirection d.1 ::
      (t.trees ++ (r.trees ++ [tokenNode source .simpleIdentifier name.1])))]
  | _, port p => p.trees
  | _, nextPort p _ name =>
    p.trees.map fun t => t.extend (tokenNode source .simpleIdentifier name.1)
  | _, net name => [tokenNode source .simpleIdentifier name.1]
  | _, definedNet name _ e =>
    [.spanning .netDeclAssignment
      (tokenNode source .simpleIdentifier name.1 :: e.trees source)]
  | _, netDeclaration t r items =>
    [.spanning .netDeclaration (t.trees ++ (r.trees ++ items.trees))]
  | _, assignment target _ e =>
    [.spanning .netAssignment (target.trees source ++ e.trees source)]
  | _, continuousAssign k items => [assignsNode source k.1.start items.trees]
  | _, declaredPort p => p.trees
  | _, listedPort name => [tokenNode source .simpleIdentifier name.1]
  | _, noPorts _ _ => []
  | _, ports _ items _ => (Ports.ofItems items.trees).nodes
  | _, portsItem p _ => p.trees
  | _, netsItem p _ => p.trees
  | _, assignsItem p _ => p.trees
  | _, spoiled _ refused dropped _ =>
    [nodeOver source .error refused.start ((dropped.getLast?.getD refused).stop) []]
  | _, cutShort _ s => [nodeOver source .error s.1.start s.1.stop []]
  | _, module k name listed _ items e =>
    [nodeOver source .moduleDeclaration k.1.start e.1.stop
      (tokenNode source .simpleIdentifier name.1 :: (listed.trees ++ items.trees))]

end Phrase

end Grammar

end Netlist
