/-
The grammar of expressions.

The grammar is given by its derivations: one constructor a production, with the derivations and
the tokens that stand on the right of the production. Expressions have tiers, from the conditionals
in tier 0 over the ten tiers of binary operators and the unary operators in tier 11 to the
primaries in tier 12. A tier contains the next one; operators of one tier group to the left, as
their production is recursive on the left, and conditionals to the right.

A derivation has a row of tokens, its yield, and builds trees: one, except for a row of
expressions between commas. Nothing here says how a derivation is found.
-/
import Netlist.Grammar.Expression

set_option autoImplicit false

namespace Netlist

namespace Grammar

/-! ## Terminals -/

/-- A token of a terminal. -/
abbrev Lexeme (x : Terminal) : Type :=
  { t : Token // t.terminal = x }

/-- A token of a sign. -/
abbrev Sign (p : Punctuation) : Type :=
  Lexeme (.punctuation p)

/-- A token of one of several signs. -/
abbrev SignAmong (ps : List Punctuation) : Type :=
  { t : Token // ∃ p ∈ ps, t.terminal = .punctuation p }

/-- The binary operators of a tier. -/
def binaryOperators : Nat → List Punctuation
  | 1 => [.barBar]
  | 2 => [.andAnd]
  | 3 => [.bar]
  | 4 => [.caret]
  | 5 => [.and]
  | 6 => [.equalsEquals, .bangEquals]
  | 7 => [.less, .lessEquals, .greater, .greaterEquals]
  | 8 => [.lessLess, .greaterGreater, .greaterGreaterGreater]
  | 9 => [.plus, .minus]
  | 10 => [.star, .slash, .percent]
  | _ => []

/-- The unary operators. -/
def unaryOperators : List Punctuation :=
  [.plus, .minus, .bang, .tilde, .and, .bar, .caret, .tildeAnd, .tildeBar, .tildeCaret]

/-- The operators that announce a width. -/
def rangeOperators : List Punctuation :=
  [.plusColon, .minusColon]

/-- The signs of a tier are those whose operators have it. -/
theorem mem_binaryOperators_iff {p : Punctuation} {tier : Nat} :
    p ∈ binaryOperators tier ↔ p.binary?.map BinaryOperator.tier = some tier := by
  constructor
  · revert p
    unfold binaryOperators
    split
    case h_11 => simp
    all_goals decide
  · intro h
    obtain ⟨op, hop, rfl⟩ := Option.map_eq_some_iff.1 h
    cases p <;> simp [Punctuation.binary?] at hop <;> subst hop <;> decide

/-- The tiers that have operators. -/
theorem SignAmong.tier_bounds {tier : Nat} (op : SignAmong (binaryOperators tier)) :
    1 ≤ tier ∧ tier ≤ 10 := by
  obtain ⟨t, p, hmem, -⟩ := op
  obtain ⟨op, -, rfl⟩ := Option.map_eq_some_iff.1 (mem_binaryOperators_iff.1 hmem)
  cases op <;> decide

/-- The signs in front of operands are those that stand for unary operators. -/
theorem mem_unaryOperators_iff {p : Punctuation} : p ∈ unaryOperators ↔ p.unary?.isSome := by
  cases p <;> decide

/-! ## Derivations -/

/-- What derivations start from. -/
inductive Nonterminal where
  | expression
  /-- The expressions that bind at least as tightly as a tier says: conditionals have tier 0,
  binary operators tiers 1 to 10, unary operators 11 and primaries 12. -/
  | tier (n : Nat)
  | concatenation
  /-- Expressions with commas between them. -/
  | expressions

/-- A derivation from a nonterminal. -/
inductive Derivation : Nonterminal → Type where
  | expression : Derivation (.tier 0) → Derivation .expression
  /-- Any tier contains the next one. -/
  | tighter {n : Nat} : n < 12 → Derivation (.tier (n + 1)) → Derivation (.tier n)
  | conditional : Derivation (.tier 1) → Sign .question → Derivation .expression → Sign .colon →
      Derivation (.tier 0) → Derivation (.tier 0)
  | binary {n : Nat} : Derivation (.tier n) → SignAmong (binaryOperators n) →
      Derivation (.tier (n + 1)) → Derivation (.tier n)
  | unary : SignAmong unaryOperators → Derivation (.tier 11) → Derivation (.tier 11)
  | number : Lexeme .number → Derivation (.tier 12)
  | name : Lexeme .identifier → Derivation (.tier 12)
  | bitSelect : Lexeme .identifier → Sign .openBracket → Derivation .expression →
      Sign .closeBracket → Derivation (.tier 12)
  | rangeSelect : Lexeme .identifier → Sign .openBracket → Derivation .expression →
      Sign .colon → Derivation .expression → Sign .closeBracket → Derivation (.tier 12)
  | indexedRangeSelect : Lexeme .identifier → Sign .openBracket → Derivation .expression →
      SignAmong rangeOperators → Derivation .expression → Sign .closeBracket →
      Derivation (.tier 12)
  | braced : Derivation .concatenation → Derivation (.tier 12)
  | replication : Sign .openBrace → Derivation .expression → Derivation .concatenation →
      Sign .closeBrace → Derivation (.tier 12)
  | parenthesized : Sign .openParen → Derivation .expression → Sign .closeParen →
      Derivation (.tier 12)
  | concatenation : Sign .openBrace → Derivation .expressions → Sign .closeBrace →
      Derivation .concatenation
  | single : Derivation .expression → Derivation .expressions
  | more : Derivation .expressions → Sign .comma → Derivation .expression →
      Derivation .expressions

namespace Derivation

/-- The tokens that are derived. -/
@[simp] def yield : {n : Nonterminal} → Derivation n → List Token
  | _, expression e => e.yield
  | _, tighter _ e => e.yield
  | _, conditional c q y s n => c.yield ++ q.1 :: (y.yield ++ s.1 :: n.yield)
  | _, binary l op r => l.yield ++ op.1 :: r.yield
  | _, unary op e => op.1 :: e.yield
  | _, number t => [t.1]
  | _, name t => [t.1]
  | _, bitSelect t o i c => t.1 :: o.1 :: (i.yield ++ [c.1])
  | _, rangeSelect t o u s l c => t.1 :: o.1 :: (u.yield ++ s.1 :: (l.yield ++ [c.1]))
  | _, indexedRangeSelect t o b op w c => t.1 :: o.1 :: (b.yield ++ op.1 :: (w.yield ++ [c.1]))
  | _, braced e => e.yield
  | _, replication o n e c => o.1 :: (n.yield ++ (e.yield ++ [c.1]))
  | _, parenthesized o e c => o.1 :: (e.yield ++ [c.1])
  | _, concatenation o es c => o.1 :: (es.yield ++ [c.1])
  | _, single e => e.yield
  | _, more es s e => es.yield ++ s.1 :: e.yield

variable (source : Source)

/-- The trees that a derivation builds. -/
@[simp] def trees : {n : Nonterminal} → Derivation n → List Tree
  | _, expression e => e.trees
  | _, tighter _ e => e.trees
  | _, conditional c _ y _ n =>
    [.spanning .conditionalExpression (c.trees ++ (y.trees ++ n.trees))]
  | _, binary l op r =>
    [.spanning .binaryExpression (l.trees ++ tokenNode source .binaryOperator op.1 :: r.trees)]
  | _, unary op e =>
    [.spanning .unaryExpression (tokenNode source .unaryOperator op.1 :: e.trees)]
  | _, number t => [tokenNode source .number t.1]
  | _, name t => [tokenNode source .simpleIdentifier t.1]
  | _, bitSelect t _ i c =>
    [nodeOver source .bitSelect t.1.start c.1.stop
      (tokenNode source .simpleIdentifier t.1 :: i.trees)]
  | _, rangeSelect t _ u _ l c =>
    [nodeOver source .rangeSelect t.1.start c.1.stop
      (tokenNode source .simpleIdentifier t.1 :: (u.trees ++ l.trees))]
  | _, indexedRangeSelect t _ b op w c =>
    [nodeOver source .indexedRangeSelect t.1.start c.1.stop
      (tokenNode source .simpleIdentifier t.1 ::
        (b.trees ++ tokenNode source .indexedRangeOperator op.1 :: w.trees))]
  | _, braced e => e.trees
  | _, replication o n e c =>
    [nodeOver source .multipleConcatenation o.1.start c.1.stop (n.trees ++ e.trees)]
  | _, parenthesized o e c =>
    [nodeOver source .parenthesizedExpression o.1.start c.1.stop e.trees]
  | _, concatenation o es c => [nodeOver source .concatenation o.1.start c.1.stop es.trees]
  | _, single e => e.trees
  | _, more es _ e => es.trees ++ e.trees

end Derivation

end Grammar

end Netlist
