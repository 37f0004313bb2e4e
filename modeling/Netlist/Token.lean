/-
Tokens: the words of source text.

Source text is a row of tokens with blanks between them. At each place the longest token
that can start there is read; a keyword wins over an identifier of the same length. A text
in which some place starts no token has no row of tokens at all, and `scan` gives the byte
offset of the first such place.

A token holds which terminal of the grammar it is and which bytes it covers. What an
identifier or a number says is read off the source.
-/
import Netlist.Literal
import Netlist.Operator
import Netlist.Text.Bytes

set_option autoImplicit false

namespace Netlist

/-! ## Terminals -/

/-- Identifiers that the grammar reserves. -/
inductive Keyword where
  | module
  | endmodule
  | input
  | output
  | inout
  | wire
  | logic
  | reg
  | assign
deriving DecidableEq

/-- The keyword that an identifier spells. -/
def Keyword.ofText? : String → Option Keyword
  | "module" => some module
  | "endmodule" => some endmodule
  | "input" => some input
  | "output" => some output
  | "inout" => some inout
  | "wire" => some wire
  | "logic" => some logic
  | "reg" => some reg
  | "assign" => some assign
  | _ => none

/-- Signs other than letters and digits. -/
inductive Punctuation where
  | openParen
  | closeParen
  | openBracket
  | closeBracket
  | openBrace
  | closeBrace
  | semicolon
  | comma
  | colon
  | equals
  | question
  | plusColon
  | minusColon
  | barBar
  | andAnd
  | bar
  | caret
  | and
  | equalsEquals
  | bangEquals
  | less
  | lessEquals
  | greater
  | greaterEquals
  | lessLess
  | greaterGreater
  | greaterGreaterGreater
  | plus
  | minus
  | star
  | slash
  | percent
  | bang
  | tilde
  | tildeAnd
  | tildeBar
  | tildeCaret
deriving DecidableEq

namespace Punctuation

/-- How the sign is written. -/
def text : Punctuation → String
  | openParen => "("
  | closeParen => ")"
  | openBracket => "["
  | closeBracket => "]"
  | openBrace => "\x7b"
  | closeBrace => "\x7d"
  | semicolon => ";"
  | comma => ","
  | colon => ":"
  | equals => "="
  | question => "?"
  | plusColon => "+:"
  | minusColon => "-:"
  | barBar => "||"
  | andAnd => "&&"
  | bar => "|"
  | caret => "^"
  | and => "&"
  | equalsEquals => "=="
  | bangEquals => "!="
  | less => "<"
  | lessEquals => "<="
  | greater => ">"
  | greaterEquals => ">="
  | lessLess => "<<"
  | greaterGreater => ">>"
  | greaterGreaterGreater => ">>>"
  | plus => "+"
  | minus => "-"
  | star => "*"
  | slash => "/"
  | percent => "%"
  | bang => "!"
  | tilde => "~"
  | tildeAnd => "~&"
  | tildeBar => "~|"
  | tildeCaret => "~^"

/-- All signs, each before those that its spelling starts with. -/
def longestFirst : List Punctuation :=
  [greaterGreaterGreater,
    plusColon, minusColon, barBar, andAnd, equalsEquals, bangEquals, lessEquals, greaterEquals,
    lessLess, greaterGreater, tildeAnd, tildeBar, tildeCaret,
    openParen, closeParen, openBracket, closeBracket, openBrace, closeBrace, semicolon, comma,
    colon, equals, question, bar, caret, and, less, greater, plus, minus, star, slash, percent,
    bang, tilde]

/-- The longest sign at the start of a text. -/
def ofChars? (cs : List Char) : Option Punctuation :=
  longestFirst.find? fun p => p.text.toList.isPrefixOf cs

/-- The binary operator that the sign stands for between two operands. -/
def binary? : Punctuation → Option BinaryOperator
  | barBar => some .logicalOr
  | andAnd => some .logicalAnd
  | bar => some .or
  | caret => some .xor
  | and => some .and
  | equalsEquals => some .eq
  | bangEquals => some .ne
  | less => some .lt
  | lessEquals => some .le
  | greater => some .gt
  | greaterEquals => some .ge
  | lessLess => some .shiftLeft
  | greaterGreater => some .shiftRight
  | greaterGreaterGreater => some .arithmeticShiftRight
  | plus => some .add
  | minus => some .sub
  | star => some .mul
  | slash => some .div
  | percent => some .rem
  | _ => none

/-- The unary operator that the sign stands for in front of an operand. -/
def unary? : Punctuation → Option UnaryOperator
  | plus => some .plus
  | minus => some .minus
  | bang => some .logicalNot
  | tilde => some .complement
  | and => some .andAll
  | bar => some .orAll
  | caret => some .xorAll
  | tildeAnd => some .nandAll
  | tildeBar => some .norAll
  | tildeCaret => some .xnorAll
  | _ => none

/-- The sign of a binary operator is the operator's own text. -/
theorem text_of_binary? {p : Punctuation} {op : BinaryOperator} (h : p.binary? = some op) :
    p.text = op.text := by
  cases p <;> simp [binary?] at h <;> subst h <;> rfl

/-- The sign of a unary operator is the operator's own text. -/
theorem text_of_unary? {p : Punctuation} {op : UnaryOperator} (h : p.unary? = some op) :
    p.text = op.text := by
  cases p <;> simp [unary?] at h <;> subst h <;> rfl

end Punctuation

/-- The terminals of the grammar. -/
inductive Terminal where
  | identifier
  | number
  | keyword (k : Keyword)
  | punctuation (p : Punctuation)
deriving DecidableEq

/-- A terminal and the bytes of the source that it covers. -/
structure Token where
  terminal : Terminal
  start : Nat
  stop : Nat
deriving DecidableEq

namespace Token

/-! ## Lexemes -/

/-- A character that may start an identifier. -/
def isIdentifierStart (c : Char) : Bool :=
  c.isAlpha || c == '_'

/-- A character that may stand inside an identifier. -/
def isIdentifierPart (c : Char) : Bool :=
  c.isAlphanum || c == '_'

/-- How many characters a number at the start of a text takes, if one is there: decimal
digits, or a base with digits after it, whatever decimal digits stand before it. -/
def numberLength? (cs : List Char) : Option Nat :=
  let size := (cs.takeWhile Char.isDigit).length
  let plain := if size = 0 then none else some size
  match cs.dropWhile Char.isDigit with
  | tick :: letter :: digits =>
    let based := (digits.takeWhile Literal.isBasedDigit).length
    if tick == Literal.mark && (Literal.radixOfLetter? letter).isSome && based != 0 then
      some (size + 2 + based)
    else plain
  | _ => plain

/-- The terminal at the start of a text, and how many characters it takes. -/
def lexeme? : List Char → Option (Terminal × Nat)
  | [] => none
  | c :: cs =>
    if isIdentifierStart c then
      let name := c :: cs.takeWhile isIdentifierPart
      match Keyword.ofText? (String.ofList name) with
      | some k => some (.keyword k, name.length)
      | none => some (.identifier, name.length)
    else
      match numberLength? (c :: cs) with
      | some n => some (.number, n)
      | none => (Punctuation.ofChars? (c :: cs)).map fun p => (.punctuation p, p.text.length)

/-! ## Scanning -/

/-- The tokens of a text whose first character is at the given byte offset, or the offset
of the first place that starts no token. -/
def scanFrom (offset : Nat) : List Char → Except Nat (List Token)
  | [] => .ok []
  | c :: cs =>
    if Text.isBlank c then scanFrom (offset + c.utf8Size) cs
    else
      match lexeme? (c :: cs) with
      | none => .error offset
      | some (terminal, size) =>
        let more := cs.take (size - 1)
        let stop := offset + Text.byteLength (c :: more)
        match scanFrom stop (cs.drop (size - 1)) with
        | .ok tokens => .ok (⟨terminal, offset, stop⟩ :: tokens)
        | .error bad => .error bad
termination_by cs => cs.length
decreasing_by
  · simp
  · simp only [List.length_drop, List.length_cons]
    omega

/-- The tokens of a text, or the byte offset of the first place that starts no token. -/
def scan (cs : List Char) : Except Nat (List Token) :=
  scanFrom 0 cs

end Token

end Netlist
