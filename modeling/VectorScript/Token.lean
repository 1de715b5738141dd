/-!
# Tokens

The words of a script: keywords that open a render statement, operators, brackets, names and
numbers.  A token remembers the text it was read from and where that text stands.
-/

namespace VectorScript

/-- The words that open a render statement. -/
inductive Keyword where
  | point
  | parametric
  | polygon
deriving DecidableEq, Repr, Inhabited

/-- Operator signs and operator words. -/
inductive Operator where
  | plus
  | minus
  | star
  | slash
  | percent
  | caret
  | bang
  | dot
  | ellipsis
  | assign
  | equal
  | notEqual
  | less
  | lessEqual
  | greater
  | greaterEqual
  | forWord
  | whenWord
  | ifWord
  | elseWord
  | notWord
deriving DecidableEq, Repr, Inhabited

inductive Bracket where
  | openParen
  | closeParen
  | openSquare
  | closeSquare
deriving DecidableEq, Repr, Inhabited

namespace Bracket

def isOpen : Bracket → Bool
  | openParen | openSquare => true
  | closeParen | closeSquare => false

/-- The closing bracket of the same type. -/
def closer : Bracket → Bracket
  | openParen | closeParen => closeParen
  | openSquare | closeSquare => closeSquare

end Bracket

/-- What a token is, apart from its text.  `unknown` is text that belongs to no token class. -/
inductive Token.Kind where
  | keyword (word : Keyword)
  | identifier
  | number
  | bracket (bracket : Bracket)
  | operator (op : Operator)
  | comma
  | unknown
deriving DecidableEq, Repr, Inhabited

/-- A token with its text, its line and column (from 1) and its offset (from 0).  Columns and
offsets count bytes of UTF-8. -/
structure Token where
  kind : Token.Kind
  text : String
  line : Nat
  column : Nat
  offset : Nat
deriving DecidableEq, Repr, Inhabited

namespace Token

/-- The offset just after the token. -/
def stop (t : Token) : Nat :=
  t.offset + t.text.utf8ByteSize

/-- A token after which an operand is complete. -/
def Kind.endsOperand : Kind → Bool
  | identifier | number | bracket .closeParen | bracket .closeSquare => true
  | _ => false

/-- Reserved words are keywords or operators, every other word is a name. -/
def Kind.ofWord (word : String) : Kind :=
  match word with
  | "point" => .keyword .point
  | "parametric" => .keyword .parametric
  | "polygon" => .keyword .polygon
  | "for" => .operator .forWord
  | "when" => .operator .whenWord
  | "if" => .operator .ifWord
  | "else" => .operator .elseWord
  | "not" => .operator .notWord
  | _ => .identifier

end Token

end VectorScript
