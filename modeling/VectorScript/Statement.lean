import VectorScript.Expr
import VectorScript.NameTable
import VectorScript.SyntaxError

/-!
# Statements

A statement declares a variable or a function, asks for something to be drawn, or could not be
read.  It keeps its tokens, so that a span can be shown as source text.
-/

namespace VectorScript

/-- What a render statement draws. -/
inductive RenderKind where
  | points
  | parametric
  | polygons
deriving DecidableEq, Repr, Inhabited

def RenderKind.ofKeyword : Keyword → RenderKind
  | .point => points
  | .parametric => parametric
  | .polygon => polygons

inductive Statement.Kind where
  /-- `name = body` -/
  | variable (name : String) (body : Expr)
  /-- `name(params) = body` -/
  | function (name : String) (params : List String) (body : Expr)
  /-- `point body`, `parametric body`, `polygon body` -/
  | render (kind : RenderKind) (body : Expr)
  | invalid (error : SyntaxError)
deriving Inhabited

structure Statement where
  kind : Statement.Kind
  tokens : List Token
deriving Inhabited

namespace Statement

/-- The name that a statement declares. -/
def name? (s : Statement) : Option String :=
  match s.kind with
  | .variable name _ | .function name _ _ => some name
  | _ => none

def body? (s : Statement) : Option Expr :=
  match s.kind with
  | .variable _ body | .function _ _ body | .render _ body => some body
  | .invalid _ => none

def error? (s : Statement) : Option SyntaxError :=
  match s.kind with
  | .invalid e => some e
  | _ => none

def isVariable (s : Statement) : Bool :=
  match s.kind with
  | .variable .. => true
  | _ => false

theorem isVariable_iff {s : Statement} :
    s.isVariable ↔ ∃ name body, s.kind = .variable name body := by
  cases h : s.kind <;> simp [isVariable, h]

def isFunction (s : Statement) : Bool :=
  match s.kind with
  | .function .. => true
  | _ => false

theorem isFunction_iff {s : Statement} :
    s.isFunction ↔ ∃ name params body, s.kind = .function name params body := by
  cases h : s.kind <;> simp [isFunction, h]

/-! ### Source text -/

/-- The texts of tokens with as many spaces between two of them as bytes lie between them. -/
def spaced : List Token → List Char
  | [] => []
  | [t] => t.text.toList
  | t :: u :: rest => t.text.toList ++ List.replicate (u.offset - t.stop) ' ' ++ spaced (u :: rest)

/-- The source text of a span, where whatever stands between tokens is shown as spaces. -/
def snippet (s : Statement) (span : Span) : String :=
  String.ofList (spaced ((s.tokens.take span.stop).drop span.start))

/-- Line and column of the first token of a span; past the end, of the last token. -/
def location? (s : Statement) (span : Span) : Option (Nat × Nat) :=
  (s.tokens[span.start]? <|> s.tokens.getLast?).map fun t => (t.line, t.column)

end Statement

/-- The variables and functions of a script under their names. -/
abbrev Declarations := NameTable Statement

end VectorScript
