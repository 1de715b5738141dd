import VectorScript.Expr.Parser
import VectorScript.Statement
import VectorScript.Statement.Brackets
import VectorScript.Token.Piece

/-!
# Reading statements

The first tokens of a statement tell its kind.  A statement that cannot be read keeps its error, so
that the rest of a script is read all the same.
-/

namespace VectorScript

namespace Statement

/-- An expression that fills the tokens from position `start` to the end. -/
def readBody (ts : List Token) (start : Nat) : Except SyntaxError Expr := do
  if ts.length ≤ start then throw (Expr.missingAtEnd ts.length)
  let body ← Expr.read ts.length true (ts.drop start)
  if body.rest.isEmpty then return body.value else throw (Expr.unexpected ts.length body.rest)

/-- Distinct names divided by commas; the front of the tokens is at `position`. -/
def readParams (position : Nat) (seen : List String) :
    List Token → Except SyntaxError (List String)
  | [] => .ok seen
  | name :: rest =>
    if name.kind ≠ .identifier ∨ name.text ∈ seen then
      .error ⟨.invalidParameter, .single position⟩
    else
      match rest with
      | [] => .ok (seen ++ [name.text])
      | [_] => .error ⟨.invalidParameter, .single (position + 1)⟩
      | comma :: rest =>
        if comma.kind ≠ .comma then .error ⟨.invalidParameter, .single (position + 1)⟩
        else readParams (position + 2) (seen ++ [name.text]) rest

/-- A statement that starts with `name(`; the parenthesis closes at position `close`. -/
def readFunction (ts : List Token) (name : String) (close : Nat) : Except SyntaxError Kind := do
  if ts[close + 1]?.any (·.kind = .operator .assign) then
    let params ← readParams 2 [] ((ts.take close).drop 2)
    return .function name params (← readBody ts (close + 2))
  else if ts.any (·.kind = .operator .assign) then
    throw ⟨.invalidFunctionDeclaration, ⟨0, close + 1⟩⟩
  else throw ⟨.unknownStatement, ⟨0, ts.length⟩⟩

/-- The kind of a statement, told by its first two tokens. -/
def readKind (ts : List Token) : Except SyntaxError Kind := do
  let pairs ← BracketPair.ofTokens ts
  match ts.head?, ts[1]?.map Token.kind with
  | none, _ => throw ⟨.missingExpression, ⟨0, 0⟩⟩
  | some first, second =>
    match first.kind, second with
    | .identifier, some (.bracket .openParen) =>
      readFunction ts first.text ((BracketPair.partner? pairs 1).getD (ts.length - 1))
    | .identifier, some (.operator .assign) => return .variable first.text (← readBody ts 2)
    | .keyword word, _ => return .render (.ofKeyword word) (← readBody ts 1)
    | .identifier, _ =>
      match ts.findIdx? (·.kind = .operator .assign) with
      | some i => throw ⟨.invalidVariableDeclaration, ⟨0, i + 1⟩⟩
      | none => throw ⟨.unknownStatement, ⟨0, ts.length⟩⟩
    | _, _ => throw ⟨.unknownStatement, ⟨0, ts.length⟩⟩

/-- Reads one statement; an error becomes its kind. -/
def ofTokens (ts : List Token) : Statement :=
  match readKind ts with
  | .ok kind => ⟨kind, ts⟩
  | .error e => ⟨.invalid e, ts⟩

end Statement

/-- The statements of a script. -/
def parseScript (source : String) : List Statement :=
  (tokenize source).map Statement.ofTokens

/-- An expression that fills all the tokens. -/
def Expr.ofTokens (ts : List Token) : Except SyntaxError Expr := do
  discard (BracketPair.ofTokens ts)
  Statement.readBody ts 0

/-- The tokens of a text without its division into statements. -/
def flatTokens (source : String) : List Token :=
  (tokenize source).flatten

end VectorScript
