import VectorScript.Span

/-!
# Syntax errors

Why a statement or an expression cannot be read, and the tokens that are to blame.
-/

namespace VectorScript

inductive SyntaxError.Cause where
  | unknownToken
  | invalidVariableDeclaration
  | invalidFunctionDeclaration
  | invalidParameter
  | unknownStatement
  | missingExpression
  | missingClosingBracket
  | unmatchedBracket
  | missingOperator
  | tooManyComponents
  | misplacedComma
  | misplacedForAssignment
  | misplacedFor
  | misplacedEllipsis
  | misplacedTernary
  | misplacedOperator
  | invalidIndexTarget
  | indexWithConstant
  | indexWithVector
  | invalidFunctionCall
  | invalidNumber
deriving DecidableEq, Repr, Inhabited

structure SyntaxError where
  cause : SyntaxError.Cause
  span : Span
deriving DecidableEq, Repr, Inhabited

namespace SyntaxError

namespace Cause

def code : Cause → String
  | unknownToken => "P001"
  | invalidVariableDeclaration => "P002"
  | invalidFunctionDeclaration => "P003"
  | invalidParameter => "P004"
  | unknownStatement => "P005"
  | missingExpression => "P006"
  | missingClosingBracket => "P007"
  | unmatchedBracket => "P008"
  | missingOperator => "P009"
  | tooManyComponents => "P010"
  | misplacedComma => "P011"
  | misplacedForAssignment => "P012"
  | misplacedFor => "P013"
  | misplacedEllipsis => "P014"
  | misplacedTernary => "P015"
  | misplacedOperator => "P016"
  | invalidIndexTarget => "P017"
  | indexWithConstant => "P018"
  | indexWithVector => "P019"
  | invalidFunctionCall => "P020"
  | invalidNumber => "P021"

def message : Cause → String
  | unknownToken => "unknown token"
  | invalidVariableDeclaration => "invalid variable declaration"
  | invalidFunctionDeclaration => "invalid function declaration"
  | invalidParameter => "invalid function parameter"
  | unknownStatement => "unknown statement"
  | missingExpression => "missing expression"
  | missingClosingBracket => "missing closing bracket"
  | unmatchedBracket => "unmatched closing bracket"
  | missingOperator => "missing operator"
  | tooManyComponents => "too many vector components (at most 4)"
  | misplacedComma => "misplaced comma"
  | misplacedForAssignment => "misplaced for-assignment"
  | misplacedFor => "`for` is only valid inside an array"
  | misplacedEllipsis => "`...` is only valid inside an array"
  | misplacedTernary => "misplaced conditional operator"
  | misplacedOperator => "misplaced operator"
  | invalidIndexTarget => "a constant cannot be indexed"
  | indexWithConstant => "cannot index with a constant"
  | indexWithVector => "cannot index with a vector"
  | invalidFunctionCall => "invalid function call"
  | invalidNumber => "unreadable numeric literal"

end Cause

/-- The code of the cause and its text. -/
def message (e : SyntaxError) : String :=
  "[" ++ e.cause.code ++ "] " ++ e.cause.message

end SyntaxError

end VectorScript
