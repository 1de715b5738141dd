import VectorScript.Scalar.Basic
import VectorScript.Span
import VectorScript.Token

/-!
# Expressions

Operators with their precedence and meaning on scalars, and expression trees.  Every node carries
the span of the tokens it was read from.
-/

namespace VectorScript

/-! ### Operators -/

inductive BinaryOp where
  | add
  | sub
  | mul
  | div
  | mod
  | pow
  | equal
  | notEqual
  | less
  | lessEqual
  | greater
  | greaterEqual
deriving DecidableEq, Repr, Inhabited

namespace BinaryOp

def ofOperator? : Operator → Option BinaryOp
  | .plus => some add
  | .minus => some sub
  | .star => some mul
  | .slash => some div
  | .percent => some mod
  | .caret => some pow
  | .equal => some equal
  | .notEqual => some notEqual
  | .less => some less
  | .lessEqual => some lessEqual
  | .greater => some greater
  | .greaterEqual => some greaterEqual
  | _ => none

/-- A higher precedence binds tighter; operators of one precedence group to the left. -/
def precedence : BinaryOp → Nat
  | equal | notEqual | less | lessEqual | greater | greaterEqual => 1
  | add | sub => 2
  | mul | div | mod => 3
  | pow => 5

def symbol : BinaryOp → String
  | add => "+"
  | sub => "-"
  | mul => "*"
  | div => "/"
  | mod => "%"
  | pow => "^"
  | equal => "=="
  | notEqual => "!="
  | less => "<"
  | lessEqual => "<="
  | greater => ">"
  | greaterEqual => ">="

def apply : BinaryOp → Float32 → Float32 → Float32
  | add, a, b => a + b
  | sub, a, b => a - b
  | mul, a, b => a * b
  | div, a, b => a / b
  | mod, a, b => Scalar.remainder a b
  | pow, a, b => a.pow b
  | equal, a, b => Scalar.ofBool (a == b)
  | notEqual, a, b => Scalar.ofBool (a != b)
  | less, a, b => Scalar.ofBool (a < b)
  | lessEqual, a, b => Scalar.ofBool (a ≤ b)
  | greater, a, b => Scalar.ofBool (a > b)
  | greaterEqual, a, b => Scalar.ofBool (a ≥ b)

end BinaryOp

/-- `factorial` is written behind its operand, the others before it. -/
inductive UnaryOp where
  | negate
  | plus
  | not
  | factorial
deriving DecidableEq, Repr, Inhabited

/-- Operators before an operand bind tighter than `*` and looser than `^`. -/
def UnaryOp.precedence : Nat := 4

/-! ### Trees -/

inductive Expr where
  | constant (value : Float32) (span : Span)
  | identifier (name : String) (span : Span)
  /-- `(a, b, c)`: the components of one element. -/
  | vector (items : List Expr) (span : Span)
  /-- `[a, b, c]`: the elements of the items in order. -/
  | array (items : List Expr) (span : Span)
  /-- `body for binder = source` -/
  | comprehension (body : Expr) (binder : String) (source : Expr) (span : Span)
  /-- `body for binder = source when condition` -/
  | filtered (body : Expr) (binder : String) (source condition : Expr) (span : Span)
  | call (name : String) (args : List Expr) (span : Span)
  | unary (op : UnaryOp) (operand : Expr) (span : Span)
  | binary (op : BinaryOp) (left right : Expr) (span : Span)
  /-- `lower...upper` -/
  | range (lower upper : Expr) (span : Span)
  /-- `target[index]` or `target.name` -/
  | index (target index : Expr) (span : Span)
  /-- `target.xyz` or `target[xyz]` -/
  | swizzle (target : Expr) (components : String) (span : Span)
  /-- `consequent if condition else alternative` -/
  | conditional (consequent condition alternative : Expr) (span : Span)
deriving Inhabited

namespace Expr

def span : Expr → Span
  | constant _ s | identifier _ s | vector _ s | array _ s | comprehension _ _ _ s
  | filtered _ _ _ _ s | call _ _ s | unary _ _ s | binary _ _ _ s | range _ _ s | index _ _ s
  | swizzle _ _ s | conditional _ _ _ s => s

/-- Ranges and comprehensions may give many elements to the array around them. -/
def makesRun : Expr → Bool
  | range .. | comprehension .. | filtered .. => true
  | _ => false

/-- The direct parts of an expression. -/
def children : Expr → List Expr
  | constant .. | identifier .. => []
  | vector items _ | array items _ => items
  | comprehension body _ source _ => [body, source]
  | filtered body _ source condition _ => [body, source, condition]
  | call _ args _ => args
  | unary _ operand _ => [operand]
  | binary _ left right _ => [left, right]
  | range lower upper _ => [lower, upper]
  | index target position _ => [target, position]
  | swizzle target _ _ => [target]
  | conditional consequent condition alternative _ => [consequent, condition, alternative]

theorem sizeOf_lt_of_mem_children {c e : Expr} (h : c ∈ e.children) : sizeOf c < sizeOf e := by
  cases e with
  | vector items span | array items span | call name items span =>
    have := List.sizeOf_lt_of_mem (show c ∈ items from h)
    simp
    omega
  | constant | identifier => cases h
  | _ =>
    simp only [children, List.mem_cons, List.not_mem_nil, or_false] at h
    rcases h with rfl | rfl | rfl <;> simp <;> omega

/-- One to four letters among `x`, `y`, `z`, `w` name components. -/
def isSwizzle (name : String) : Bool :=
  let letters := name.toList
  1 ≤ letters.length && letters.length ≤ 4 && letters.all "xyzw".toList.contains

end Expr

end VectorScript
