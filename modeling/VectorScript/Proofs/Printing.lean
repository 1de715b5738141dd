import VectorScript.Expr.Parser
import VectorScript.Proofs.BalancedTokens
import VectorScript.Proofs.ExprForms

/-!
# Printing expressions and statements

An expression as tokens, with parentheses only where a part would be read otherwise.  Spans are not
printed, so an expression and its printed form agree only up to spans.

* `Expr.plain`: an expression without its spans.
* `Expr.print`: the tokens of an expression, where `numeral` writes the numbers.
* `Statement.Kind.print`: the same for statements.
* `Expr.checked_print`: printed tokens are balanced and known.
-/

namespace VectorScript

/-! ### Tokens -/

/-- A written token.  Nothing depends on where it stands. -/
def Token.word (kind : Token.Kind) (text : String) : Token := ⟨kind, text, 1, 1, 0⟩

@[simp] theorem Token.word_kind (kind : Token.Kind) (text : String) :
    (Token.word kind text).kind = kind := rfl

@[simp] theorem Token.word_text (kind : Token.Kind) (text : String) :
    (Token.word kind text).text = text := rfl

/-- The sign of a binary operator. -/
def BinaryOp.operator : BinaryOp → Operator
  | add => .plus
  | sub => .minus
  | mul => .star
  | div => .slash
  | mod => .percent
  | pow => .caret
  | equal => .equal
  | notEqual => .notEqual
  | less => .less
  | lessEqual => .lessEqual
  | greater => .greater
  | greaterEqual => .greaterEqual

/-- The sign of a unary operator. -/
def UnaryOp.operator : UnaryOp → Operator
  | negate => .minus
  | plus => .plus
  | not => .notWord
  | factorial => .bang

def UnaryOp.symbol : UnaryOp → String
  | negate => "-"
  | plus => "+"
  | not => "not"
  | factorial => "!"

def Token.binarySign (op : BinaryOp) : Token := .word (.operator op.operator) op.symbol

def Token.unarySign (op : UnaryOp) : Token := .word (.operator op.operator) op.symbol

theorem Checked.binarySign (op : BinaryOp) {ts : List Token} (h : Checked ts) :
    Checked (.binarySign op :: ts) :=
  .cons (by simp [Token.binarySign]) (by simp [Token.binarySign]) h

theorem Checked.unarySign (op : UnaryOp) {ts : List Token} (h : Checked ts) :
    Checked (.unarySign op :: ts) :=
  .cons (by simp [Token.unarySign]) (by simp [Token.unarySign]) h

def inParens (ts : List Token) : List Token :=
  .word (.bracket .openParen) "(" :: (ts ++ [.word (.bracket .closeParen) ")"])

def inSquares (ts : List Token) : List Token :=
  .word (.bracket .openSquare) "[" :: (ts ++ [.word (.bracket .closeSquare) "]"])

/-- Tokens in parentheses if that is asked for. -/
def enclose (asked : Bool) (ts : List Token) : List Token :=
  if asked then inParens ts else ts

namespace Expr

/-! ### Spans -/

mutual

/-- An expression without its spans. -/
def plain : Expr → Expr
  | constant x _ => constant x .none
  | identifier name _ => identifier name .none
  | vector items _ => vector (plainAll items) .none
  | array items _ => array (plainAll items) .none
  | comprehension body binder source _ => comprehension (plain body) binder (plain source) .none
  | filtered body binder source condition _ =>
    filtered (plain body) binder (plain source) (plain condition) .none
  | call name args _ => call name (plainAll args) .none
  | unary op operand _ => unary op (plain operand) .none
  | binary op left right _ => binary op (plain left) (plain right) .none
  | range lower upper _ => range (plain lower) (plain upper) .none
  | index target position _ => index (plain target) (plain position) .none
  | swizzle target components _ => swizzle (plain target) components .none
  | conditional consequent condition alternative _ =>
    conditional (plain consequent) (plain condition) (plain alternative) .none

def plainAll : List Expr → List Expr
  | [] => []
  | e :: rest => plain e :: plainAll rest

end

theorem plainAll_eq_map (es : List Expr) : plainAll es = es.map plain := by
  induction es with
  | nil => rfl
  | cons e rest ih => rw [plainAll, ih, List.map_cons]

theorem isTarget_plain (e : Expr) : e.plain.isTarget = e.isTarget := by
  cases e <;> simp [plain, isTarget, makesRun]

theorem isPosition_plain (e : Expr) : e.plain.isPosition = e.isPosition := by
  cases e <;> simp [plain, isPosition]

/-! ### Parentheses -/

def isConditional : Expr → Bool
  | conditional .. => true
  | _ => false

/-- An operator stands before its operand. -/
def isPrefixed : Expr → Bool
  | unary .factorial .. => false
  | unary .. => true
  | _ => false

/-- Binary operators of a lower precedence, and conditionals, are no operands of an operator. -/
def isLooser (least : Nat) : Expr → Bool
  | binary op .. => op.precedence < least
  | conditional .. => true
  | _ => false

/-- Nothing can be selected from an operation but in parentheses. -/
def isOperation : Expr → Bool
  | binary .. | conditional .. => true
  | e => e.isPrefixed

/-! ### Tokens of an expression -/

/-- The tokens between the body and the source of a comprehension. -/
def binderTokens (binder : String) : List Token :=
  [.word (.operator .forWord) "for", .word .identifier binder, .word (.operator .assign) "="]

mutual

/-- The tokens of an expression. -/
def print (numeral : Float32 → String) : Expr → List Token
  | constant x _ => [.word .number (numeral x)]
  | identifier name _ => [.word .identifier name]
  | vector items _ => inParens (printItems numeral items)
  | array items _ => inSquares (printItems numeral items)
  | comprehension body binder source _ =>
    print numeral body ++ (binderTokens binder ++ print numeral source)
  | filtered body binder source condition _ =>
    print numeral body ++ (binderTokens binder ++ (print numeral source ++
      .word (.operator .whenWord) "when" :: print numeral condition))
  | call name args _ => .word .identifier name :: inParens (printItems numeral args)
  | unary .factorial operand _ =>
    enclose operand.isOperation (print numeral operand) ++ [.unarySign .factorial]
  | unary op operand _ =>
    .unarySign op :: enclose (operand.isLooser UnaryOp.precedence) (print numeral operand)
  | binary op left right _ =>
    enclose (left.isLooser op.precedence || left.isPrefixed) (print numeral left) ++
      .binarySign op ::
        enclose (right.isLooser (op.precedence + 1) || right.isPrefixed) (print numeral right)
  | range lower upper _ =>
    print numeral lower ++ .word (.operator .ellipsis) "..." :: print numeral upper
  | index target position _ =>
    enclose target.isOperation (print numeral target) ++ inSquares (print numeral position)
  | swizzle target components _ =>
    enclose target.isOperation (print numeral target) ++
      [.word (.operator .dot) ".", .word .identifier components]
  | conditional consequent condition alternative _ =>
    enclose consequent.isConditional (print numeral consequent) ++
      .word (.operator .ifWord) "if" ::
        (enclose condition.isConditional (print numeral condition) ++
          .word (.operator .elseWord) "else" :: print numeral alternative)

/-- The tokens of some expressions, with commas between them. -/
def printItems (numeral : Float32 → String) : List Expr → List Token
  | [] => []
  | [e] => print numeral e
  | e :: e' :: rest => print numeral e ++ .word .comma "," :: printItems numeral (e' :: rest)

end

theorem print_prefixed (numeral : Float32 → String) {op : UnaryOp} (hop : op ≠ .factorial)
    (operand : Expr) (span : Span) :
    print numeral (unary op operand span) =
      .unarySign op :: enclose (operand.isLooser UnaryOp.precedence) (print numeral operand) := by
  cases op with
  | factorial => exact absurd rfl hop
  | _ => simp only [print]

theorem binaryOp?_binarySign (op : BinaryOp) : binaryOp? (Token.binarySign op).kind = some op := by
  cases op <;> rfl

theorem prefixOp?_unarySign {op : UnaryOp} (hop : op ≠ .factorial) :
    prefixOp? (Token.unarySign op).kind = some op := by
  cases op with
  | factorial => exact absurd rfl hop
  | _ => rfl

/-! ### Brackets -/

theorem checked_inParens {ts : List Token} (h : Checked ts) : Checked (inParens ts) :=
  .group (b := .openParen) rfl rfl rfl h

theorem checked_inSquares {ts : List Token} (h : Checked ts) : Checked (inSquares ts) :=
  .group (b := .openSquare) rfl rfl rfl h

theorem checked_enclose {ts : List Token} (h : Checked ts) (asked : Bool) :
    Checked (enclose asked ts) := by
  cases asked with
  | false => exact h
  | true => exact checked_inParens h

theorem checked_binderTokens (binder : String) : Checked (binderTokens binder) :=
  .cons (by simp) (by simp) (.cons (by simp) (by simp) (.single (by simp) (by simp)))

theorem checked_printItems {numeral : Float32 → String} :
    ∀ {items : List Expr}, (∀ e ∈ items, Checked (print numeral e)) →
      Checked (printItems numeral items)
  | [], _ => .nil
  | [e], h => h e List.mem_cons_self
  | e :: e' :: rest, h => by
    obtain ⟨he, hrest⟩ := List.forall_mem_cons.mp h
    exact he.append (.cons (by simp) (by simp) (checked_printItems hrest))

/-- Printed tokens are known, and their brackets pair up. -/
theorem checked_print (numeral : Float32 → String) (e : Expr) : Checked (print numeral e) := by
  induction e using induction_on_children with
  | h e ih =>
    cases e with
    | constant x span | identifier x span => exact .single (by simp) (by simp)
    | vector items span => exact checked_inParens (checked_printItems ih)
    | array items span => exact checked_inSquares (checked_printItems ih)
    | call name args span =>
      exact .cons (by simp) (by simp) (checked_inParens (checked_printItems ih))
    | comprehension body binder source span =>
      exact (ih body (by simp [children])).append
        ((checked_binderTokens binder).append (ih source (by simp [children])))
    | filtered body binder source condition span =>
      refine (ih body (by simp [children])).append ((checked_binderTokens binder).append ?_)
      exact (ih source (by simp [children])).append
        (.cons (by simp) (by simp) (ih condition (by simp [children])))
    | unary op operand span =>
      have hoperand := ih operand (by simp [children])
      by_cases hop : op = .factorial
      · subst hop
        exact (checked_enclose hoperand _).append (.unarySign .factorial .nil)
      · rw [print_prefixed numeral hop]
        exact .unarySign op (checked_enclose hoperand _)
    | binary op left right span =>
      exact (checked_enclose (ih left (by simp [children])) _).append
        (.binarySign op (checked_enclose (ih right (by simp [children])) _))
    | range lower upper span =>
      exact (ih lower (by simp [children])).append
        (.cons (by simp) (by simp) (ih upper (by simp [children])))
    | index target position span =>
      exact (checked_enclose (ih target (by simp [children])) _).append
        (checked_inSquares (ih position (by simp [children])))
    | swizzle target components span =>
      exact (checked_enclose (ih target (by simp [children])) _).append
        (.cons (by simp) (by simp) (.single (by simp) (by simp)))
    | conditional consequent condition alternative span =>
      refine (checked_enclose (ih consequent (by simp [children])) _).append
        (.cons (by simp) (by simp) ?_)
      exact (checked_enclose (ih condition (by simp [children])) _).append
        (.cons (by simp) (by simp) (ih alternative (by simp [children])))

end Expr

/-! ### Statements -/

def RenderKind.keyword : RenderKind → Keyword
  | points => .point
  | parametric => .parametric
  | polygons => .polygon

def RenderKind.symbol : RenderKind → String
  | points => "point"
  | parametric => "parametric"
  | polygons => "polygon"

theorem RenderKind.ofKeyword_keyword (kind : RenderKind) : ofKeyword kind.keyword = kind := by
  cases kind <;> rfl

/-- The names of parameters with commas between them. -/
def paramTokens : List String → List Token
  | [] => []
  | [name] => [.word .identifier name]
  | name :: next :: rest =>
    .word .identifier name :: .word .comma "," :: paramTokens (next :: rest)

theorem checked_paramTokens : ∀ params : List String, Checked (paramTokens params)
  | [] => .nil
  | [_] => .single (by simp) (by simp)
  | _ :: next :: rest =>
    .cons (by simp) (by simp) (.cons (by simp) (by simp) (checked_paramTokens (next :: rest)))

namespace Statement.Kind

/-- A statement without its spans. -/
def plain : Kind → Kind
  | .variable name body => .variable name body.plain
  | .function name params body => .function name params body.plain
  | .render kind body => .render kind body.plain
  | .invalid error => .invalid error

/-- The tokens of a statement; there are none for a statement that could not be read. -/
def print (numeral : Float32 → String) : Kind → List Token
  | .variable name body =>
    .word .identifier name :: .word (.operator .assign) "=" :: body.print numeral
  | .function name params body =>
    .word .identifier name :: (inParens (paramTokens params) ++
      .word (.operator .assign) "=" :: body.print numeral)
  | .render kind body => .word (.keyword kind.keyword) kind.symbol :: body.print numeral
  | .invalid _ => []

end Statement.Kind

end VectorScript
