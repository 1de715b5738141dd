import VectorScript.Expr
import VectorScript.Scalar.Decimal
import VectorScript.SyntaxError

/-!
# Reading expressions

An expression is read from the front of a list of tokens, by levels from loose to tight:
comprehensions, ranges, conditionals, binary operators by precedence, operators before an operand,
operators behind an operand, and operands.  Each level hands back the tokens it leaves, with a
proof that there are fewer of them, so reading ends.

Positions in spans count from the front of the whole statement: `total` is its number of tokens,
and the front of `ts` is at `total - ts.length`.
-/

namespace VectorScript

/-- A value read from the front of some tokens, and the tokens behind it: fewer than `bound`. -/
structure Reading (α : Type) (bound : Nat) where
  value : α
  rest : List Token
  shorter : rest.length < bound

namespace Expr

def missingAtEnd (total : Nat) : SyntaxError :=
  ⟨.missingExpression, .single (total - 1)⟩

/-- Why an operator cannot stand where an operand is due. -/
def operandCause : Operator → SyntaxError.Cause
  | .forWord => .misplacedFor
  | .ifWord | .elseWord | .whenWord => .misplacedTernary
  | .ellipsis => .misplacedEllipsis
  | .assign => .misplacedForAssignment
  | _ => .misplacedOperator

/-- Why a token cannot follow a finished expression. -/
def followCause : Token.Kind → SyntaxError.Cause
  | .comma => .misplacedComma
  | .operator op => operandCause op
  | _ => .missingOperator

/-- The error for the first token of `ts`, which cannot continue what was read before it. -/
def unexpected (total : Nat) : List Token → SyntaxError
  | [] => missingAtEnd total
  | t :: rest => ⟨followCause t.kind, .single (total - (rest.length + 1))⟩

/-- The binder of a comprehension and the `=` behind it; `start` is the position of `for`. -/
def readBinder (start : Nat) : (ts : List Token) → Except SyntaxError (Reading String ts.length)
  | [] => .error ⟨.misplacedFor, .single start⟩
  | [name] =>
    if name.kind = .identifier then .error ⟨.misplacedFor, ⟨start, start + 2⟩⟩
    else .error ⟨.misplacedFor, .single start⟩
  | name :: sign :: rest =>
    if name.kind ≠ .identifier then .error ⟨.misplacedFor, .single start⟩
    else if sign.kind ≠ .operator .assign then .error ⟨.misplacedFor, ⟨start, start + 2⟩⟩
    else .ok ⟨name.text, rest, by simp only [List.length_cons]; omega⟩

/-- Components or an element position behind a target. -/
def select (target index : Expr) (span : Span) : Except SyntaxError Expr :=
  match index with
  | identifier name _ =>
    if isSwizzle name then .ok (swizzle target name span) else .ok (.index target index span)
  | vector _ s => .error ⟨.indexWithVector, s⟩
  | _ => .ok (.index target index span)

/-- A constant has nothing to select from. -/
def checkTarget (target : Expr) (position : Nat) : Except SyntaxError Unit :=
  match target with
  | constant _ s => .error ⟨.invalidIndexTarget, s.join (.single position)⟩
  | _ => .ok ()

/-- The prefix operator that a token stands for. -/
def prefixOp? : Token.Kind → Option UnaryOp
  | .operator .minus => some .negate
  | .operator .plus => some .plus
  | .operator .notWord => some .not
  | _ => none

/-- The binary operator that a token stands for. -/
def binaryOp? : Token.Kind → Option BinaryOp
  | .operator op => BinaryOp.ofOperator? op
  | _ => none

/-- One item in parentheses is that item, two to four are the components of a vector. -/
def parenthesized (items : List Expr) (span : Span) : Except SyntaxError Expr :=
  match items with
  | [] => .error ⟨.missingExpression, span⟩
  | [item] => .ok item
  | _ => if items.length ≤ 4 then .ok (vector items span) else .error ⟨.tooManyComponents, span⟩

mutual

/-- Any expression.  Comprehensions and ranges are allowed only with `inArray`. -/
def read (total : Nat) (inArray : Bool) (ts : List Token) :
    Except SyntaxError (Reading Expr ts.length) := do
  let body ← readRange total inArray ts
  have hbody := body.shorter
  let whole ← readClauses total inArray body.value body.rest
  return ⟨whole.value, whole.rest, by have := whole.shorter; omega⟩
termination_by (ts.length, 7)

/-- The `for` clauses behind a body. -/
def readClauses (total : Nat) (inArray : Bool) (body : Expr) (ts : List Token) :
    Except SyntaxError (Reading Expr (ts.length + 1)) :=
  match ts with
  | [] => .ok ⟨body, [], by simp⟩
  | t :: rest =>
    if t.kind = .operator .forWord then do
      let start := total - (rest.length + 1)
      if !inArray then throw ⟨.misplacedFor, .single start⟩
      let binder ← readBinder start rest
      have hbinder := binder.shorter
      let source ← readRange total inArray binder.rest
      have hsource := source.shorter
      match hw : source.rest with
      | w :: rest' =>
        if w.kind = .operator .whenWord then do
          have hrest : rest'.length + 1 = source.rest.length := by rw [hw]; rfl
          let condition ← readConditional total rest'
          have hcondition := condition.shorter
          let span := body.span.join ⟨start, total - condition.rest.length⟩
          let whole ← readClauses total inArray
            (filtered body binder.value source.value condition.value span) condition.rest
          return ⟨whole.value, whole.rest, by have := whole.shorter; simp; omega⟩
        else do
          let span := body.span.join ⟨start, total - source.rest.length⟩
          let whole ← readClauses total inArray
            (comprehension body binder.value source.value span) source.rest
          return ⟨whole.value, whole.rest, by have := whole.shorter; simp; omega⟩
      | [] =>
        let span := body.span.join ⟨start, total⟩
        return ⟨comprehension body binder.value source.value span, [], by simp⟩
    else .ok ⟨body, t :: rest, by simp⟩
termination_by (ts.length, 0)

/-- A conditional, or a range between two of them. -/
def readRange (total : Nat) (inArray : Bool) (ts : List Token) :
    Except SyntaxError (Reading Expr ts.length) := do
  let lower ← readConditional total ts
  have hlower := lower.shorter
  match h : lower.rest with
  | [] => return lower
  | t :: rest =>
    if t.kind = .operator .ellipsis then
      have hrest : rest.length + 1 = lower.rest.length := by rw [h]; rfl
      if !inArray then throw ⟨.misplacedEllipsis, .single (total - (rest.length + 1))⟩
      let upper ← readConditional total rest
      have hupper := upper.shorter
      if upper.rest.head?.any (·.kind = .operator .ellipsis) then
        throw ⟨.misplacedEllipsis, .single (total - upper.rest.length)⟩
      return ⟨range lower.value upper.value (lower.value.span.join upper.value.span), upper.rest,
        by omega⟩
    else return lower
termination_by (ts.length, 6)

/-- `consequent if condition else alternative`, where the alternative may be another one. -/
def readConditional (total : Nat) (ts : List Token) :
    Except SyntaxError (Reading Expr ts.length) := do
  let consequent ← readBinary total 1 ts
  have hconsequent := consequent.shorter
  match h : consequent.rest with
  | [] => return consequent
  | t :: rest =>
    if t.kind = .operator .ifWord then
      have hrest : rest.length + 1 = consequent.rest.length := by rw [h]; rfl
      let condition ← readBinary total 1 rest
      have hcondition := condition.shorter
      match h' : condition.rest with
      | [] => throw ⟨.misplacedTernary, .single (total - (rest.length + 1))⟩
      | t' :: rest' =>
        if t'.kind = .operator .elseWord then
          have hrest' : rest'.length + 1 = condition.rest.length := by rw [h']; rfl
          let alternative ← readConditional total rest'
          have halternative := alternative.shorter
          let span := consequent.value.span.join alternative.value.span
          return ⟨conditional consequent.value condition.value alternative.value span,
            alternative.rest, by omega⟩
        else throw ⟨.misplacedTernary, .single (total - (rest.length + 1))⟩
    else return consequent
termination_by (ts.length, 5)

/-- Operands joined by binary operators of at least the given precedence. -/
def readBinary (total : Nat) (least : Nat) (ts : List Token) :
    Except SyntaxError (Reading Expr ts.length) := do
  let left ← readUnary total ts
  have hleft := left.shorter
  let whole ← readOperators total least left.value left.rest
  return ⟨whole.value, whole.rest, by have := whole.shorter; omega⟩
termination_by (ts.length, 4)

/-- The binary operators of at least the given precedence behind a left operand. -/
def readOperators (total : Nat) (least : Nat) (left : Expr) (ts : List Token) :
    Except SyntaxError (Reading Expr (ts.length + 1)) :=
  match ts with
  | [] => .ok ⟨left, [], by simp⟩
  | t :: rest =>
    match binaryOp? t.kind with
    | none => .ok ⟨left, t :: rest, by simp⟩
    | some op =>
      if op.precedence < least then .ok ⟨left, t :: rest, by simp⟩
      else do
        let right ← readBinary total (op.precedence + 1) rest
        have hright := right.shorter
        let whole ← readOperators total least
          (binary op left right.value (left.span.join right.value.span)) right.rest
        return ⟨whole.value, whole.rest, by have := whole.shorter; simp; omega⟩
termination_by (ts.length, 0)

/-- An operand with any operators before and behind it. -/
def readUnary (total : Nat) (ts : List Token) :
    Except SyntaxError (Reading Expr ts.length) :=
  match ts with
  | [] => .error (missingAtEnd total)
  | t :: rest =>
    match prefixOp? t.kind with
    | none => readSelection total (t :: rest)
    | some op => do
      let operand ← readBinary total UnaryOp.precedence rest
      have hoperand := operand.shorter
      let span := (Span.single (total - (rest.length + 1))).join operand.value.span
      return ⟨unary op operand.value span, operand.rest, by simp; omega⟩
termination_by (ts.length, 3)

/-- An operand with any operators behind it. -/
def readSelection (total : Nat) (ts : List Token) :
    Except SyntaxError (Reading Expr ts.length) := do
  let target ← readOperand total ts
  have htarget := target.shorter
  let whole ← readSelectors total target.value target.rest
  return ⟨whole.value, whole.rest, by have := whole.shorter; omega⟩
termination_by (ts.length, 2)

/-- The operators behind an operand: an index, components, a factorial. -/
def readSelectors (total : Nat) (target : Expr) (ts : List Token) :
    Except SyntaxError (Reading Expr (ts.length + 1)) :=
  match ts with
  | [] => .ok ⟨target, [], by simp⟩
  | t :: rest =>
    let position := total - (rest.length + 1)
    match t.kind with
    | .bracket .openSquare => do
      checkTarget target position
      if rest.head?.any (·.kind = .bracket .closeSquare) then
        throw ⟨.missingExpression, ⟨position, position + 2⟩⟩
      let index ← read total true rest
      have hindex := index.shorter
      match h : index.rest with
      | [] => throw (unexpected total [])
      | c :: rest' =>
        have hrest : rest'.length + 1 = index.rest.length := by rw [h]; rfl
        if c.kind ≠ .bracket .closeSquare then throw (unexpected total (c :: rest'))
        let chosen ← select target index.value
          (target.span.join ⟨position, total - rest'.length⟩)
        let whole ← readSelectors total chosen rest'
        return ⟨whole.value, whole.rest, by have := whole.shorter; simp; omega⟩
    | .operator .dot => do
      checkTarget target position
      let index ← readDotted total position rest
      have hindex := index.shorter
      let chosen ← select target index.value (target.span.join index.value.span)
      let whole ← readSelectors total chosen index.rest
      return ⟨whole.value, whole.rest, by have := whole.shorter; simp; omega⟩
    | .operator .bang => do
      let span := target.span.join (.single position)
      let whole ← readSelectors total (unary .factorial target span) rest
      return ⟨whole.value, whole.rest, by have := whole.shorter; simp; omega⟩
    | .bracket .openParen =>
      .error ⟨.invalidFunctionCall, target.span.join (.single position)⟩
    | _ => .ok ⟨target, t :: rest, by simp⟩
termination_by (ts.length, 0)

/-- What may follow a dot: a name, or an expression in parentheses. -/
def readDotted (total : Nat) (dot : Nat) (ts : List Token) :
    Except SyntaxError (Reading Expr ts.length) :=
  match ts with
  | [] => .error ⟨.missingExpression, .single dot⟩
  | t :: rest =>
    let position := total - (rest.length + 1)
    match t.kind with
    | .identifier => .ok ⟨identifier t.text (.single position), rest, by simp⟩
    | .number => .error ⟨.indexWithConstant, .single position⟩
    | .bracket .openParen => readOperand total (t :: rest)
    | _ => .error ⟨.missingExpression, .single dot⟩
termination_by (ts.length, 2)

/-- A number, a name, a call, a vector, an array, or an expression in parentheses. -/
def readOperand (total : Nat) (ts : List Token) :
    Except SyntaxError (Reading Expr ts.length) :=
  match ts with
  | [] => .error (missingAtEnd total)
  | t :: rest =>
    let position := total - (rest.length + 1)
    match t.kind with
    | .number =>
      match Scalar.read? t.text with
      | some value => .ok ⟨constant value (.single position), rest, by simp⟩
      | none => .error ⟨.invalidNumber, .single position⟩
    | .identifier =>
      match rest with
      | [] => .ok ⟨identifier t.text (.single position), [], by simp⟩
      | p :: rest' =>
        if p.kind = .bracket .openParen then do
          let args ← readList total false .closeParen rest'
          have hargs := args.shorter
          return ⟨call t.text args.value ⟨position, total - args.rest.length⟩, args.rest,
            by simp; omega⟩
        else .ok ⟨identifier t.text (.single position), p :: rest', by simp⟩
    | .bracket .openParen => do
      let items ← readList total false .closeParen rest
      have hitems := items.shorter
      let value ← parenthesized items.value ⟨position, total - items.rest.length⟩
      return ⟨value, items.rest, by simp; omega⟩
    | .bracket .openSquare => do
      let items ← readList total true .closeSquare rest
      have hitems := items.shorter
      let span := ⟨position, total - items.rest.length⟩
      if items.value.isEmpty then throw ⟨.missingExpression, span⟩
      return ⟨array items.value span, items.rest, by simp; omega⟩
    | .operator op => .error ⟨operandCause op, .single position⟩
    | _ => .error ⟨.missingExpression, .single position⟩
termination_by (ts.length, 1)

/-- Items up to a closing bracket, which is read too. -/
def readList (total : Nat) (inArray : Bool) (closer : Bracket) (ts : List Token) :
    Except SyntaxError (Reading (List Expr) ts.length) :=
  match ts with
  | [] => readItems total inArray closer []
  | t :: rest =>
    if t.kind = .bracket closer then .ok ⟨[], rest, by simp⟩
    else readItems total inArray closer (t :: rest)
termination_by (ts.length, 9)

/-- One item or more, divided by commas, up to a closing bracket. -/
def readItems (total : Nat) (inArray : Bool) (closer : Bracket) (ts : List Token) :
    Except SyntaxError (Reading (List Expr) ts.length) := do
  let item ← read total inArray ts
  have hitem := item.shorter
  match h : item.rest with
  | [] => throw (unexpected total [])
  | t :: rest =>
    have hrest : rest.length + 1 = item.rest.length := by rw [h]; rfl
    if t.kind = .comma then
      let items ← readItems total inArray closer rest
      return ⟨item.value :: items.value, items.rest, by have := items.shorter; omega⟩
    else if t.kind = .bracket closer then return ⟨[item.value], rest, by omega⟩
    else throw (unexpected total (t :: rest))
termination_by (ts.length, 8)

end

end Expr

end VectorScript
