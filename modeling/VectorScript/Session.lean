import VectorScript.Dependency.Graph
import VectorScript.Evaluation
import VectorScript.Statement.Parser

/-!
# Sessions

A session holds the declarations of a script, remembers the values of variables, and forgets those
values that a change may have made wrong.
-/

namespace VectorScript

/-- Why a text has no value, or a statement cannot be taken up. -/
inductive Failure where
  | unreadable (error : SyntaxError)
  | evaluation (error : EvalError)
deriving DecidableEq, Repr, Inhabited

structure Session where
  declarations : Declarations
  /-- The declared names, first come first. -/
  order : List String
  /-- The render statements, in order. -/
  renders : List Statement
  /-- The graph of the declarations. -/
  graph : DependencyGraph
  limits : Limits
  animation : Animation
  memory : Memory
deriving Inhabited

namespace Session

/-- A session that knows nothing. -/
def empty : Session where
  declarations := .empty
  order := []
  renders := []
  graph := .empty
  limits := {}
  animation := .initial
  memory := ⟨.empty, 0, 0⟩

/-! ### Loading -/

/-- Declares a name, in place of what was declared under it before; a new name comes last. -/
def insert (s : Session) (name : String) (st : Statement) : Session :=
  { s with
    declarations := s.declarations.insert name st
    order := if s.declarations.contains name then s.order else s.order ++ [name] }

/-- Searches for the dependencies of all declared names anew. -/
def rebuild (s : Session) : Session :=
  { s with graph := .ofNames s.declarations s.order }

/-- Takes up a statement of a script; one that cannot be read is left out. -/
def take (s : Session) (st : Statement) : Session :=
  match st.kind with
  | .invalid _ => s
  | .render .. => { s with renders := s.renders ++ [st] }
  | .variable name _ | .function name _ _ => s.insert name st

/-- The session of a script, and the statements that cannot be read. -/
def load (source : String) : Session × List Statement :=
  let statements := parseScript source
  ((statements.foldl take empty).rebuild, statements.filter fun st => st.error?.isSome)

/-! ### Forgetting values -/

def forget (s : Session) (names : List String) : Session :=
  { s with memory := { s.memory with cache := names.foldl NameTable.erase s.memory.cache } }

/-- Forgets the value of a name and of everything that reads it. -/
def invalidate (s : Session) (name : String) : Session :=
  s.forget (name :: (s.graph.dependents.find? name).getD [])

def forgetAll (s : Session) : Session :=
  { s with memory := { s.memory with cache := .empty } }

/-! ### Changes -/

/-- Takes up a statement under a name, in place of the one before it.  If the search for
dependencies then meets a cycle, what was declared before is put back. -/
def declare (s : Session) (name : String) (st : Statement) : Except Failure Unit × Session :=
  let t := s.insert name st
  match Dependency.ofDeclaration t.declarations name with
  | .error _ =>
    let restored := match s.declarations.find? name with
      | some previous => { t with declarations := t.declarations.insert name previous }
      | none =>
        { t with
          declarations := t.declarations.erase name
          order := t.order.filter (· ≠ name) }
    (.error (.evaluation ⟨.cyclicDefinition name, ⟨some name, .none⟩⟩), restored)
  | .ok _ => (.ok (), t.rebuild.invalidate name)

/-- Takes up one more statement.  A declaration that would depend on itself is refused. -/
def update (s : Session) (st : Statement) : Except Failure Unit × Session :=
  match st.kind with
  | .invalid e => (.error (.unreadable e), s)
  | .render .. => (.ok (), { s with renders := s.renders ++ [st] })
  | .variable name _ | .function name _ _ => s.declare name st

/-- The session with one more statement, if the statement is not refused. -/
def define (s : Session) (st : Statement) : Except Failure Session :=
  match s.update st with
  | (.ok (), s) => .ok s
  | (.error e, _) => .error e

def setLimits (s : Session) (limits : Limits) : Session :=
  { s with limits := limits }.forgetAll

def setAnimation (s : Session) (animation : Animation) : Session :=
  { s with animation := animation }.forgetAll

def setTime (s : Session) (time : Float32) : Session :=
  { s with animation := { s.animation with time := time } }.invalidate "time"

def advanceTime (s : Session) (step : Float32) : Session :=
  s.setTime (s.animation.time + step)

def setPosition (s : Session) (position : Vector Float32 3) : Session :=
  { s with animation := { s.animation with position := position } }.invalidate "position"

def setScale (s : Session) (scale : Float32) : Session :=
  { s with animation := { s.animation with scale := scale } }.invalidate "scale"

def setRotation (s : Session) (rotation : Vector Float32 4) : Session :=
  { s with animation := { s.animation with rotation := rotation } }.invalidate "rotation"

/-! ### Requests -/

def setting (s : Session) : Setting := ⟨s.declarations, s.limits, s.animation⟩

/-- Answers a request; what it remembers and counts stays, also when it fails. -/
def run {α : Type} (s : Session) (request : Eval α) : Except EvalError α × Session :=
  let (answer, memory) := request.run.run s.memory
  (answer, { s with memory := memory })

/-- The meaning of an expression on its own. -/
def meaning (s : Session) (e : Expr) : Meaning Eval :=
  e.meaning s.setting .root

/-- A name on its own. -/
def reference (name : String) : Expr := .identifier name .none

def evaluateExpr (s : Session) (e : Expr) (selection : Selection) :
    Except EvalError Series × Session :=
  s.run ((s.meaning e).values selection)

def exprShape (s : Session) (e : Expr) : Except EvalError Shape × Session :=
  s.run (s.meaning e).shape

def evaluate (s : Session) (name : String) (selection : Selection) :
    Except EvalError Series × Session :=
  s.evaluateExpr (reference name) selection

def shape (s : Session) (name : String) : Except EvalError Shape × Session :=
  s.exprShape (reference name)

/-- Evaluates the body of a render statement, if there is one at the index. -/
def evaluateRender (s : Session) (index : Nat) (selection : Selection) :
    Option (Except EvalError Series × Session) := do
  let body ← (← s.renders[index]?).body?
  return s.evaluateExpr body selection

/-- Reads a text as one expression. -/
def readExpr (source : String) : Except SyntaxError Expr :=
  match flatTokens source with
  | [] => .error ⟨.missingExpression, .none⟩
  | ts => Expr.ofTokens ts

/-- Reads and evaluates a text. -/
def evaluateSource (s : Session) (source : String) : Except Failure Series × Session :=
  match readExpr source with
  | .error e => (.error (.unreadable e), s)
  | .ok e =>
    let (answer, s) := s.evaluateExpr e .all
    (answer.mapError .evaluation, s)

/-! ### Views -/

/-- The declared names whose values are remembered. -/
def cachedNames (s : Session) : List String :=
  s.order.filter s.memory.cache.contains

/-- The statement that holds the site of an error, as it is declared now. -/
def statementOf? (s : Session) (e : EvalError) : Option Statement :=
  e.site.statement.bind s.declarations.find?

end Session

end VectorScript
