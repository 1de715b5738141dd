import VectorScript.EvalError
import VectorScript.Scope
import VectorScript.Settings
import VectorScript.Statement

/-!
# Contexts

What evaluation reads apart from the expression itself: what stays fixed while requests are
answered, and where the expression stands.
-/

namespace VectorScript

/-- What stays fixed while requests are answered. -/
structure Setting where
  declarations : Declarations
  limits : Limits
  animation : Animation
deriving Inhabited

/-- Where an expression stands: the bound names, the statement that holds it, the number of calls
around it, and the variables whose bodies are being evaluated, innermost first. -/
structure Context where
  scope : Scope
  owner : Option String
  depth : Nat
  opened : List String
deriving Inhabited

namespace Context

/-- An expression on its own. -/
def root : Context := ⟨.root, none, 0, []⟩

def site (ctx : Context) (span : Span) : Site := ⟨ctx.owner, span⟩

/-- Inside a comprehension. -/
def bind (ctx : Context) (name : String) (v : Series) : Context :=
  { ctx with scope := .bind name v ctx.scope }

/-- In an argument that waits for evaluation. -/
def resume (ctx : Context) (outer : Scope) (owner : Option String) : Context :=
  { ctx with scope := outer, owner := owner }

/-- In the body of a variable. -/
def inVariable (ctx : Context) (name : String) : Context :=
  ⟨.root, some name, ctx.depth, name :: ctx.opened⟩

/-- In the body of a function. -/
def inFunction (ctx : Context) (name : String) (frame : Scope) : Context :=
  ⟨frame, some name, ctx.depth + 1, ctx.opened⟩

end Context

end VectorScript
