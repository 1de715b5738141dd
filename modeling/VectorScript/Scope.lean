import VectorScript.Expr
import VectorScript.Series

/-!
# Scopes

The names that comprehensions and calls bind.  A call may bind a parameter to an argument that is
not evaluated yet; such a binding keeps the scope of the argument.
-/

namespace VectorScript

/-- Bound names, innermost first. -/
inductive Scope where
  | root
  | bind (name : String) (value : Series) (rest : Scope)
  /-- `owner` is the statement whose tokens the spans of `arg` count. -/
  | defer (name : String) (arg : Expr) (outer : Scope) (owner : Option String) (rest : Scope)
deriving Inhabited

/-- What a bound name stands for. -/
inductive Binding where
  | value (value : Series)
  | deferred (arg : Expr) (outer : Scope) (owner : Option String)
deriving Inhabited

namespace Scope

def find? (name : String) : Scope → Option Binding
  | root => none
  | bind key value rest => if key = name then some (.value value) else find? name rest
  | defer key arg outer owner rest =>
    if key = name then some (.deferred arg outer owner) else find? name rest

def contains (s : Scope) (name : String) : Bool :=
  (s.find? name).isSome

/-- The scope of a function body whose parameters have values. -/
def ofValues : List String → List Series → Scope → Scope
  | p :: params, v :: values, s => ofValues params values (bind p v s)
  | _, _, s => s

/-- The scope of a function body whose parameters stand for the arguments of a call. -/
def ofArgs (outer : Scope) (owner : Option String) : List String → List Expr → Scope → Scope
  | p :: params, arg :: args, s => ofArgs outer owner params args (defer p arg outer owner s)
  | _, _, s => s

/-- The size of all arguments that are not evaluated yet, with those in their scopes. -/
noncomputable def weight : Scope → Nat
  | root => 0
  | bind _ _ rest => rest.weight
  | defer _ arg outer _ rest => sizeOf arg + outer.weight + rest.weight + 1

/-- An argument and its scope weigh less than a scope that holds them. -/
theorem weight_of_deferred {s outer : Scope} {name : String} {arg : Expr} {owner : Option String}
    (h : s.find? name = some (.deferred arg outer owner)) :
    sizeOf arg + outer.weight < s.weight := by
  induction s with
  | root => cases h
  | bind key value rest ih =>
    simp only [find?] at h
    split at h
    · cases h
    · exact ih h
  | defer key arg' outer' owner' rest _ ih =>
    simp only [find?] at h
    split at h
    · cases h
      simp only [weight]
      omega
    · have := ih h
      simp only [weight]
      omega

end Scope

end VectorScript
