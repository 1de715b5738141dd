import VectorScript.Dependency

/-!
# Dependency graph

For every declaration the names it reads, and for every name the declarations that read it.
-/

namespace VectorScript

structure DependencyGraph where
  dependencies : NameTable (List String)
  dependents : NameTable (List String)
deriving Inhabited

namespace DependencyGraph

def empty : DependencyGraph := ⟨.empty, .empty⟩

/-- Notes that `reader` reads `name`. -/
def addDependent (reader : String) (t : NameTable (List String)) (name : String) :
    NameTable (List String) :=
  t.insert name (Dependency.insertName reader ((t.find? name).getD []))

/-- Takes up a declaration with the names it reads; one on a cycle stays out. -/
def add (ds : Declarations) (g : DependencyGraph) (name : String) : DependencyGraph :=
  match Dependency.ofDeclaration ds name with
  | .ok found =>
    { dependencies := g.dependencies.insert name found
      dependents := found.foldl (addDependent name) g.dependents }
  | .error _ => g

/-- The graph of some declarations under the given names. -/
def ofNames (ds : Declarations) (names : List String) : DependencyGraph :=
  names.foldl (add ds) empty

end DependencyGraph

end VectorScript
