import VectorScript.Statement

/-!
# Dependencies

The names that a declaration or an expression reads, directly and through other declarations.  A
name that a parameter or a comprehension binds is not read.  A variable that leads back to itself
is a cycle; a function may call itself.
-/

namespace VectorScript

/-- Names that lead from a variable back to it: the first and the last are the same. -/
structure Cycle where
  chain : List String
deriving DecidableEq, Repr, Inhabited

def Cycle.message (c : Cycle) : String :=
  "cyclic definition: " ++ " -> ".intercalate c.chain

namespace Dependency

/-- Adds a name to names in ascending order, once. -/
def insertName (name : String) : List String → List String
  | [] => [name]
  | other :: rest =>
    if name = other then other :: rest
    else if name < other then name :: other :: rest
    else other :: insertName name rest

/-- What a search has found, in ascending order, and the declarations it has followed to the
end. -/
structure Search where
  found : List String
  followed : List String
deriving DecidableEq, Repr, Inhabited

namespace Search

def empty : Search := ⟨[], []⟩

def add (s : Search) (name : String) : Search :=
  { s with found := insertName name s.found }

def finish (s : Search) (name : String) : Search :=
  { s with followed := name :: s.followed }

end Search

/-- The way from an open declaration back to it; `opened` has the innermost one first. -/
def cycleAt (opened : List String) (name : String) : Cycle :=
  ⟨name :: (opened.takeWhile (· ≠ name)).reverse ++ [name]⟩

mutual

/-- Walks an expression in which the names `bound` are not free, inside the declarations
`opened`. -/
def search (ds : Declarations) (opened bound : List String) (e : Expr) (s : Search) :
    Except Cycle Search :=
  match e with
  | .constant .. => .ok s
  | .identifier name _ => reference ds opened bound name s
  | .vector items _ => searchAll ds opened bound items s
  | .array items _ => searchAll ds opened bound items s
  | .comprehension body binder source _ => do
    let s ← search ds opened bound source s
    search ds opened (binder :: bound) body s
  | .filtered body binder source condition _ => do
    let s ← search ds opened bound source s
    let s ← search ds opened (binder :: bound) body s
    search ds opened (binder :: bound) condition s
  | .call name args _ => do
    let s ← searchAll ds opened bound args s
    if ds.contains name then reference ds opened bound name s else return s
  | .unary _ operand _ => search ds opened bound operand s
  | .binary _ left right _ => do
    let s ← search ds opened bound left s
    search ds opened bound right s
  | .range lower upper _ => do
    let s ← search ds opened bound lower s
    search ds opened bound upper s
  | .index target index _ => do
    let s ← search ds opened bound target s
    search ds opened bound index s
  | .swizzle target _ _ => search ds opened bound target s
  | .conditional consequent condition alternative _ => do
    let s ← search ds opened bound consequent s
    let s ← search ds opened bound condition s
    search ds opened bound alternative s
termination_by (ds.unused opened, sizeOf e, 1)

/-- Walks some expressions in order. -/
def searchAll (ds : Declarations) (opened bound : List String) (es : List Expr) (s : Search) :
    Except Cycle Search :=
  match es with
  | [] => .ok s
  | e :: rest => do
    let s ← search ds opened bound e s
    searchAll ds opened bound rest s
termination_by (ds.unused opened, sizeOf es, 1)

/-- Notes a free name and follows its declaration. -/
def reference (ds : Declarations) (opened bound : List String) (name : String) (s : Search) :
    Except Cycle Search :=
  if name ∈ bound then .ok s else follow ds opened name (s.add name)
termination_by (ds.unused opened, 0, 1)

/-- Walks the body of a declaration, unless it was followed before or is open now. -/
def follow (ds : Declarations) (opened : List String) (name : String) (s : Search) :
    Except Cycle Search :=
  match _hfind : ds.find? name with
  | none => .ok s
  | some st =>
    if _hopen : name ∈ opened then
      if st.isFunction then .ok s else .error (cycleAt opened name)
    else if name ∈ s.followed then .ok s
    else
      match st.kind with
      | .variable _ body => do
        let s ← search ds (name :: opened) [] body s
        return s.finish name
      | .function _ params body => do
        let s ← search ds (name :: opened) params body s
        return s.finish name
      | _ => .ok (s.finish name)
termination_by (ds.unused opened, 0, 0)
decreasing_by
  all_goals exact Prod.Lex.left _ _ (NameTable.unused_cons_lt _hfind _hopen)

end

/-- All names that a declaration reads, or a cycle on the way. -/
def ofDeclaration (ds : Declarations) (name : String) : Except Cycle (List String) :=
  (follow ds [] name .empty).map Search.found

/-- All names that an expression reads, or a cycle on the way. -/
def ofExpr (ds : Declarations) (e : Expr) : Except Cycle (List String) :=
  (search ds [] [] e .empty).map Search.found

end Dependency

end VectorScript
