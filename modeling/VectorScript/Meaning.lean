import VectorScript.EvalError
import VectorScript.NameTable
import VectorScript.Series

/-!
# Meanings

The meaning of an expression is what it answers to requests: its shape, and its values at a
selection of elements.  Answering may fail, may count work, and may remember the values of
variables.  A meaning does not say how these things are done, so that it can be read with a memory
and without one.
-/

namespace VectorScript

/-- Computations that answer requests. -/
class Answering (m : Type → Type) extends Monad m where
  raise {α : Type} (e : EvalError) : m α
  /-- What becomes of a number of elements that 64 bits cannot hold. -/
  overflow (site : Site) (n : Nat) : m Nat
  /-- Counts a call of a builtin for values. -/
  countBuiltin : m Unit
  /-- Counts an evaluation of the body of a variable for values. -/
  countStatement : m Unit
  /-- Keeps all values of a variable. -/
  remember (name : String) (v : Series) : m Unit
  /-- The values of a variable, if they were kept. -/
  remembered? (name : String) : m (Option Series)

namespace Answering

variable {m : Type → Type} [Answering m] {α : Type}

@[specialize] def fail (site : Site) (cause : EvalError.Cause) : m α :=
  raise ⟨cause, site⟩

/-- A number of elements, counted in 64 bits. -/
@[specialize] def count (site : Site) (n : Nat) : m Nat :=
  if n ≤ maxLength then pure n else overflow site n

@[specialize] def ofExcept : Except EvalError α → m α
  | .ok a => pure a
  | .error e => raise e

/-- Places a cause at a site. -/
@[specialize] def liftAt (site : Site) : Except EvalError.Cause α → m α
  | .ok a => pure a
  | .error cause => fail site cause

end Answering

/-! ### Answers with a memory -/

/-- Values of variables that were evaluated in full, and counts of work done. -/
structure Memory where
  cache : NameTable Series
  builtinCalls : Nat
  statementEvaluations : Nat
deriving Inhabited

/-- A computation that may fail and that keeps its memory when it does. -/
abbrev Eval := ExceptT EvalError (StateM Memory)

instance : Answering Eval where
  raise e := throw e
  overflow site _ := throw ⟨.fault .overflow, site⟩
  countBuiltin := modify fun m => { m with builtinCalls := m.builtinCalls + 1 }
  countStatement := modify fun m => { m with statementEvaluations := m.statementEvaluations + 1 }
  remember name v := modify fun m => { m with cache := m.cache.insert name v }
  remembered? name := return (← get).cache.find? name

instance : LawfulMonad Eval := inferInstanceAs (LawfulMonad (ExceptT EvalError (StateM Memory)))

/-- The same computations in a program that does not check its sums: a number of elements that 64
bits cannot hold loses the bits above. -/
def Wrapping : Type → Type := Eval

instance : Answering Wrapping :=
  { (inferInstance : Answering Eval) with
    overflow := fun _ n => (pure (n % (maxLength + 1)) : Eval Nat) }

instance : LawfulMonad Wrapping := inferInstanceAs (LawfulMonad Eval)

/-! ### Meanings -/

/-- The answers of an expression to requests. -/
structure Meaning (m : Type → Type) where
  shape : m Shape
  values : Selection → m Series

namespace Meaning

open Answering

variable {m : Type → Type} [Answering m]

instance : Inhabited (Meaning m) := ⟨⟨pure default, fun _ => pure default⟩⟩

/-- A value that is known. -/
@[specialize] def const (v : Series) : Meaning m :=
  ⟨pure v.shape, fun selection => pure (v.select selection)⟩

/-- A series without numbers. -/
@[specialize] def nan (s : Shape) : Meaning m :=
  ⟨pure s, fun selection => pure ((Series.nan s).select selection)⟩

@[specialize] def fail (site : Site) (cause : EvalError.Cause) : Meaning m :=
  ⟨Answering.fail site cause, fun _ => Answering.fail site cause⟩

/-- The same meaning, built only when it is asked for something. -/
@[specialize] def delay (f : Unit → Meaning m) : Meaning m :=
  ⟨pure () >>= fun _ => (f ()).shape, fun selection => pure () >>= fun _ => (f ()).values selection⟩

/-- The meaning that a computation finds, which runs before every request. -/
@[specialize] def after (find : m (Meaning m)) : Meaning m :=
  ⟨do (← find).shape, fun selection => do (← find).values selection⟩

/-! ### Variables -/

/-- A remembered value, or else another meaning. -/
@[specialize] def recalledOr (name : String) (other : Meaning m) : Meaning m :=
  after do
    match ← remembered? name with
    | some v => return const v
    | none => return other

/-- A variable with its body: requests for values are counted, and all values together are
remembered. -/
@[specialize] def ofVariable (name : String) (body : Meaning m) : Meaning m where
  shape := body.shape
  values selection := do
    countStatement
    let v ← body.values selection
    if selection = .all then remember name v
    return v

/-! ### Calls of declared functions -/

/-- All values of a call need all values of its arguments; other requests leave the arguments to
the body. -/
@[specialize] def call (args : List (Meaning m)) (applied : List Series → Meaning m)
    (deferred : Meaning m) : Meaning m where
  shape := deferred.shape
  values
    | .all => do (applied (← args.mapM (·.values .all))).values .all
    | .at indices => deferred.values (.at indices)

end Meaning

end VectorScript
