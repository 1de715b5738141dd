import VectorScript.Builtin
import VectorScript.Meaning.Elementwise

/-!
# Calls of builtins

How a builtin answers requests, by the form of its kernel.  Requests for values are counted.
-/

namespace VectorScript

namespace Meaning

variable {m : Type → Type} [Answering m]

/-- One value for each channel of the argument. -/
@[specialize] def reduced (f : Array Float32 → Float32) (arg : Meaning m) : Meaning m where
  shape := do return ⟨1, (← arg.shape).dimension⟩
  values selection := do
    let v ← arg.values .all
    return (Builtin.reduceChannels f v).select selection

/-- A function of all values of the arguments.  The length that its rule finds is counted. -/
@[specialize] def whole (site : Site) (f : List Series → Except EvalError.Cause Series)
    (rule : List Shape → Except EvalError.Cause Shape) (args : List (Meaning m)) :
    Meaning m where
  shape := do
    let shapes ← args.mapM (·.shape)
    let s ← Answering.liftAt site (rule shapes)
    return ⟨← Answering.count site s.length, s.dimension⟩
  values selection := do
    let values ← args.mapM (·.values .all)
    let v ← Answering.liftAt site (f values)
    return v.select selection

/-- The answers of a kernel. -/
@[specialize] def ofKernel (site : Site) (name : String) (args : List (Meaning m)) :
    Kernel → Meaning m
  | .map f => mapped site f args
  | .zip f =>
    elementwise site (Builtin.broadcastArgs name)
      (fun values =>
        Builtin.orInvalid name "arguments differ in dimension" (Builtin.zipTwo f values)) args
  | .reduce f => reduced f (args.headD default)
  | .whole f rule => whole site f rule args
  | .reserved => fail site (.notImplemented name)

@[specialize] def builtin (site : Site) (b : Builtin) (args : List (Meaning m)) : Meaning m :=
  let answers := ofKernel site b.name args b.kernel
  { shape := answers.shape
    values := fun selection => do
      Answering.countBuiltin
      answers.values selection }

end Meaning

end VectorScript
