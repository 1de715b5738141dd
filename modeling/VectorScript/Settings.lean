/-!
# Settings

Limits on evaluation, and the values of the constants that change while a script is drawn.
-/

namespace VectorScript

structure Limits where
  /-- The longest array that a range, a literal or a comprehension may give. -/
  maxArrayLength : Nat := 0x1000000
  /-- The deepest nesting of calls of declared functions. -/
  maxCallDepth : Nat := 256
deriving DecidableEq, Repr, Inhabited

/-- The values of `time`, `position`, `scale` and `rotation`. -/
structure Animation where
  time : Float32 := 0
  position : Vector Float32 3 := #v[0, 0, 0]
  scale : Float32 := 1
  rotation : Vector Float32 4 := #v[0, 0, 0, 1]
deriving Inhabited

/-- The values before anything moves. -/
def Animation.initial : Animation := {}

end VectorScript
