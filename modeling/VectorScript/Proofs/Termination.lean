import VectorScript.Proofs.Following
import VectorScript.Proofs.EvaluationSteps
import VectorScript.Proofs.SimulationEvaluation
import VectorScript.Session

/-!
# Termination

A call evaluates a whole body, a name evaluates a whole declaration, and an argument that waits for
evaluation leads back to the caller.  Still no evaluation goes on without end, since every step
lowers the bound on nesting.

To say so, evaluation is cut off below a number of nested expressions: what is nested deeper never
answers.  With enough of them the answers are those of the whole evaluation, whatever is remembered.

* `Expr.meaningUpTo`: evaluation to a depth of nesting.
* `Unending`: computations that may have no end.
* `Expr.evaluation_ends`: cut off deep enough, evaluation ends with what it always answers.
-/

namespace VectorScript

namespace Expr

/-! ### Evaluation that is cut off -/

variable {m : Type → Type} [Answering m] {w : Setting}

/-- Evaluation to a depth of nesting; below it, `beyond` answers. -/
def meaningUpTo (w : Setting) (beyond : Context → Expr → Meaning m) :
    Nat → Context → Expr → Meaning m
  | 0 => beyond
  | n + 1 => meaningBy w (meaningUpTo w beyond n)

/-- Below the bound on nesting nothing is asked. -/
theorem meaningUpTo_eq (beyond : Context → Expr → Meaning m) {n : Nat} {ctx : Context} {e : Expr}
    (h : nesting w ctx e < n) : meaningUpTo w beyond n ctx e = meaning w ctx e := by
  induction n generalizing ctx e with
  | zero => cases h
  | succ n ih =>
    rw [meaning_eq_meaningBy]
    exact meaningBy_congr fun ctx' e' hlt => ih (by omega)

end Expr

/-! ### Computations that may have no end -/

/-- A computation with a memory that may have no end, and then leaves neither answer nor memory. -/
abbrev Unending := ExceptT EvalError (StateT Memory Option)

instance : Answering Unending where
  raise e := throw e
  overflow site _ := throw ⟨.fault .overflow, site⟩
  countBuiltin := modify fun μ => { μ with builtinCalls := μ.builtinCalls + 1 }
  countStatement := modify fun μ => { μ with statementEvaluations := μ.statementEvaluations + 1 }
  remember name v := modify fun μ => { μ with cache := μ.cache.insert name v }
  remembered? name := return (← get).cache.find? name

instance : LawfulMonad Unending :=
  inferInstanceAs (LawfulMonad (ExceptT EvalError (StateT Memory Option)))

/-- No request is ever answered. -/
def Meaning.endless : Meaning Unending where
  shape := ExceptT.mk fun _ => none
  values _ := ExceptT.mk fun _ => none

namespace Simulation

/-- From every memory a computation ends, with the answer and the memory of another one. -/
def Ends {α : Type} (x : Unending α) (y : Eval α) : Prop :=
  ∀ μ : Memory, x.run.run μ = some (y.run.run μ)

theorem Ends.bind {α β : Type} {x : Unending α} {y : Eval α} {f : α → Unending β}
    {g : α → Eval β} (h : Ends x y) (hf : ∀ a, Ends (f a) (g a)) : Ends (x >>= f) (y >>= g) := by
  intro μ
  rw [run_bind, ExceptT.run_bind, StateT.run_bind, h μ]
  rcases y.run.run μ with ⟨r, μ'⟩
  cases r with
  | ok a => exact hf a μ'
  | error e => rfl

/-- A simulation in which computations end. -/
def ending : Simulation Unending Eval where
  Rel := Ends
  may _ := True
  pure _ _ := rfl
  raise _ _ := rfl
  overflow _ _ _ := rfl
  countBuiltin _ := rfl
  bind := Ends.bind

theorem sharesMemory_ending : ending.SharesMemory where
  countStatement _ := rfl
  remember _ _ _ := rfl
  remembered? _ _ := rfl

theorem carries_ending (w : Setting) : ending.Carries w fun _ _ => True where
  step _ _ := trivial
  site _ _ _ := trivial
  reopen _ _ _ _ := trivial
  remember _ _ _ _ _ h := sharesMemory_ending.ofVariable h _
  recalled _ _ h := sharesMemory_ending.recalledOr h _

end Simulation

namespace Expr

/-- Evaluation in which nothing answers that is nested deeper than `depth`. -/
def evaluateWithin (w : Setting) (depth : Nat) (ctx : Context) (e : Expr) : Meaning Unending :=
  meaningUpTo w (fun _ _ => .endless) depth ctx e

/-- Evaluation ends.  The recursion is well founded; and cut off deep enough, evaluation answers
every request from every memory with a shape, with values or with an error, as it does when it is
not cut off. -/
theorem evaluation_ends (w : Setting) :
    (WellFounded fun next this : Context × Expr => Leads w this.1 this.2 next.1 next.2) ∧
    ∀ (ctx : Context) (e : Expr), ∃ enough, ∀ depth, enough ≤ depth → ∀ μ : Memory,
      let whole : Meaning Eval := e.meaning w ctx
      let cut := evaluateWithin w depth ctx e
      cut.shape.run.run μ = some (whole.shape.run.run μ) ∧
      ∀ selection, (cut.values selection).run.run μ =
        some ((whole.values selection).run.run μ) := by
  constructor
  · exact Subrelation.wf (fun h => nesting_lt_of_leads h)
      (InvImage.wf (fun p : Context × Expr => nesting w p.1 p.2) Nat.lt_wfRel.wf)
  · intro ctx e
    refine ⟨nesting w ctx e + 1, fun depth hdepth μ => ?_⟩
    have hmatches := (Simulation.carries_ending w).matches ctx e trivial
    have hcut : evaluateWithin w depth ctx e = e.meaning w ctx := meaningUpTo_eq _ hdepth
    intro whole cut
    simp only [cut, hcut]
    exact ⟨hmatches.shape μ, fun selection => hmatches.values selection μ⟩

-- two variables that lead to each other: the cycle is seen at the third of the nested expressions
set_option maxRecDepth 4000 in
example : (evaluateWithin (Session.load "a = b; b = a").1.setting 2 .root
    (Session.reference "a")).shape.run.run ⟨.empty, 0, 0⟩ = none := by
  cbv

set_option maxRecDepth 4000 in
example : (evaluateWithin (Session.load "a = b; b = a").1.setting 3 .root
    (Session.reference "a")).shape.run.run ⟨.empty, 0, 0⟩ =
      some (.error ⟨.cyclicDefinition "a", some "b", ⟨2, 3⟩⟩, ⟨.empty, 0, 0⟩) := by
  cbv

end Expr

end VectorScript
