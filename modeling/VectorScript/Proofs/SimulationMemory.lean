import VectorScript.Proofs.FollowingEvaluation
import VectorScript.Proofs.SimulationEvaluation

/-!
# Simulations with a memory

A simulation between evaluation with a memory and evaluation without one: a property of the memory
is kept, and what is answered with the memory is related to what is answered without it, under the
same limits.

* `AnswerRelation`: a relation between answers that sequencing keeps.
* `AnswerRelation.failsOnly`: only some errors are raised.
* `Simulation.withMemory`: the simulation by such a relation and a property of the memory.
-/

namespace VectorScript

open Meaning

/-- A relation between answers with a memory and answers without one. -/
structure AnswerRelation where
  Rel : {α : Type} → Except EvalError α → Plain α → Prop
  /-- The errors that may be raised. -/
  may : EvalError → Prop
  ok : ∀ {α : Type} (a : α), Rel (.ok a) (.ok a)
  error : ∀ {α : Type} {e : EvalError}, may e → Rel (.error e : Except EvalError α) (.error e)
  /-- Nothing follows after an error. -/
  stop : ∀ {α β : Type} {e : EvalError} {y : Plain α} {g : α → Plain β},
    Rel (.error e : Except EvalError α) y → Rel (.error e : Except EvalError β) (y >>= g)
  /-- After a result comes what follows from it. -/
  go : ∀ {α β : Type} {a : α} {y : Plain α} {r : Except EvalError β} {g : α → Plain β},
    Rel (.ok a) y → Rel r (g a) → Rel r (y >>= g)

/-- Answers that raise no other errors than some; of the answer without a memory nothing is said. -/
def AnswerRelation.failsOnly (p : EvalError → Prop) : AnswerRelation where
  Rel r _ := FailsOnly p r
  may := p
  ok a := .ok a
  error he := .error he
  stop h := .error (h _ rfl)
  go _ h := h

namespace Simulation

/-- From every memory whose cache fulfils `I` the cache fulfils `I` in the end, and the answers are
related. -/
def withMemory (I : NameTable Series → Prop) (A : AnswerRelation) : Simulation Eval Plain where
  Rel x y := ∀ μ : Memory, I μ.cache → I (x.run.run μ).2.cache ∧ A.Rel (x.run.run μ).1 y
  may := A.may
  pure a _ hμ := ⟨hμ, A.ok a⟩
  raise he _ hμ := ⟨hμ, A.error he⟩
  overflow _ he _ hμ := ⟨hμ, A.error he⟩
  countBuiltin _ hμ := ⟨hμ, A.ok ()⟩
  bind := by
    intro α β x y f g h hf μ hμ
    obtain ⟨hkeeps, hrel⟩ := h μ hμ
    rw [run_bind]
    rcases hx : x.run.run μ with ⟨r, μ'⟩
    rw [hx] at hkeeps hrel
    cases r with
    | ok a =>
      obtain ⟨hkeeps', hrel'⟩ := hf a μ' hkeeps
      exact ⟨hkeeps', A.go hrel hrel'⟩
    | error e => exact ⟨hkeeps, A.stop hrel⟩

variable {I : NameTable Series → Prop} {A : AnswerRelation} {name : String} {a : Meaning Eval}
  {b : Meaning Plain}

/-- Remembered values may be used if they are related to what is answered without a memory. -/
theorem Matches.recalledOr (h : (withMemory I A).Matches a b)
    (hrecall : ∀ cache v, I cache → cache.find? name = some v →
      A.Rel (.ok v.shape) b.shape ∧
        ∀ selection, A.Rel (.ok (v.select selection)) (b.values selection)) :
    (withMemory I A).Matches (.recalledOr name a) (.recalledOr name b) := by
  rw [recalledOr_plain]
  refine ⟨fun μ hμ => ?_, fun selection μ hμ => ?_⟩
  · rw [run_shape_recalledOr, recalled]
    cases hfind : μ.cache.find? name with
    | some v => exact ⟨hμ, (hrecall μ.cache v hμ hfind).1⟩
    | none => exact h.shape μ hμ
  · rw [run_values_recalledOr, recalled]
    cases hfind : μ.cache.find? name with
    | some v => exact ⟨hμ, (hrecall μ.cache v hμ hfind).2 selection⟩
    | none => exact h.values selection μ hμ

/-- Values may be remembered if the property of the memory is kept. -/
theorem Matches.ofVariable (h : (withMemory I A).Matches a b)
    (hkeeps : ∀ selection (μ : Memory), I μ.cache →
      I (((Meaning.ofVariable name a).values selection).run.run μ).2.cache) :
    (withMemory I A).Matches (.ofVariable name a) (.ofVariable name b) := by
  rw [ofVariable_plain]
  refine ⟨h.shape, fun selection μ hμ => ⟨hkeeps selection μ hμ, ?_⟩⟩
  obtain ⟨-, hrel⟩ := h.values selection
    { μ with statementEvaluations := μ.statementEvaluations + 1 } hμ
  rw [run_values_ofVariable]
  rcases hrun : (a.values selection).run.run _ with ⟨r, μ'⟩
  rw [hrun] at hrel
  cases r with
  | ok v => exact hrel
  | error e => exact hrel

/-- Values may be remembered if the property is kept when they are. -/
theorem Matches.ofVariable_of_insert (h : (withMemory I A).Matches a b)
    (hinsert : ∀ cache v, I cache → A.Rel (.ok v) (b.values .all) → I (cache.insert name v)) :
    (withMemory I A).Matches (.ofVariable name a) (.ofVariable name b) := by
  refine h.ofVariable fun selection μ hμ => ?_
  obtain ⟨hkeeps, hrel⟩ := h.values selection
    { μ with statementEvaluations := μ.statementEvaluations + 1 } hμ
  rw [run_values_ofVariable]
  rcases hrun : (a.values selection).run.run _ with ⟨r, μ'⟩
  rw [hrun] at hkeeps hrel
  cases r with
  | error e => exact hkeeps
  | ok v =>
    cases selection with
    | all => exact hinsert μ'.cache v hkeeps hrel
    | «at» indices => exact hkeeps

end Simulation

end VectorScript
