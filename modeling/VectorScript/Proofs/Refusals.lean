import VectorScript.Proofs.SimulationEvaluation
import VectorScript.Proofs.SuccessfulRuns

/-!
# Refusals

Careful evaluation refuses the only item of a literal if it is empty and has several components.
What it does not refuse it answers as evaluation does, and it leaves the same memory.

* `Refused`: a computation ends with a refusal.
* `Expr.careful_or_refused`: what is not refused is answered as always.
-/

namespace VectorScript

/-- From a memory, a computation ends with a refusal. -/
def Refused {α : Type} (x : Eval α) (μ : Memory) : Prop :=
  ∃ μ', x.run.run μ = (.error .refusal, μ')

theorem not_refused_of_ok {α : Type} {x : Eval α} {μ μ' : Memory} {a : α}
    (h : x.run.run μ = (.ok a, μ')) : ¬ Refused x μ := by
  rintro ⟨μ'', hx⟩
  cases h.symm.trans hx

theorem not_refused_of_answer {α : Type} {x : Eval α} {μ : Memory} {r : Except EvalError α}
    (h : (x.run.run μ).1 = r) (hr : r ≠ .error .refusal) : ¬ Refused x μ := by
  rintro ⟨μ', hx⟩
  rw [hx] at h
  exact hr h.symm

/-- What ends alike is refused alike. -/
theorem Refused.of_same_answer {α : Type} {x : Eval α} {μ μ' : Memory} (h : Refused x μ')
    (hsame : (x.run.run μ').1 = (x.run.run μ).1) : Refused x μ := by
  obtain ⟨ν, hν⟩ := h
  rw [hν] at hsame
  exact ⟨(x.run.run μ).2, Prod.ext hsame.symm rfl⟩

theorem SameUnless.or_refused {α : Type} {x y : Eval α} (h : SameUnless (· = .refusal) x y)
    (μ : Memory) : x.run.run μ = y.run.run μ ∨ Refused x μ := by
  refine (h μ).imp_right ?_
  rintro ⟨e, μ', rfl, hx⟩
  exact ⟨μ', hx⟩

theorem SameUnless.of_not_refused {α : Type} {x y : Eval α} (h : SameUnless (· = .refusal) x y)
    {μ : Memory} (hx : ¬ Refused x μ) : x.run.run μ = y.run.run μ :=
  (h.or_refused μ).resolve_right hx

namespace Simulation

/-- A simulation in which computations do the same or are refused. -/
def refusing : Simulation Eval Eval where
  Rel := SameUnless (· = .refusal)
  may _ := True
  pure _ _ := .inl rfl
  raise _ _ := .inl rfl
  overflow _ _ _ := .inl rfl
  countBuiltin _ := .inl rfl
  bind := SameUnless.bind

theorem sharesMemory_refusing : refusing.SharesMemory where
  countStatement _ := .inl rfl
  remember _ _ _ := .inl rfl
  remembered? _ _ := .inl rfl

/-- A check passes or is refused. -/
theorem refusing_check {α : Type} {x y : Eval α} {p : α → Prop} [DecidablePred p]
    (h : refusing.Rel x y) :
    refusing.Rel (x >>= fun a => if p a then Pure.pure a else Answering.raise .refusal) y := by
  rw [← bind_pure y]
  refine refusing.bind h fun a => ?_
  split_ifs
  · exact refusing.pure a
  · exact fun μ => .inr ⟨_, μ, rfl, rfl⟩

/-- Answers on one side may be refused. -/
theorem Matches.alone {a b : Meaning Eval} (h : refusing.Matches a b) :
    refusing.Matches a.alone b := by
  refine ⟨refusing_check (p := Shape.StandsAlone) h.shape, fun selection => ?_⟩
  cases selection with
  | all => exact refusing_check (p := fun v : Series => v.shape.StandsAlone) (h.values .all)
  | «at» indices => exact h.values (.at indices)

end Simulation

namespace Expr

open Simulation

variable {checks : Bool} {w : Setting}

/-- Careful evaluation answers as evaluation does, or refuses. -/
theorem careful_or_refused (ctx : Context) (e : Expr) :
    refusing.Matches (careful checks w ctx e) (e.meaning w ctx) := by
  induction ctx, e using induction_on_steps w with
  | h ctx e ih =>
    have hstep : ∀ {ctx' e'}, Leads w ctx e ctx' e' →
        refusing.Matches (e.checkedPart checks (careful checks w ctx' e')) (e'.meaning w ctx') := by
      intro ctx' e' hleads
      unfold checkedPart
      split_ifs
      · exact (ih ctx' e' hleads).alone
      · exact ih ctx' e' hleads
    rw [careful_eq, meaning_eq_meaningBy]
    refine matches_meaningBy (fun _ _ => trivial) (fun hleads => ⟨fun _ _ => trivial, hstep hleads⟩)
      fun name span he hfree => ?_
    subst he
    refine sharesMemory_refusing.recalledOr (matches_declaredBy (fun _ _ => trivial)
      (fun _ _ => trivial) fun hfind hkind hopen => sharesMemory_refusing.ofVariable ?_ name) name
    exact .delay (hstep (.reference hfree hfind hkind hopen))

end Expr

end VectorScript
