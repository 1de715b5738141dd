import VectorScript.Proofs.SimulationMemory

/-!
# What an evaluation remembers

An evaluation adds variables to the memory.  If all of them may be remembered, it runs as it does
under the guard; if not, it is refused there.  A memory is closed if its values are found again by
evaluations that remember nothing new.  Every evaluation leaves a closed memory closed: a value is
remembered after all that was remembered for it.

* `Simulation.guard`: evaluation under a guard is evaluation, or it is refused.
* `Setting.Closed`: memories whose values need nothing that is not remembered.
* `Setting.Closed.run`: what follows evaluation under every guard keeps memories closed.
-/

namespace VectorScript

open Filter Meaning

/-! ### Evaluation and guarded evaluation -/

variable {K : String → Bool}

/-- All values of a variable that may not be remembered are found and then refused. -/
theorem Meaning.run_values_all_of_refused {name : String} (hK : K name = false) (a : Meaning Eval)
    (μ : Memory) : ((ofGuarded K name a).values .all).run.run μ =
      match (a.values .all).run.run
        { μ with statementEvaluations := μ.statementEvaluations + 1 } with
      | (.ok _, μ') => (.error .refusal, μ')
      | (.error e, μ') => (.error e, μ') := by
  have hcount : (Answering.countStatement : Eval Unit).run.run μ =
      (.ok (), { μ with statementEvaluations := μ.statementEvaluations + 1 }) := rfl
  show ((Answering.countStatement >>= fun _ => a.values .all >>= fun v =>
    (bif K name then _ else _) >>= _) : Eval Series).run.run μ = _
  rw [run_bind, hcount, hK]
  simp only [run_bind]
  rcases (a.values .all).run.run _ with ⟨r, μ'⟩
  cases r <;> rfl

theorem Meaning.run_values_all_ofGuarded_of_error {name : String} {a : Meaning Eval} {μ μ' : Memory}
    {e : EvalError} (h : (a.values .all).run.run
      { μ with statementEvaluations := μ.statementEvaluations + 1 } = (.error e, μ'))
    (K : String → Bool) : ((ofGuarded K name a).values .all).run.run μ = (.error e, μ') := by
  cases hK : K name with
  | true => rw [ofGuarded_of_allowed hK, run_values_ofVariable, h]
  | false => rw [run_values_all_of_refused hK, h]

/-- Evaluation never forgets.  Under a guard it runs as without one and keeps within the guard, or
it is refused, and then it would have left the guard. -/
def Simulation.guard (K : String → Bool) : Simulation Eval (Guarded K Eval) where
  Rel {α} (x : Eval α) (y : Eval α) := ∀ μ : Memory,
    (∀ name, μ.cache.contains name → (x.run.run μ).2.cache.contains name) ∧
      (y.run.run μ = x.run.run μ ∧ (μ.cache.Within K → (x.run.run μ).2.cache.Within K) ∨
        (y.run.run μ).1 = .error .refusal ∧ ¬ (x.run.run μ).2.cache.Within K)
  may _ := True
  pure a μ := ⟨fun _ h => h, .inl ⟨rfl, fun h => h⟩⟩
  raise _ μ := ⟨fun _ h => h, .inl ⟨rfl, fun h => h⟩⟩
  overflow _ _ μ := ⟨fun _ h => h, .inl ⟨rfl, fun h => h⟩⟩
  countBuiltin μ := ⟨fun _ h => h, .inl ⟨rfl, fun h => h⟩⟩
  bind := by
    intro α β (x : Eval α) (y : Eval α) (f : α → Eval β) (g : α → Eval β) h hf μ
    obtain ⟨hgrows, hrun⟩ := h μ
    show _ ∧ ((y >>= g : Eval β).run.run μ = _ ∧ _ ∨ ((y >>= g : Eval β).run.run μ).1 = _ ∧ _)
    simp only [run_bind]
    rcases hx : x.run.run μ with ⟨r, μ'⟩
    rw [hx] at hgrows hrun
    cases r with
    | error e =>
      refine ⟨hgrows, ?_⟩
      rcases hrun with ⟨hsame, hwithin⟩ | ⟨hrefused, hleft⟩
      · exact .inl ⟨by rw [hsame], hwithin⟩
      · rcases hy : y.run.run μ with ⟨r', μ''⟩
        rw [hy] at hrefused
        cases hrefused
        exact .inr ⟨rfl, hleft⟩
    | ok a =>
      obtain ⟨hgrows', hrun'⟩ := hf a μ'
      refine ⟨fun name hname => hgrows' name (hgrows name hname), ?_⟩
      rcases hrun with ⟨hsame, hwithin⟩ | ⟨hrefused, hleft⟩
      · rw [hsame]
        exact hrun'.imp_left fun hrun' => ⟨hrun'.1, fun hμ => hrun'.2 (hwithin hμ)⟩
      · rcases hy : y.run.run μ with ⟨r', μ''⟩
        rw [hy] at hrefused
        cases hrefused
        exact .inr ⟨rfl, fun hend => hleft fun name hname => hend name (hgrows' name hname)⟩

namespace Simulation

variable {name : String} {a : Meaning Eval} {b : Meaning (Guarded K Eval)}

/-- A variable is looked up in the same memory. -/
theorem guard_recalledOr (h : (guard K).Matches a b) :
    (guard K).Matches (.recalledOr name a) (.recalledOr name b) := by
  refine ⟨fun μ => ?_, fun selection μ => ?_⟩
  · have hrun : ((recalledOr name b).shape : Eval Shape).run.run μ = _ :=
      run_shape_recalledOr name (b : Meaning Eval) μ
    rw [hrun, run_shape_recalledOr]
    unfold recalled
    cases μ.cache.find? name with
    | some v => exact ⟨fun _ h => h, .inl ⟨rfl, fun h => h⟩⟩
    | none => exact h.shape μ
  · have hrun : ((recalledOr name b).values selection : Eval Series).run.run μ = _ :=
      run_values_recalledOr name (b : Meaning Eval) selection μ
    rw [hrun, run_values_recalledOr]
    unfold recalled
    cases μ.cache.find? name with
    | some v => exact ⟨fun _ h => h, .inl ⟨rfl, fun h => h⟩⟩
    | none => exact h.values selection μ

/-- A variable is remembered without the guard, and under it if it may be. -/
theorem guard_ofVariable {b : Meaning Eval} (h : (guard K).Matches a b) :
    (guard K).Matches (.ofVariable name a) (.ofGuarded (m := Eval) K name b) := by
  refine ⟨h.shape, fun selection μ => ?_⟩
  obtain ⟨hgrows, hrun⟩ := h.values selection
    { μ with statementEvaluations := μ.statementEvaluations + 1 }
  rw [run_values_ofVariable]
  rcases hx : (a.values selection).run.run _ with ⟨r, μ'⟩
  rcases hy : (b.values selection).run.run
    { μ with statementEvaluations := μ.statementEvaluations + 1 } with ⟨r', μ''⟩
  rw [hx] at hgrows hrun
  rw [hy] at hrun
  cases selection with
  | «at» indices =>
    -- elements alone are not remembered
    have hvalues : (ofGuarded K name b).values (.at indices) =
        (ofVariable name b).values (.at indices) := rfl
    rw [hvalues, run_values_ofVariable, hy]
    cases r <;> cases r' <;> exact ⟨hgrows, hrun⟩
  | all =>
    cases r with
    | error e =>
      refine ⟨hgrows, ?_⟩
      rcases hrun with ⟨hsame, hwithin⟩ | ⟨hrefused, hleft⟩
      · cases hsame
        exact .inl ⟨run_values_all_ofGuarded_of_error hy K, hwithin⟩
      · cases hrefused
        exact .inr ⟨congrArg Prod.fst (run_values_all_ofGuarded_of_error hy K), hleft⟩
    | ok v =>
      refine ⟨fun other hother => NameTable.contains_insert_of_contains (hgrows other hother), ?_⟩
      rcases hrun with ⟨hsame, hwithin⟩ | ⟨hrefused, hleft⟩
      · cases hsame
        cases hK : K name with
        | true =>
          rw [ofGuarded_of_allowed hK, run_values_ofVariable, hy]
          exact .inl ⟨rfl, fun hμ => NameTable.within_insert (hwithin hμ) hK⟩
        | false =>
          rw [run_values_all_of_refused hK, hy]
          refine .inr ⟨rfl, fun hend => ?_⟩
          have hname : K name := hend name (NameTable.contains_insert_self μ'.cache name v)
          rw [hK] at hname
          cases hname
      · cases hrefused
        refine .inr ⟨congrArg Prod.fst (run_values_all_ofGuarded_of_error hy K), fun hend => ?_⟩
        exact hleft fun other hother => hend other (NameTable.contains_insert_of_contains hother)

/-- Every careful evaluation runs under the guard as without it, or is refused. -/
theorem carries_guard (checks : Bool) (K : String → Bool) (w : Setting) :
    (guard K).CarriesBy w (Expr.careful checks w) (Expr.careful checks w) fun _ _ => True where
  step _ _ := trivial
  site _ _ _ := trivial
  reopen _ _ _ _ := trivial
  remember _ _ _ _ _ hbody := guard_ofVariable hbody
  recalled _ _ hdeclared := guard_recalledOr hdeclared

theorem guard_matches (checks : Bool) (K : String → Bool) (w : Setting) (ctx : Context) (e : Expr) :
    (guard K).Matches (e.careful checks w ctx) (e.guarded (m := Eval) checks K w ctx) :=
  (carries_guard checks K w).matches_careful (fun _ => trivial) ctx e trivial

theorem guard_matches_variable (checks : Bool) (K : String → Bool) (w : Setting) (ctx : Context)
    (name : String) (body : Expr) :
    (guard K).Matches (.ofVariable name (.delay fun _ => body.careful checks w ctx))
      (.ofGuarded (m := Eval) K name (.delay fun _ => body.guarded checks K w ctx)) := by
  refine guard_ofVariable ?_
  show (guard K).Matches _ (.delay (m := Guarded K Eval) fun _ => body.careful checks w ctx)
  exact .delay (guard_matches checks K w ctx body)

end Simulation

/-! ### Closed memories -/

namespace Setting

variable {filters : Bool} {w : Setting} {cache : NameTable Series}

/-- Every remembered value is found by careful evaluations that remember no other variables than
those that are remembered. -/
def Closed (filters : Bool) (w : Setting) (cache : NameTable Series) : Prop :=
  ∀ K, cache.Within K → w.CoherentUnder filters K cache

theorem closed_empty (filters : Bool) (w : Setting) : w.Closed filters .empty := nofun

/-- A computation that follows guarded evaluation under every guard leaves a closed memory closed:
under a guard that lets all pass that it leaves, it runs as it does. -/
theorem Closed.run {α : Type} {x : Eval α} {y : (K : String → Bool) → Eval α}
    {Y : (K : String → Bool) → Nat → Plain α} {safe : Prop}
    (hguard : ∀ K, (Simulation.guard K).Rel x (y K))
    (hfollows : ∀ K, Eval.Follows (w.CoherentUnder filters K) safe (y K) (Y K)) {μ : Memory}
    (h : w.Closed filters μ.cache) : w.Closed filters (x.run.run μ).2.cache := by
  intro K hK
  obtain ⟨hgrows, ⟨hsame, -⟩ | ⟨-, hleft⟩⟩ := hguard K μ
  · have hkeeps := (hfollows K).keeps μ (h K fun name hname => hK name (hgrows name hname))
    rwa [hsame] at hkeeps
  · exact absurd hK hleft

end Setting

end VectorScript
