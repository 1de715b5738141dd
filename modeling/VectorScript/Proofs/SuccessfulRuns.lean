import VectorScript.Proofs.Following

/-!
# Runs that succeed

A computation with a memory that ends with an answer went through answers of its parts, each from
the memory that the part before it left.

* `run_bind_eq_ok`: a sequence of two computations succeeds if both do.
* `SameUnless`: two computations that do the same unless the first one stops.
* `run_foldlM_induction`: what every round of a loop keeps holds in the end.
* `run_foldlM_rounds`: every round of a loop succeeds from some memory.
* `run_mapM_length`: a list of computations gives as many answers.
-/

namespace VectorScript

variable {α β : Type} {x : Eval α} {μ μ' : Memory} {a : α} {b : β}

theorem run_bind_eq_ok {f : α → Eval β} : (x >>= f).run.run μ = (.ok b, μ') ↔
    ∃ a μ₁, x.run.run μ = (.ok a, μ₁) ∧ (f a).run.run μ₁ = (.ok b, μ') := by
  rw [run_bind]
  rcases hx : x.run.run μ with ⟨r, μ₁⟩
  cases r with
  | ok a =>
    constructor
    · intro h
      exact ⟨a, μ₁, rfl, h⟩
    · rintro ⟨a', μ₂, heq, h⟩
      cases heq
      exact h
  | error e =>
    constructor
    · intro h
      cases h
    · rintro ⟨a, μ₂, heq, -⟩
      cases heq

/-- From every memory a computation does the same as another one, or it stops with an error of some
kind. -/
def SameUnless (stops : EvalError → Prop) (x y : Eval α) : Prop :=
  ∀ μ, x.run.run μ = y.run.run μ ∨ ∃ e μ', stops e ∧ x.run.run μ = (.error e, μ')

theorem SameUnless.bind {stops : EvalError → Prop} {y : Eval α} {f g : α → Eval β}
    (h : SameUnless stops x y) (hf : ∀ a, SameUnless stops (f a) (g a)) :
    SameUnless stops (x >>= f) (y >>= g) := by
  intro μ
  rcases h μ with hx | ⟨e, μ', he, hx⟩
  · rw [run_bind, run_bind, hx]
    rcases hy : y.run.run μ with ⟨r, μ'⟩
    cases r with
    | error e => exact .inl rfl
    | ok a => exact hf a μ'
  · exact .inr ⟨e, μ', he, by rw [run_bind, hx]⟩

theorem run_pure_eq_ok {c : α} :
    (pure a : Eval α).run.run μ = (.ok c, μ') ↔ a = c ∧ μ = μ' := by
  change ((.ok a, μ) : Except EvalError α × Memory) = (.ok c, μ') ↔ _
  simp

theorem run_map_eq_ok {f : α → β} : (f <$> x).run.run μ = (.ok b, μ') ↔
    ∃ a, x.run.run μ = (.ok a, μ') ∧ f a = b := by
  rw [map_eq_pure_bind, run_bind_eq_ok]
  simp only [run_pure_eq_ok]
  constructor
  · rintro ⟨a, μ₁, hx, hb, rfl⟩
    exact ⟨a, hx, hb⟩
  · rintro ⟨a, hx, hb⟩
    exact ⟨a, μ', hx, hb, rfl⟩

theorem run_ofExcept_eq_ok {y : Except EvalError α} :
    (Answering.ofExcept y : Eval α).run.run μ = (.ok a, μ') ↔ y = .ok a ∧ μ = μ' := by
  cases y with
  | ok c => exact run_pure_eq_ok.trans (by simp)
  | error e =>
    change ((.error e, μ) : Except EvalError α × Memory) = (.ok a, μ') ↔ _
    simp

theorem run_liftAt_eq_ok {site : Site} {y : Except EvalError.Cause α} :
    (Answering.liftAt site y : Eval α).run.run μ = (.ok a, μ') ↔ y = .ok a ∧ μ = μ' := by
  cases y with
  | ok c => exact run_pure_eq_ok.trans (by simp)
  | error cause =>
    change ((.error ⟨cause, site⟩, μ) : Except EvalError α × Memory) = (.ok a, μ') ↔ _
    simp

theorem run_count_eq_ok {site : Site} {n k : Nat} :
    (Answering.count site n : Eval Nat).run.run μ = (.ok k, μ') ↔
      n ≤ maxLength ∧ n = k ∧ μ = μ' := by
  unfold Answering.count
  split_ifs with h
  · rw [run_pure_eq_ok]
    simp [h]
  · change ((.error ⟨.fault .overflow, site⟩, μ) : Except EvalError Nat × Memory) = (.ok k, μ') ↔ _
    simp [h]

theorem run_fail_ne_ok {site : Site} {cause : EvalError.Cause} :
    (Answering.fail site cause : Eval α).run.run μ ≠ (.ok a, μ') := by
  change ((.error ⟨cause, site⟩, μ) : Except EvalError α × Memory) ≠ (.ok a, μ')
  simp

/-- A check lets the rest run if what it looks for is not there. -/
theorem run_check_eq_ok {c : Prop} [Decidable c] {site : Site} {cause : EvalError.Cause}
    {f : Unit → Eval α} {y : Eval α} :
    (if c then Answering.fail site cause >>= f else y).run.run μ = (.ok a, μ') ↔
      ¬ c ∧ y.run.run μ = (.ok a, μ') := by
  by_cases hc : c
  · simp only [hc, if_true, not_true_eq_false, false_and, iff_false]
    intro h
    obtain ⟨_, _, hfail, -⟩ := run_bind_eq_ok.mp h
    exact run_fail_ne_ok hfail
  · simp [hc]

/-! ### Loops and lists -/

/-- What every round of a loop keeps holds in the end. -/
theorem run_foldlM_induction {f : β → α → Eval β} {I : β → Prop}
    (hstep : ∀ {b a μ b' μ'}, I b → (f b a).run.run μ = (.ok b', μ') → I b') :
    ∀ {xs : List α} {b b' : β} {μ μ' : Memory}, I b →
      (xs.foldlM f b).run.run μ = (.ok b', μ') → I b'
  | [], b, b', μ, μ', hb, h => by
    obtain ⟨rfl, -⟩ := run_pure_eq_ok.mp h
    exact hb
  | a :: xs, b, b', μ, μ', hb, h => by
    rw [List.foldlM_cons] at h
    obtain ⟨b₁, μ₁, hround, hrest⟩ := run_bind_eq_ok.mp h
    exact run_foldlM_induction hstep (hstep hb hround) hrest

/-- What two computations keep, they keep one after the other. -/
theorem keeps_bind {I : NameTable Series → Prop} {f : α → Eval β}
    (hx : ∀ μ : Memory, I μ.cache → I (x.run.run μ).2.cache)
    (hf : ∀ (a : α) (μ : Memory), I μ.cache → I ((f a).run.run μ).2.cache) (μ : Memory)
    (hμ : I μ.cache) : I ((x >>= f).run.run μ).2.cache := by
  have hkept := hx μ hμ
  rw [run_bind]
  rcases hrun : x.run.run μ with ⟨r, μ₁⟩
  rw [hrun] at hkept
  cases r with
  | ok a => exact hf a μ₁ hkept
  | error e => exact hkept

/-- Every round of a loop that succeeds was run from a memory that all rounds keep. -/
theorem run_foldlM_rounds {f : β → α → Eval β} {I : NameTable Series → Prop}
    (hkeeps : ∀ b a μ, I μ.cache → I ((f b a).run.run μ).2.cache) :
    ∀ {xs : List α} {b b' : β} {μ μ' : Memory}, I μ.cache →
      (xs.foldlM f b).run.run μ = (.ok b', μ') →
      ∀ a ∈ xs, ∃ b₁ b₂ μ₁ μ₂, I μ₁.cache ∧ (f b₁ a).run.run μ₁ = (.ok b₂, μ₂)
  | [], _, _, _, _, _, _, _, ha => absurd ha List.not_mem_nil
  | x :: xs, b, b', μ, μ', hμ, h, a, ha => by
    rw [List.foldlM_cons] at h
    obtain ⟨b₁, μ₁, hround, hrest⟩ := run_bind_eq_ok.mp h
    have hμ₁ := hkeeps b x μ hμ
    rw [hround] at hμ₁
    rcases List.mem_cons.mp ha with rfl | ha
    · exact ⟨b, b₁, μ, μ₁, hμ, hround⟩
    · exact run_foldlM_rounds hkeeps hμ₁ hrest a ha

theorem run_mapM_length {f : α → Eval β} : ∀ {xs : List α} {ys : List β} {μ μ' : Memory},
    (xs.mapM f).run.run μ = (.ok ys, μ') → ys.length = xs.length
  | [], ys, μ, μ', h => by
    obtain ⟨rfl, -⟩ := run_pure_eq_ok.mp h
    rfl
  | x :: xs, ys, μ, μ', h => by
    rw [List.mapM_cons] at h
    obtain ⟨y, μ₁, -, h⟩ := run_bind_eq_ok.mp h
    obtain ⟨rest, μ₂, hrest, h⟩ := run_bind_eq_ok.mp h
    obtain ⟨rfl, -⟩ := run_pure_eq_ok.mp h
    rw [List.length_cons, List.length_cons, run_mapM_length hrest]

end VectorScript
