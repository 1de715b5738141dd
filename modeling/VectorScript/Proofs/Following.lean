import VectorScript.Proofs.ForetellingNodes

/-!
# Answers with a memory, and answers without one

A computation with a memory follows a family of computations without one, under growing limits: an
answer that it gives from a memory with some property is the answer of the family in the long run,
unless it says that a limit was reached, and the property is kept.  What is followed holds under an
assumption only, and the property is kept without it.

* `Lasts`: an answer is that of a family in the long run, or a limit was reached.
* `GivesUnlessLimited`: an answer is a value, or a limit was reached.
* `Eval.Follows`, `Meaning.Follows`: computations and meanings that follow a family.
* `Meaning.Follows.after` and others: each kind of node follows if its parts do.
-/

namespace VectorScript

open Filter

/-- Whether an error says that a limit was reached. -/
def EvalError.isResource (e : EvalError) : Bool :=
  match e.cause with
  | .arrayTooLarge | .recursionLimit _ => true
  | _ => false

/-- From some limit on the answer is `x`, unless `x` says that a limit was reached. -/
def Lasts {α : Type} (x : Plain α) (y : Nat → Plain α) : Prop :=
  (∃ e, x = .error e ∧ e.isResource) ∨ ∀ᶠ n in atTop, y n = x

theorem Lasts.refl {α : Type} (x : Plain α) : Lasts x fun _ => x :=
  .inr (.of_forall fun _ => rfl)

theorem Lasts.congr {α : Type} {x : Plain α} {y y' : Nat → Plain α} (h : Lasts x y)
    (hy : ∀ᶠ n in atTop, y n = y' n) : Lasts x y' :=
  h.imp_right fun h => (h.and hy).mono fun _ hn => hn.2 ▸ hn.1

theorem Lasts.eventually_ok {α : Type} {a : α} {y : Nat → Plain α} (h : Lasts (.ok a) y) :
    ∀ᶠ n in atTop, y n = .ok a := by
  rcases h with ⟨e, he, -⟩ | h
  · cases he
  · exact h

/-- The answer is a value, unless it says that a limit was reached. -/
def GivesUnlessLimited {α : Type} (x : Plain α) (a : α) : Prop :=
  x = .ok a ∨ ∃ e, x = .error e ∧ e.isResource

theorem Lasts.givesUnlessLimited {α : Type} {x : Plain α} {a : α} {y : Nat → Plain α}
    (h : Lasts x y) (hy : ∀ᶠ n in atTop, y n = .ok a) : GivesUnlessLimited x a := by
  rcases h with hlimited | h
  · exact .inr hlimited
  · obtain ⟨n, hx, ha⟩ := (h.and hy).exists
    exact .inl (hx.symm.trans ha)

/-! ### Computations -/

section Computations

variable {α β γ : Type}

theorem run_bind (x : Eval α) (f : α → Eval β) (μ : Memory) :
    (x >>= f).run.run μ = match x.run.run μ with
      | (.ok a, μ') => (f a).run.run μ'
      | (.error e, μ') => (.error e, μ') := by
  rw [ExceptT.run_bind, StateT.run_bind]
  change (match x.run.run μ with | (r, μ') => _) = _
  rcases x.run.run μ with ⟨r, μ'⟩
  cases r <;> rfl

/-- From every memory whose cache fulfils `I` the cache fulfils `I` in the end, and if `safe` holds
the answer is that of the family. -/
structure Eval.Follows (I : NameTable Series → Prop) (safe : Prop) (x : Eval α)
    (y : Nat → Plain α) : Prop where
  keeps : ∀ μ : Memory, I μ.cache → I (x.run.run μ).2.cache
  lasts : safe → ∀ μ : Memory, I μ.cache → Lasts (x.run.run μ).1 y

variable {I : NameTable Series → Prop} {safe safe' : Prop}

namespace Eval.Follows

theorem weaken {x : Eval α} {y : Nat → Plain α} (h : Eval.Follows I safe x y)
    (hsafe : safe' → safe) : Eval.Follows I safe' x y :=
  ⟨h.keeps, fun hs => h.lasts (hsafe hs)⟩

theorem congr {x : Eval α} {y y' : Nat → Plain α} (h : Eval.Follows I safe x y)
    (hy : ∀ᶠ n in atTop, y n = y' n) : Eval.Follows I safe x y' :=
  ⟨h.keeps, fun hs μ hμ => (h.lasts hs μ hμ).congr hy⟩

theorem pure (a : α) : Eval.Follows I safe (pure a) fun _ => pure a :=
  ⟨fun _ h => h, fun _ _ _ => .refl _⟩

theorem raise (e : EvalError) :
    Eval.Follows I safe (Answering.raise e : Eval α) fun _ => .error e :=
  ⟨fun _ h => h, fun _ _ _ => .refl _⟩

theorem fail (site : Site) (cause : EvalError.Cause) :
    Eval.Follows I safe (Answering.fail site cause : Eval α) fun _ => Answering.fail site cause :=
  raise ⟨cause, site⟩

/-- An error that says that a limit was reached follows anything. -/
theorem fail_of_isResource {site : Site} {cause : EvalError.Cause}
    (h : EvalError.isResource ⟨cause, site⟩) (y : Nat → Plain α) :
    Eval.Follows I safe (Answering.fail site cause : Eval α) y :=
  ⟨fun _ h => h, fun _ _ _ => .inl ⟨_, rfl, h⟩⟩

theorem ofExcept {x : Plain α} {y : Nat → Plain α} (h : Lasts x y) :
    Eval.Follows I safe (Answering.ofExcept x : Eval α) fun n => Answering.ofExcept (y n) := by
  simp only [Answering.ofExcept_plain]
  cases x with
  | ok a => exact ⟨fun _ hμ => hμ, fun _ _ _ => h⟩
  | error e => exact ⟨fun _ hμ => hμ, fun _ _ _ => h⟩

theorem liftAt_of_lasts {site : Site} {x : Except EvalError.Cause α}
    {y : Nat → Except EvalError.Cause α}
    (h : (∃ cause, x = .error cause ∧ EvalError.isResource ⟨cause, site⟩) ∨
      ∀ᶠ n in atTop, y n = x) :
    Eval.Follows I safe (Answering.liftAt site x : Eval α) fun n =>
      Answering.liftAt site (y n) := by
  rcases h with ⟨cause, rfl, hres⟩ | h
  · exact fail_of_isResource hres _
  · refine congr (y := fun _ => Answering.liftAt site x) ?_ (h.mono fun n hn => by rw [hn])
    cases x with
    | ok a => exact pure a
    | error cause => exact fail site cause

theorem liftAt (site : Site) (x : Except EvalError.Cause α) :
    Eval.Follows I safe (Answering.liftAt site x : Eval α) fun _ => Answering.liftAt site x :=
  liftAt_of_lasts (.inr (.of_forall fun _ => rfl))

theorem count (site : Site) (n : Nat) :
    Eval.Follows I safe (Answering.count site n : Eval Nat) fun _ => Answering.count site n := by
  unfold Answering.count
  split_ifs
  · exact pure n
  · exact fail site (.fault .overflow)

theorem countBuiltin : Eval.Follows I safe (Answering.countBuiltin : Eval Unit) fun _ =>
    Answering.countBuiltin :=
  ⟨fun _ h => h, fun _ _ _ => .refl _⟩

theorem bind {x : Eval α} {y : Nat → Plain α} {f : α → Eval β} {g : Nat → α → Plain β}
    (h : Eval.Follows I safe x y) (hf : ∀ a, Eval.Follows I safe (f a) fun n => g n a) :
    Eval.Follows I safe (x >>= f) fun n => y n >>= g n where
  keeps μ hμ := by
    have hkeeps := h.keeps μ hμ
    rw [run_bind]
    rcases hx : x.run.run μ with ⟨r, μ'⟩
    rw [hx] at hkeeps
    cases r with
    | ok a => exact (hf a).keeps μ' hkeeps
    | error e => exact hkeeps
  lasts hs μ hμ := by
    have hkeeps := h.keeps μ hμ
    have hlasts := h.lasts hs μ hμ
    rw [run_bind]
    rcases hx : x.run.run μ with ⟨r, μ'⟩
    rw [hx] at hkeeps hlasts
    cases r with
    | ok a =>
      refine ((hf a).lasts hs μ' hkeeps).congr (hlasts.eventually_ok.mono fun n hn => ?_)
      rw [hn]
      rfl
    | error e =>
      rcases hlasts with ⟨e', he', hres⟩ | hlasts
      · cases he'
        exact .inl ⟨e, rfl, hres⟩
      · refine .inr (hlasts.mono fun n hn => ?_)
        show y n >>= g n = .error e
        rw [hn]
        rfl

theorem map {x : Eval α} {y : Nat → Plain α} (f : α → β) (h : Eval.Follows I safe x y) :
    Eval.Follows I safe (f <$> x) fun n => f <$> y n := by
  simp only [map_eq_pure_bind]
  exact h.bind fun a => pure (f a)

/-- What follows a list of computations sees as many results as there were computations. -/
theorem mapM_bind {ι : Type} {f : ι → Eval α} {F : Nat → ι → Plain α} :
    ∀ {items : List ι} {g : List α → Eval β} {G : Nat → List α → Plain β},
      (∀ i ∈ items, Eval.Follows I safe (f i) fun n => F n i) →
      (∀ as, as.length = items.length → Eval.Follows I safe (g as) fun n => G n as) →
      Eval.Follows I safe (items.mapM f >>= g) fun n => items.mapM (F n) >>= G n
  | [], g, G, _, hg => hg [] rfl
  | i :: items, g, G, h, hg => by
    simp only [List.mapM_cons, bind_assoc]
    exact (h i List.mem_cons_self).bind fun a =>
      mapM_bind (fun j hj => h j (List.mem_cons_of_mem _ hj)) fun as has =>
        hg (a :: as) (by simp [has])

theorem mapM {ι : Type} {items : List ι} {f : ι → Eval α} {F : Nat → ι → Plain α}
    (h : ∀ i ∈ items, Eval.Follows I safe (f i) fun n => F n i) :
    Eval.Follows I safe (items.mapM f) fun n => items.mapM (F n) := by
  have hbind := mapM_bind h fun as _ => pure as
  simpa only [bind_pure] using hbind

theorem foldlM {ι : Type} {f : α → ι → Eval α} {F : Nat → α → ι → Plain α} :
    ∀ {items : List ι} {a : α}, (∀ a, ∀ i ∈ items, Eval.Follows I safe (f a i) fun n => F n a i) →
      Eval.Follows I safe (items.foldlM f a) fun n => items.foldlM (F n) a
  | [], a, _ => pure a
  | i :: items, a, h => by
    simp only [List.foldlM_cons]
    exact (h a i List.mem_cons_self).bind fun b =>
      foldlM fun c j hj => h c j (List.mem_cons_of_mem _ hj)

end Eval.Follows

end Computations

/-! ### Meanings -/

namespace Meaning

/-- Every request follows the requests to the family. -/
structure Follows (I : NameTable Series → Prop) (safe : Prop) (m : Meaning Eval)
    (M : Nat → Meaning Plain) : Prop where
  shape : Eval.Follows I safe m.shape fun n => (M n).shape
  values : ∀ selection, Eval.Follows I safe (m.values selection) fun n =>
    (M n).values selection

namespace Follows

variable {I : NameTable Series → Prop} {safe safe' : Prop} {m m' : Meaning Eval}
  {M M' : Nat → Meaning Plain}

theorem weaken (h : Follows I safe m M) (hsafe : safe' → safe) : Follows I safe' m M :=
  ⟨h.shape.weaken hsafe, fun selection => (h.values selection).weaken hsafe⟩

theorem congr (h : Follows I safe m M) (hM : ∀ᶠ n in atTop, M n = M' n) : Follows I safe m M' :=
  ⟨h.shape.congr (hM.mono fun n hn => by rw [hn]),
    fun selection => (h.values selection).congr (hM.mono fun n hn => by rw [hn])⟩

theorem const (v : Series) : Follows I safe (.const v) fun _ => .const v :=
  ⟨.pure _, fun _ => .pure _⟩

theorem nan (s : Shape) : Follows I safe (.nan s) fun _ => .nan s :=
  ⟨.pure _, fun _ => .pure _⟩

theorem fail (site : Site) (cause : EvalError.Cause) :
    Follows I safe (.fail site cause) fun _ => .fail site cause :=
  ⟨.fail site cause, fun _ => .fail site cause⟩

theorem fail_of_isResource {site : Site} {cause : EvalError.Cause}
    (h : EvalError.isResource ⟨cause, site⟩) (M : Nat → Meaning Plain) :
    Follows I safe (.fail site cause) M :=
  ⟨.fail_of_isResource h _, fun _ => .fail_of_isResource h _⟩

theorem delay {f : Unit → Meaning Eval} {F : Nat → Unit → Meaning Plain}
    (h : Follows I safe (f ()) fun n => F n ()) :
    Follows I safe (.delay f) fun n => .delay (F n) :=
  ⟨.bind (.pure ()) fun _ => h.shape, fun selection => .bind (.pure ()) fun _ => h.values selection⟩

/-- A computation that finds a meaning, and the computations that find those of the family: whatever
is asked of them follows. -/
structure Finds (I : NameTable Series → Prop) (safe : Prop) (find : Eval (Meaning Eval))
    (Find : Nat → Plain (Meaning Plain)) : Prop where
  asked : ∀ {α : Type} {ask : Meaning Eval → Eval α} {Ask : Meaning Plain → Plain α},
    (∀ m M, Follows I safe m M → Eval.Follows I safe (ask m) fun n => Ask (M n)) →
      Eval.Follows I safe (find >>= ask) fun n => Find n >>= Ask

theorem Finds.pure (h : Follows I safe m M) : Finds I safe (pure m) fun n => pure (M n) :=
  ⟨fun hask => hask m M h⟩

theorem Finds.bind {α : Type} {x : Eval α} {y : Nat → Plain α} {f : α → Eval (Meaning Eval)}
    {g : Nat → α → Plain (Meaning Plain)} (h : Eval.Follows I safe x y)
    (hf : ∀ a, Finds I safe (f a) fun n => g n a) :
    Finds I safe (x >>= f) fun n => y n >>= g n := by
  refine ⟨fun hask => ?_⟩
  simp only [bind_assoc]
  exact h.bind fun a => (hf a).asked hask

theorem after {find : Eval (Meaning Eval)} {Find : Nat → Plain (Meaning Plain)}
    (h : Finds I safe find Find) : Follows I safe (.after find) fun n => .after (Find n) :=
  ⟨h.asked fun _ _ hm => hm.shape, fun selection => h.asked fun _ _ hm => hm.values selection⟩

end Follows

end Meaning

end VectorScript
