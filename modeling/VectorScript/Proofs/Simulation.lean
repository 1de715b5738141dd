import VectorScript.Meaning
import VectorScript.Proofs.Failing

/-!
# Simulations

Evaluation is compared between two ways of answering requests: with a memory and without one, or
with a memory and with nothing, where only one side is spoken of.  A simulation is a relation
between computations of the two kinds that sequencing keeps.  It says which errors may be raised, so
that a node keeps it if the node raises no other errors and its parts keep it.

* `Simulation`: a relation of computations, and the errors that may be raised.
* `Simulation.Allows`: at a site all errors may be raised but those of cycles.
* `Simulation.Matches`: two meanings whose answers are related.
-/

namespace VectorScript

/-- Whether a cause is that a variable depends on itself. -/
def EvalError.Cause.isCycle : EvalError.Cause → Bool
  | cyclicDefinition _ => true
  | _ => false

/-- A computation that does not fail because of a cycle. -/
abbrev NoCycle {α : Type} (x : Except EvalError.Cause α) : Prop :=
  FailsOnly (fun cause => cause.isCycle = false) x

/-- A relation between the computations of two kinds that sequencing keeps. -/
structure Simulation (m m' : Type → Type) [Answering m] [Answering m'] [LawfulMonad m]
    [LawfulMonad m'] where
  Rel : {α : Type} → m α → m' α → Prop
  /-- The errors that may be raised. -/
  may : EvalError → Prop
  pure : ∀ {α : Type} (a : α), Rel (Pure.pure a) (Pure.pure a)
  bind : ∀ {α β : Type} {x : m α} {y : m' α} {f : α → m β} {g : α → m' β},
    Rel x y → (∀ a, Rel (f a) (g a)) → Rel (x >>= f) (y >>= g)
  raise : ∀ {α : Type} {e : EvalError}, may e →
    Rel (Answering.raise e : m α) (Answering.raise e)
  overflow : ∀ {site : Site} (n : Nat), may ⟨.fault .overflow, site⟩ →
    Rel (Answering.overflow site n : m Nat) (Answering.overflow site n)
  countBuiltin : Rel (Answering.countBuiltin : m Unit) Answering.countBuiltin

namespace Simulation

variable {m m' : Type → Type} [Answering m] [Answering m'] [LawfulMonad m] [LawfulMonad m']
  {S : Simulation m m'} {α β : Type}

/-! ### Errors -/

/-- All errors may be raised at a site, apart from those of cycles. -/
def Allows (S : Simulation m m') (site : Site) : Prop :=
  ∀ cause : EvalError.Cause, cause.isCycle = false → S.may ⟨cause, site⟩

theorem fail {site : Site} (h : S.Allows site) {cause : EvalError.Cause}
    (hcause : cause.isCycle = false) :
    S.Rel (Answering.fail site cause : m α) (Answering.fail site cause) :=
  S.raise (h cause hcause)

theorem ofExcept {x : Except EvalError α} (h : FailsOnly S.may x) :
    S.Rel (Answering.ofExcept x : m α) (Answering.ofExcept x) := by
  cases x with
  | ok a => exact S.pure a
  | error e => exact S.raise (h e rfl)

theorem liftAt {site : Site} (hsite : S.Allows site) {x : Except EvalError.Cause α}
    (hx : NoCycle x) : S.Rel (Answering.liftAt site x : m α) (Answering.liftAt site x) := by
  cases x with
  | ok a => exact S.pure a
  | error cause => exact fail hsite (hx cause rfl)

theorem count {site : Site} (hsite : S.Allows site) (n : Nat) :
    S.Rel (Answering.count site n : m Nat) (Answering.count site n) := by
  unfold Answering.count
  split_ifs
  · exact S.pure n
  · exact S.overflow n (hsite _ rfl)

/-! ### Lists of computations -/

theorem map {x : m α} {y : m' α} (f : α → β) (h : S.Rel x y) :
    S.Rel (f <$> x) (f <$> y) := by
  simp only [map_eq_pure_bind]
  exact S.bind h fun a => S.pure (f a)

/-- What follows a list of computations sees as many results as there were computations. -/
theorem mapM_bind {ι : Type} {f : ι → m α} {g : ι → m' α} :
    ∀ {items : List ι} {k : List α → m β} {k' : List α → m' β},
      (∀ i ∈ items, S.Rel (f i) (g i)) →
      (∀ as, as.length = items.length → S.Rel (k as) (k' as)) →
      S.Rel (items.mapM f >>= k) (items.mapM g >>= k')
  | [], k, k', _, hk => by
    simp only [List.mapM_nil, pure_bind]
    exact hk [] rfl
  | i :: items, k, k', h, hk => by
    simp only [List.mapM_cons, bind_assoc, pure_bind]
    refine S.bind (h i List.mem_cons_self) fun a => ?_
    exact mapM_bind (fun j hj => h j (List.mem_cons_of_mem _ hj)) fun as has =>
      hk (a :: as) (by simp [has])

theorem mapM {ι : Type} {items : List ι} {f : ι → m α} {g : ι → m' α}
    (h : ∀ i ∈ items, S.Rel (f i) (g i)) : S.Rel (items.mapM f) (items.mapM g) := by
  have hbind := mapM_bind h fun as _ => S.pure as
  simpa only [bind_pure] using hbind

theorem foldlM {ι : Type} {f : α → ι → m α} {g : α → ι → m' α} :
    ∀ {items : List ι} {a : α}, (∀ a, ∀ i ∈ items, S.Rel (f a i) (g a i)) →
      S.Rel (items.foldlM f a) (items.foldlM g a)
  | [], a, _ => S.pure a
  | i :: items, a, h => by
    simp only [List.foldlM_cons]
    exact S.bind (h a i List.mem_cons_self) fun b =>
      foldlM fun c j hj => h c j (List.mem_cons_of_mem _ hj)

/-! ### Meanings -/

/-- The answers of two meanings are related. -/
structure Matches (S : Simulation m m') (a : Meaning m) (b : Meaning m') : Prop where
  shape : S.Rel a.shape b.shape
  values : ∀ selection, S.Rel (a.values selection) (b.values selection)

namespace Matches

theorem const (v : Series) : S.Matches (.const v) (.const v) :=
  ⟨S.pure _, fun _ => S.pure _⟩

theorem nan (s : Shape) : S.Matches (.nan s) (.nan s) :=
  ⟨S.pure _, fun _ => S.pure _⟩

theorem default : S.Matches Inhabited.default Inhabited.default :=
  ⟨S.pure _, fun _ => S.pure _⟩

theorem fail {site : Site} (h : S.Allows site) {cause : EvalError.Cause}
    (hcause : cause.isCycle = false) : S.Matches (.fail site cause) (.fail site cause) :=
  ⟨Simulation.fail h hcause, fun _ => Simulation.fail h hcause⟩

theorem delay {f : Unit → Meaning m} {g : Unit → Meaning m'} (h : S.Matches (f ()) (g ())) :
    S.Matches (.delay f) (.delay g) :=
  ⟨S.bind (S.pure ()) fun _ => h.shape, fun selection => S.bind (S.pure ()) fun _ =>
    h.values selection⟩

end Matches

/-- Two computations find meanings, and whatever is asked of these is related. -/
structure Finds (S : Simulation m m') (find : m (Meaning m)) (find' : m' (Meaning m')) :
    Prop where
  asked : ∀ {α : Type} {ask : Meaning m → m α} {ask' : Meaning m' → m' α},
    (∀ a b, S.Matches a b → S.Rel (ask a) (ask' b)) → S.Rel (find >>= ask) (find' >>= ask')

theorem Finds.pure {a : Meaning m} {b : Meaning m'} (h : S.Matches a b) :
    S.Finds (Pure.pure a) (Pure.pure b) := by
  refine ⟨fun hask => ?_⟩
  simp only [pure_bind]
  exact hask a b h

theorem Finds.bind {x : m α} {y : m' α} {f : α → m (Meaning m)} {g : α → m' (Meaning m')}
    (h : S.Rel x y) (hf : ∀ a, S.Finds (f a) (g a)) : S.Finds (x >>= f) (y >>= g) := by
  refine ⟨fun hask => ?_⟩
  simp only [bind_assoc]
  exact S.bind h fun a => (hf a).asked hask

theorem Matches.after {find : m (Meaning m)} {find' : m' (Meaning m')} (h : S.Finds find find') :
    S.Matches (.after find) (.after find') :=
  ⟨h.asked fun _ _ hm => hm.shape, fun selection => h.asked fun _ _ hm => hm.values selection⟩

end Simulation

end VectorScript
