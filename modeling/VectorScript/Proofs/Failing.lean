import Mathlib.Data.List.Forall2
import Mathlib.Tactic.Common

/-!
# Computations that may fail

When a sequence of computations in `Except` succeeds, and what then is known of each of them.  A
loop that computes something in each round and puts it to what it has is the same as computing all
of it first (`foldlM_bind_eq_ok`).  When it fails, its errors are those of its parts (`FailsOnly`).
-/

namespace VectorScript

variable {ε α β γ : Type}

theorem bind_eq_ok {x : Except ε α} {f : α → Except ε β} {b : β} :
    x >>= f = .ok b ↔ ∃ a, x = .ok a ∧ f a = .ok b := by
  cases x with
  | error e => simp [bind, Except.bind]
  | ok a => simp [bind, Except.bind]

theorem map_eq_ok {x : Except ε α} {f : α → β} {b : β} :
    f <$> x = .ok b ↔ ∃ a, x = .ok a ∧ f a = b := by
  cases x with
  | error e => simp [Functor.map, Except.map]
  | ok a => simp [Functor.map, Except.map]

theorem mapError_eq_ok {ε' : Type} {x : Except ε α} {f : ε → ε'} {a : α} :
    x.mapError f = .ok a ↔ x = .ok a := by
  cases x <;> simp [Except.mapError]

theorem pure_eq_ok {a b : α} : (pure a : Except ε α) = .ok b ↔ a = b := by
  simp [pure, Except.pure]

@[simp] theorem ok_bind {a : α} {f : α → Except ε β} : (Except.ok a >>= f) = f a := rfl

@[simp] theorem error_bind {e : ε} {f : α → Except ε β} : (Except.error e >>= f) = .error e := rfl

/-! ### Lists -/

theorem mapM_eq_ok {f : α → Except ε β} :
    ∀ {xs : List α} {ys : List β},
      xs.mapM f = .ok ys ↔ List.Forall₂ (fun x y => f x = .ok y) xs ys
  | [], ys => by
    rw [List.mapM_nil, pure_eq_ok, List.forall₂_nil_left_iff, eq_comm]
  | x :: xs, ys => by
    rw [List.mapM_cons, bind_eq_ok, List.forall₂_cons_left_iff]
    constructor
    · rintro ⟨y, hy, h⟩
      obtain ⟨rest, hrest, h⟩ := bind_eq_ok.mp h
      exact ⟨y, rest, hy, mapM_eq_ok.mp hrest, (pure_eq_ok.mp h).symm⟩
    · rintro ⟨y, rest, hy, hrest, rfl⟩
      exact ⟨y, hy, bind_eq_ok.mpr ⟨rest, mapM_eq_ok.mpr hrest, rfl⟩⟩

/-- All computations of a list succeed: what they give is a function of the entries. -/
theorem mapM_map_eq_ok {ι : Type} [Inhabited β] {f : ι → α} {g : α → Except ε β} {xs : List ι}
    {ys : List β} : (xs.map f).mapM g = .ok ys ↔
      ∃ v : ι → β, ys = xs.map v ∧ ∀ x ∈ xs, g (f x) = .ok (v x) := by
  rw [mapM_eq_ok, List.forall₂_map_left_iff]
  constructor
  · intro h
    refine ⟨fun x => (g (f x)).toOption.getD default, ?_, ?_⟩
    · induction h with
      | nil => rfl
      | cons hxy _ ih => rw [List.map_cons, ← ih, hxy]; rfl
    · induction h with
      | nil => simp
      | cons hxy _ ih => exact List.forall_mem_cons.mpr ⟨by simp [hxy, Except.toOption], ih⟩
  · rintro ⟨v, rfl, hv⟩
    rw [List.forall₂_map_right_iff]
    exact List.forall₂_same.mpr hv

theorem mapM_eq_ok_map [Inhabited β] {g : α → Except ε β} {xs : List α} {ys : List β} :
    xs.mapM g = .ok ys ↔ ∃ v : α → β, ys = xs.map v ∧ ∀ x ∈ xs, g x = .ok (v x) := by
  have h : (xs.map id).mapM g = .ok ys ↔ _ := mapM_map_eq_ok
  rwa [List.map_id] at h

/-- What follows a list of computations sees as many results as there were computations. -/
theorem mapM_bind_congr {m : Type → Type} [Monad m] [LawfulMonad m] {f : α → m β} :
    ∀ {xs : List α} {g g' : List β → m γ}, (∀ ys, ys.length = xs.length → g ys = g' ys) →
      xs.mapM f >>= g = xs.mapM f >>= g'
  | [], g, g', h => by
    simp only [List.mapM_nil, pure_bind]
    exact h [] rfl
  | x :: xs, g, g', h => by
    simp only [List.mapM_cons, bind_assoc, pure_bind]
    congr 1
    funext y
    exact mapM_bind_congr fun ys hys => h (y :: ys) (by simp [hys])

/-- A loop succeeds if all that it computes succeeds and can be put together. -/
theorem foldlM_bind_eq_ok {f : α → Except ε β} {g : γ → β → Except ε γ} :
    ∀ {xs : List α} {c d : γ}, xs.foldlM (fun c x => f x >>= g c) c = .ok d ↔
      ∃ ys, xs.mapM f = .ok ys ∧ ys.foldlM g c = .ok d
  | [], c, d => by
    rw [List.foldlM_nil, pure_eq_ok]
    constructor
    · rintro rfl
      exact ⟨[], rfl, rfl⟩
    · rintro ⟨ys, hys, h⟩
      obtain rfl : [] = ys := pure_eq_ok.mp hys
      exact pure_eq_ok.mp h
  | x :: xs, c, d => by
    rw [List.foldlM_cons, bind_eq_ok]
    constructor
    · rintro ⟨c', hc', h⟩
      obtain ⟨y, hy, hg⟩ := bind_eq_ok.mp hc'
      obtain ⟨ys, hys, hfold⟩ := foldlM_bind_eq_ok.mp h
      refine ⟨y :: ys, mapM_eq_ok.mpr (.cons hy (mapM_eq_ok.mp hys)), ?_⟩
      rw [List.foldlM_cons, bind_eq_ok]
      exact ⟨c', hg, hfold⟩
    · rintro ⟨ys, hys, hfold⟩
      obtain ⟨y, rest, hy, hrest, rfl⟩ := List.forall₂_cons_left_iff.mp (mapM_eq_ok.mp hys)
      rw [List.foldlM_cons, bind_eq_ok] at hfold
      obtain ⟨c', hg, hfold⟩ := hfold
      exact ⟨c', bind_eq_ok.mpr ⟨y, hy, hg⟩,
        foldlM_bind_eq_ok.mpr ⟨rest, mapM_eq_ok.mpr hrest, hfold⟩⟩

/-- A loop that fails does so in one of its rounds. -/
theorem foldlM_eq_error {g : γ → α → Except ε γ} {e : ε} :
    ∀ {xs : List α} {c : γ}, xs.foldlM g c = .error e → ∃ x ∈ xs, ∃ c', g c' x = .error e
  | [], c, h => by cases h
  | x :: xs, c, h => by
    rw [List.foldlM_cons] at h
    cases hx : g c x with
    | error e' =>
      rw [hx] at h
      obtain rfl : e' = e := by simpa using h
      exact ⟨x, List.mem_cons_self, c, hx⟩
    | ok c' =>
      rw [hx] at h
      obtain ⟨y, hy, hfail⟩ := foldlM_eq_error h
      exact ⟨y, List.mem_cons_of_mem _ hy, hfail⟩

/-! ### Errors -/

/-- All errors of a computation fulfil `p`. -/
def FailsOnly (p : ε → Prop) (x : Except ε α) : Prop := ∀ e, x = .error e → p e

namespace FailsOnly

variable {p q : ε → Prop}

theorem ok (a : α) : FailsOnly p (.ok a : Except ε α) := nofun

theorem error {e : ε} (h : p e) : FailsOnly p (.error e : Except ε α) := by
  intro e' he
  cases he
  exact h

theorem mono {x : Except ε α} (h : FailsOnly p x) (hpq : ∀ e, p e → q e) : FailsOnly q x :=
  fun e he => hpq e (h e he)

theorem bind {x : Except ε α} {f : α → Except ε β} (h : FailsOnly p x)
    (hf : ∀ a, FailsOnly p (f a)) : FailsOnly p (x >>= f) := by
  cases x with
  | ok a => exact hf a
  | error e => exact error (h e rfl)

theorem mapError {ε' : Type} {x : Except ε' α} {f : ε' → ε} (h : FailsOnly (fun e => p (f e)) x) :
    FailsOnly p (x.mapError f) := by
  cases x with
  | ok a => exact ok a
  | error e => exact error (h e rfl)

theorem ite {c : Prop} [Decidable c] {x y : Except ε α} (hx : FailsOnly p x)
    (hy : FailsOnly p y) : FailsOnly p (if c then x else y) := by
  split
  · exact hx
  · exact hy

theorem foldlM {f : γ → α → Except ε γ} {xs : List α} (h : ∀ c, ∀ x ∈ xs, FailsOnly p (f c x))
    (c : γ) : FailsOnly p (xs.foldlM f c) := by
  intro e he
  obtain ⟨x, hx, c', hfail⟩ := foldlM_eq_error he
  exact h c' x hx e hfail

theorem mapM {f : α → Except ε β} : ∀ {xs : List α}, (∀ x ∈ xs, FailsOnly p (f x)) →
    FailsOnly p (xs.mapM f)
  | [], _ => .ok []
  | x :: xs, h => by
    rw [List.mapM_cons]
    exact .bind (h x List.mem_cons_self) fun y =>
      .bind (mapM fun z hz => h z (List.mem_cons_of_mem _ hz)) fun _ => .ok _

end FailsOnly

end VectorScript
