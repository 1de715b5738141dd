import Mathlib.Data.Set.Finite.List
import Mathlib.Order.Filter.AtTopBot.Basic
import Mathlib.Order.Filter.Finite
import VectorScript.Proofs.Broadcasting
import VectorScript.Proofs.Failing

/-!
# Answers without a memory, under growing limits

Limits only ever turn answers into errors.  So answers are compared in the long run: a family of
meanings, one for each limit, settles on a series if from some limit on it answers as that series
does.  A meaning foretells a family if whatever it answers, the family settles on: full values give
the shape and all selections, elements at some indices give the elements at those indices.  Series
without elements are among the answers only if `hollow` holds.

* `Meaning.Settles`, `Meaning.SettlesFully`: a family answers like a series.
* `Meaning.Foretells`: what one meaning answers, a family settles on.
-/

namespace VectorScript

open Filter

/-! ### Answers without a memory -/

/-- Computations that fail or give a value, and remember nothing. -/
abbrev Plain := Except EvalError

instance : Answering Plain where
  raise := .error
  overflow site _ := .error ⟨.fault .overflow, site⟩
  countBuiltin := .ok ()
  countStatement := .ok ()
  remember _ _ := .ok ()
  remembered? _ := .ok none

namespace Answering

variable {α : Type}

@[simp] theorem ofExcept_plain (x : Except EvalError α) : (ofExcept x : Plain α) = x := by
  cases x <;> rfl

@[simp] theorem liftAt_plain (site : Site) (x : Except EvalError.Cause α) :
    (liftAt site x : Plain α) = x.mapError fun cause => ⟨cause, site⟩ := by
  cases x <;> rfl

theorem liftAt_eq_ok {site : Site} {x : Except EvalError.Cause α} {a : α} :
    (liftAt site x : Plain α) = .ok a ↔ x = .ok a := by
  rw [liftAt_plain, mapError_eq_ok]

theorem count_eq_ok {site : Site} {n k : Nat} :
    (count site n : Plain Nat) = .ok k ↔ n = k ∧ n ≤ maxLength := by
  unfold count
  split_ifs with h
  · rw [pure_eq_ok]
    simp [h]
  · exact ⟨nofun, fun hk => absurd hk.2 h⟩

end Answering

namespace Meaning

theorem delay_plain (f : Unit → Meaning Plain) : delay f = f () := rfl

theorem recalledOr_plain (name : String) (other : Meaning Plain) :
    recalledOr name other = other := rfl

theorem ofVariable_plain (name : String) (body : Meaning Plain) : ofVariable name body = body := by
  obtain ⟨shape, values⟩ := body
  simp only [ofVariable, mk.injEq, true_and]
  funext selection
  show (values selection >>= fun v => _) = values selection
  cases values selection with
  | error e => rfl
  | ok v => cases selection <;> rfl

end Meaning

/-! ### The long run -/

/-- Two answers in the long run are the same. -/
theorem eventually_unique {α : Type} {x : Nat → Plain α} {a b : α}
    (ha : ∀ᶠ n in atTop, x n = .ok a) (hb : ∀ᶠ n in atTop, x n = .ok b) : a = b := by
  obtain ⟨n, hn⟩ := (ha.and hb).exists
  exact Except.ok.inj (hn.1.symm.trans hn.2)

theorem eventually_forall_mem {α : Type} {p : α → Nat → Prop} {xs : List α}
    (h : ∀ x ∈ xs, ∀ᶠ n in atTop, p x n) : ∀ᶠ n in atTop, ∀ x ∈ xs, p x n :=
  (eventually_all_finite xs.finite_toSet).mpr h

theorem eventually_forall_lt {p : Nat → Nat → Prop} {m : Nat}
    (h : ∀ k < m, ∀ᶠ n in atTop, p k n) : ∀ᶠ n in atTop, ∀ k < m, p k n :=
  (eventually_all_finite (Set.finite_lt_nat m)).mpr h

namespace Meaning

/-- From some limit on, the answers are those of `v`, as far as elements at the indices `D` are
asked for. -/
structure Settles (M : Nat → Meaning Plain) (v : Series) (D : Int → Prop) : Prop where
  shape : ∀ᶠ n in atTop, (M n).shape = .ok v.shape
  elements : ∀ S : List Int, (∀ i ∈ S, inRange v.length i → D i) →
    ∀ᶠ n in atTop, (M n).values (.at S) = .ok (v.gather S)

/-- From some limit on, the answers are those of `v`. -/
structure SettlesFully (M : Nat → Meaning Plain) (v : Series) : Prop where
  shape : ∀ᶠ n in atTop, (M n).shape = .ok v.shape
  elements : ∀ S : List Int, ∀ᶠ n in atTop, (M n).values (.at S) = .ok (v.gather S)
  all : ∀ᶠ n in atTop, (M n).values .all = .ok v

theorem SettlesFully.settles {M : Nat → Meaning Plain} {v : Series} (h : SettlesFully M v)
    (D : Int → Prop) : Settles M v D :=
  ⟨h.shape, fun S _ => h.elements S⟩

theorem Settles.fully {M : Nat → Meaning Plain} {v : Series} (h : Settles M v fun _ => True)
    (hall : ∀ᶠ n in atTop, (M n).values .all = .ok v) : SettlesFully M v :=
  ⟨h.shape, fun S => h.elements S fun _ _ _ => trivial, hall⟩

/-- What a meaning answers, a family settles on. -/
structure Foretells (hollow : Prop) (m : Meaning Plain) (M : Nat → Meaning Plain) : Prop where
  shape : ∀ {s}, m.shape = .ok s → s.Sized hollow ∧ ∀ᶠ n in atTop, (M n).shape = .ok s
  all : ∀ {v}, m.values .all = .ok v → v.Sized hollow ∧ SettlesFully M v
  elements : ∀ {S w}, m.values (.at S) = .ok w →
    ∃ v, v.Sized hollow ∧ w = v.gather S ∧ Settles M v (· ∈ S)

namespace Foretells

variable {hollow : Prop} {m : Meaning Plain} {M : Nat → Meaning Plain}

theorem shape_eq_of_all (h : Foretells hollow m M) {s : Shape} {v : Series} (hs : m.shape = .ok s)
    (hv : m.values .all = .ok v) : s = v.shape :=
  eventually_unique (h.shape hs).2 (h.all hv).2.shape

theorem shape_eq_of_settles (h : Foretells hollow m M) {s : Shape} {v : Series} {D : Int → Prop}
    (hs : m.shape = .ok s) (hv : Settles M v D) : s = v.shape :=
  eventually_unique (h.shape hs).2 hv.shape

/-! ### Known series and errors -/

/-- A series that a family settles on foretells it. -/
theorem of_settlesFully {v : Series} (hv : v.Sized hollow) (h : SettlesFully M v) :
    Foretells hollow (.const v) M where
  shape {s} hs := by
    obtain rfl : v.shape = s := pure_eq_ok.mp hs
    exact ⟨hv.sized, h.shape⟩
  all {w} hw := by
    obtain rfl : v = w := pure_eq_ok.mp hw
    exact ⟨hv, h⟩
  elements {S w} hw := by
    obtain rfl : v.gather S = w := pure_eq_ok.mp hw
    exact ⟨v, hv, rfl, h.settles _⟩

theorem settlesFully_const (v : Series) : SettlesFully (fun _ => const v) v :=
  ⟨.of_forall fun _ => rfl, fun _ => .of_forall fun _ => rfl, .of_forall fun _ => rfl⟩

theorem const {v : Series} (hv : v.Sized hollow) : Foretells hollow (.const v) fun _ => .const v :=
  of_settlesFully hv (settlesFully_const v)

theorem fail (site : Site) (cause : EvalError.Cause) : Foretells hollow (.fail site cause) M where
  shape := nofun
  all := nofun
  elements := nofun

/-- Only the answers in the long run matter. -/
theorem congr {M' : Nat → Meaning Plain} (h : Foretells hollow m M)
    (hM : ∀ᶠ n in atTop, M n = M' n) : Foretells hollow m M' where
  shape hs := ⟨(h.shape hs).1, ((h.shape hs).2.and hM).mono fun n hn => hn.2 ▸ hn.1⟩
  all hv := by
    obtain ⟨hsized, hsettles⟩ := h.all hv
    exact ⟨hsized, (hsettles.shape.and hM).mono fun n hn => hn.2 ▸ hn.1,
      fun S => ((hsettles.elements S).and hM).mono fun n hn => hn.2 ▸ hn.1,
      (hsettles.all.and hM).mono fun n hn => hn.2 ▸ hn.1⟩
  elements hw := by
    obtain ⟨v, hsized, hgather, hsettles⟩ := h.elements hw
    exact ⟨v, hsized, hgather, (hsettles.shape.and hM).mono fun n hn => hn.2 ▸ hn.1,
      fun S hS => ((hsettles.elements S hS).and hM).mono fun n hn => hn.2 ▸ hn.1⟩

/-- A meaning that has to be found first. -/
theorem after {find : Plain (Meaning Plain)} {Find : Nat → Plain (Meaning Plain)}
    (h : ∀ {m}, find = .ok m → ∃ M, Foretells hollow m M ∧ ∀ᶠ n in atTop, Find n = .ok (M n)) :
    Foretells hollow (.after find) fun n => .after (Find n) := by
  cases hfind : find with
  | error e => exact ⟨nofun, nofun, nofun⟩
  | ok m =>
    obtain ⟨M, hM, hFind⟩ := h hfind
    have hafter : ∀ n, Find n = .ok (M n) → M n = .after (Find n) := by
      intro n hn
      rw [hn]
      rfl
    exact hM.congr (hFind.mono hafter)

end Foretells

end Meaning

end VectorScript
