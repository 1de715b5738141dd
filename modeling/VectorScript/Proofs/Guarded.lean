import VectorScript.Proofs.CarefulEvaluation

/-!
# Guarded evaluation

Careful evaluation that may remember some variables only.  It fails where all values of another
variable are found, and answers all other requests as careful evaluation does.  So it tells which
variables an evaluation remembers, and what foretells does so under every guard.

* `Guarded`: computations under a guard.
* `Expr.guarded`: the meaning of an expression under a guard.
* `Meaning.Foretells.ofGuarded`: guarded variables foretell guarded variables.
-/

namespace VectorScript

open Filter

/-- Computations that remember no other variables than those of `K`. -/
def Guarded (_K : String → Bool) (m : Type → Type) : Type → Type := m

variable {K : String → Bool} {m : Type → Type} [Answering m]

instance : Answering (Guarded K m) :=
  { (inferInstance : Answering m) with
    remember := fun name v =>
      bif K name then (Answering.remember name v : m Unit)
      else (Answering.raise .refusal : m Unit) }

instance [h : LawfulMonad m] : LawfulMonad (Guarded K m) := h

/-- A variable under a guard. -/
def Meaning.ofGuarded (K : String → Bool) (name : String) (body : Meaning m) : Meaning m :=
  ofVariable (m := Guarded K m) name body

namespace Expr

/-- The careful answers of an expression under a guard. -/
noncomputable def guarded (checks : Bool) (K : String → Bool) (w : Setting) (ctx : Context)
    (e : Expr) : Meaning m :=
  e.careful (m := Guarded K m) checks w ctx

/-- What a free name means under a guard when it is not remembered. -/
noncomputable def declaredGuarded (checks : Bool) (K : String → Bool) (w : Setting) (ctx : Context)
    (name : String) (span : Span) : Meaning m :=
  declaredBy (m := Guarded K m) w (careful checks w) ctx name span

variable {checks : Bool} {w : Setting} {ctx : Context} {name key : String} {span : Span}
  {st : Statement} {body : Expr}

/-- Evaluation without a guard is evaluation under a guard that lets everything pass. -/
theorem guarded_true (e : Expr) :
    e.guarded (m := m) checks (fun _ => true) w ctx = e.careful checks w ctx := rfl

/-! Under a guard every expression is evaluated as it is without one, up to the variables. -/

/-- One step of evaluation under a guard is one without a guard, unless it asks for a free name. -/
theorem guarded_eq_carefulBy {e : Expr}
    (h : ∀ name span, e = identifier name span → ctx.scope.find? name ≠ none) :
    e.guarded (m := m) checks K w ctx =
      carefulBy checks w (fun ctx e => e.guarded checks K w ctx) ctx e := by
  rw [guarded, careful_eq]
  cases e with
  | identifier name span =>
    have hcheck : (checks && (identifier name span).isSingleton) = false := Bool.and_false checks
    obtain ⟨b, hb⟩ := Option.ne_none_iff_exists'.mp (h name span rfl)
    rw [carefulBy_eq_meaningBy hcheck, carefulBy_eq_meaningBy hcheck]
    cases b with
    | value v => rw [meaningBy_bound hb, meaningBy_bound hb]; rfl
    | deferred arg outer owner => rw [meaningBy_deferred hb, meaningBy_deferred hb]; rfl
  | _ => rfl

theorem guarded_eq_meaningBy {e : Expr}
    (h : ∀ name span, e = identifier name span → ctx.scope.find? name ≠ none)
    (hcheck : (checks && e.isSingleton) = false) : e.guarded (m := m) checks K w ctx =
      meaningBy w (fun ctx e => e.guarded checks K w ctx) ctx e := by
  rw [guarded_eq_carefulBy h, carefulBy_eq_meaningBy hcheck]

theorem guarded_free (h : ctx.scope.find? name = none) :
    (identifier name span).guarded (m := m) checks K w ctx =
      .recalledOr name (declaredGuarded checks K w ctx name span) :=
  careful_free h

theorem declaredGuarded_variable (hfind : w.declarations.find? name = some st)
    (hkind : st.kind = .variable key body) (hopen : name ∉ ctx.opened) :
    declaredGuarded (m := m) checks K w ctx name span =
      .ofGuarded K name (.delay fun _ => body.guarded checks K w (ctx.inVariable name)) :=
  declaredBy_variable hfind hkind hopen

end Expr

namespace Meaning

theorem ofGuarded_of_allowed {name : String} (h : K name) (body : Meaning m) :
    ofGuarded K name body = ofVariable name body := by
  refine congrArg (mk body.shape) (funext fun selection => ?_)
  cases selection with
  | all =>
    show (_ >>= fun _ => _ >>= fun v => (bif K name then _ else _) >>= _) = _
    rw [h]
    rfl
  | «at» indices => rfl

theorem values_at_ofGuarded_plain (name : String) (body : Meaning Plain) (indices : List Int) :
    (ofGuarded K name body).values (.at indices) = body.values (.at indices) := by
  show body.values (.at indices) >>= _ = _
  cases body.values (.at indices) <;> rfl

/-- All values of a variable that may not be remembered are refused. -/
theorem values_all_ofGuarded_plain (name : String) (body : Meaning Plain) :
    (ofGuarded K name body).values .all =
      body.values .all >>= fun v => bif K name then .ok v else .error .refusal := by
  show body.values .all >>= (fun v => (bif K name then _ else _) >>= _) = _
  cases body.values .all with
  | error e => rfl
  | ok v => cases K name <;> rfl

/-- What is foretold of the body of a variable is foretold under a guard: if all values are found,
the variable may be remembered. -/
theorem Foretells.ofGuarded {hollow : Prop} {body : Meaning Plain} {Body : Nat → Meaning Plain}
    (h : Foretells hollow body Body) (name : String) :
    Foretells hollow (ofGuarded K name body) fun n => ofGuarded K name (Body n) where
  shape hs := h.shape hs
  all {v} hv := by
    rw [values_all_ofGuarded_plain] at hv
    obtain ⟨u, hu, hguard⟩ := bind_eq_ok.mp hv
    cases hK : K name with
    | false =>
      rw [hK] at hguard
      cases hguard
    | true =>
      obtain rfl : u = v := by
        rw [hK] at hguard
        exact Except.ok.inj hguard
      simp only [ofGuarded_of_allowed hK, ofVariable_plain]
      exact h.all hu
  elements {S u} hu := by
    rw [values_at_ofGuarded_plain] at hu
    obtain ⟨v, hsized, rfl, hsettles⟩ := h.elements hu
    refine ⟨v, hsized, rfl, hsettles.shape, fun T hT => ?_⟩
    simp only [values_at_ofGuarded_plain]
    exact hsettles.elements T hT

end Meaning

end VectorScript
