import VectorScript.Proofs.EvaluationCases
import VectorScript.Proofs.ForetellingCollections

/-!
# Careful evaluation

A literal with one item leaves requests for single elements to the item.  An item that is empty but
has several components then answers with elements of several components, although an empty literal
has one component.  Evaluation that is careful refuses such items, and answers all else as
evaluation does.

* `Meaning.alone`: answers that are refused unless they stand alone.
* `Expr.careful`: the answers of an expression where such items are refused.
* `Meaning.Foretells.arrayLiteral_alone`: a literal with one careful item foretells such literals.
-/

namespace VectorScript

open Filter

variable {m : Type → Type} [Answering m]

/-- What is raised where something is refused that evaluation would do. -/
def EvalError.refusal : EvalError := ⟨.identifierNotVariable "", ⟨none, .none⟩⟩

/-- The same answers, refused where they are empty and have several components. -/
def Meaning.alone (a : Meaning m) : Meaning m where
  shape := do
    let s ← a.shape
    if s.StandsAlone then return s else Answering.raise .refusal
  values
    | .all => do
      let v ← a.values .all
      if v.shape.StandsAlone then return v else Answering.raise .refusal
    | .at indices => a.values (.at indices)

namespace Expr

/-- Whether an expression is a literal with one item. -/
def isSingleton : Expr → Bool
  | array [_] _ => true
  | _ => false

theorem isSingleton_iff {e : Expr} : e.isSingleton ↔ ∃ item span, e = array [item] span := by
  cases e with
  | array items span =>
    rcases items with _ | ⟨item, _ | ⟨other, rest⟩⟩ <;> simp [isSingleton]
  | _ => simp [isSingleton]

/-- What a part of an expression answers.  With `checks`, the only item of a literal has to stand
alone. -/
def checkedPart (checks : Bool) (e : Expr) (a : Meaning m) : Meaning m :=
  if checks && e.isSingleton then a.alone else a

/-- One step of evaluation, where `again` answers for what it leads to.  With `checks`, the only
item of a literal has to stand alone. -/
def carefulBy (checks : Bool) (w : Setting) (again : Context → Expr → Meaning m) (ctx : Context)
    (e : Expr) : Meaning m :=
  meaningBy w (fun ctx' c => e.checkedPart checks (again ctx' c)) ctx e

/-- The answers of an expression.  With `checks`, the only items of literals have to stand alone. -/
noncomputable def careful (checks : Bool) (w : Setting) (ctx : Context) (e : Expr) : Meaning m :=
  carefulBy checks w (fun ctx' e' =>
    if _h : nesting w ctx' e' < nesting w ctx e then careful checks w ctx' e' else default) ctx e
termination_by nesting w ctx e

variable {checks : Bool} {w : Setting} {ctx : Context} {e : Expr}

theorem carefulBy_eq_meaningBy {again : Context → Expr → Meaning m}
    (h : (checks && e.isSingleton) = false) :
    carefulBy checks w again ctx e = meaningBy w again ctx e := by
  simp [carefulBy, checkedPart, h]

/-- Careful answers are those by the careful answers of what evaluation leads to. -/
theorem careful_eq (ctx : Context) (e : Expr) :
    careful (m := m) checks w ctx e = carefulBy checks w (careful checks w) ctx e := by
  rw [careful]
  exact meaningBy_congr fun ctx' e' hlt => by simp only [dif_pos hlt]

theorem careful_eq_meaningBy (h : (checks && e.isSingleton) = false) :
    careful (m := m) checks w ctx e = meaningBy w (careful checks w) ctx e := by
  rw [careful_eq, carefulBy_eq_meaningBy h]

theorem careful_free {name : String} {span : Span} (h : ctx.scope.find? name = none) :
    careful (m := m) checks w ctx (identifier name span) =
      .recalledOr name (declaredBy w (careful checks w) ctx name span) := by
  rw [careful_eq_meaningBy (Bool.and_false checks), meaningBy_free h]

/-- Any number of steps of careful evaluation may be written out. -/
theorem careful_eq_iterate (n : Nat) :
    careful (m := m) checks w = (carefulBy checks w)^[n] (careful checks w) :=
  (Function.iterate_fixed (funext₂ fun ctx e => (careful_eq ctx e).symm) n).symm

/-- Without checks nothing is refused. -/
theorem careful_false : careful (m := m) false w = meaning w := by
  funext ctx e
  induction hn : nesting w ctx e using Nat.strong_induction_on generalizing ctx e with
  | h n ih =>
    rw [careful_eq_meaningBy rfl, meaning_eq_meaningBy]
    exact meaningBy_congr fun ctx' e' hlt => ih _ (hn ▸ hlt) ctx' e' rfl

end Expr

/-! ### What is foretold carefully -/

namespace Meaning

variable {hollow : Prop} {a : Meaning Plain} {M : Nat → Meaning Plain}

theorem alone_shape_eq_ok {s : Shape} :
    a.alone.shape = .ok s ↔ a.shape = .ok s ∧ s.StandsAlone := by
  show a.shape >>= _ = _ ↔ _
  rw [bind_eq_ok]
  constructor
  · rintro ⟨t, ht, h⟩
    split_ifs at h with halone
    obtain rfl := pure_eq_ok.mp h
    exact ⟨ht, halone⟩
  · rintro ⟨hs, halone⟩
    exact ⟨s, hs, by rw [if_pos halone]; rfl⟩

theorem alone_all_eq_ok {v : Series} :
    a.alone.values .all = .ok v ↔ a.values .all = .ok v ∧ v.shape.StandsAlone := by
  show a.values .all >>= _ = _ ↔ _
  rw [bind_eq_ok]
  constructor
  · rintro ⟨u, hu, h⟩
    split_ifs at h with halone
    obtain rfl := pure_eq_ok.mp h
    exact ⟨hu, halone⟩
  · rintro ⟨hv, halone⟩
    exact ⟨v, hv, by rw [if_pos halone]; rfl⟩

theorem standsAlone_alone (a : Meaning Plain) : a.alone.StandsAlone :=
  ⟨fun hs => (alone_shape_eq_ok.mp hs).2, fun hv => (alone_all_eq_ok.mp hv).2⟩

/-- What a part answers it answers without checks. -/
theorem shape_of_checkedPart {checks : Bool} {e : Expr} {s : Shape}
    (h : (e.checkedPart checks a).shape = .ok s) : a.shape = .ok s := by
  unfold Expr.checkedPart at h
  split_ifs at h
  · exact (alone_shape_eq_ok.mp h).1
  · exact h

namespace Foretells

/-- Refusing some answers keeps what is foretold. -/
theorem alone (h : Foretells hollow a M) : Foretells hollow a.alone M :=
  ⟨fun hs => h.shape (alone_shape_eq_ok.mp hs).1, fun hv => h.all (alone_all_eq_ok.mp hv).1,
    h.elements⟩

theorem checkedPart (h : Foretells hollow a M) (checks : Bool) (e : Expr) :
    Foretells hollow (e.checkedPart checks a) M := by
  unfold Expr.checkedPart
  split_ifs
  · exact h.alone
  · exact h

/-- A family that stands alone in the long run is not refused in the long run. -/
theorem bothAlone (h : Foretells hollow a M) {t : Shape} (ht : ∀ᶠ n in atTop, (M n).shape = .ok t)
    (halone : t.StandsAlone) : Foretells hollow a.alone fun n => (M n).alone := by
  have hshape : ∀ {v : Series}, (∀ᶠ n in atTop, (M n).shape = .ok v.shape) →
      v.shape.StandsAlone ∧ ∀ᶠ n in atTop, (M n).alone.shape = .ok v.shape := by
    intro v hv
    obtain rfl := eventually_unique ht hv
    exact ⟨halone, hv.mono fun n hn => alone_shape_eq_ok.mpr ⟨hn, halone⟩⟩
  refine ⟨fun hs => ?_, fun hv => ?_, fun hw => ?_⟩
  · obtain ⟨hs, halone⟩ := alone_shape_eq_ok.mp hs
    exact ⟨(h.shape hs).1, (h.shape hs).2.mono fun n hn => alone_shape_eq_ok.mpr ⟨hn, halone⟩⟩
  · obtain ⟨hsized, hsettles⟩ := h.all (alone_all_eq_ok.mp hv).1
    obtain ⟨halone, hshape⟩ := hshape hsettles.shape
    exact ⟨hsized, hshape, hsettles.elements,
      hsettles.all.mono fun n hn => alone_all_eq_ok.mpr ⟨hn, halone⟩⟩
  · obtain ⟨v, hsized, hgather, hsettles⟩ := h.elements hw
    exact ⟨v, hsized, hgather, (hshape hsettles.shape).2, hsettles.elements⟩

/-- A literal whose only item has to stand alone.  If the item does not, nothing is answered. -/
theorem arrayLiteral_alone (h : Foretells hollow a M) (site : Site) (limit : Nat)
    (rules : Item.Rules) :
    Foretells hollow (.arrayLiteral site limit [⟨rules, a.alone⟩]) fun n =>
      .arrayLiteral site n [⟨rules, (M n).alone⟩] := by
  by_cases hstands : ∃ t : Shape, t.StandsAlone ∧ ∀ᶠ n in atTop, (M n).shape = .ok t
  · obtain ⟨t, halone, ht⟩ := hstands
    have hitem := h.bothAlone ht halone
    have hliteral : Foretells hollow
        (.arrayLiteral site limit (itemsOf 1 (fun _ => rules) fun _ => a.alone)) fun n =>
          .arrayLiteral site n (itemsOf 1 (fun _ => rules) fun _ => (M n).alone) :=
      arrayLiteral Nat.one_pos (fun _ _ => hitem) fun _ => standsAlone_alone a
    exact hliteral
  · have hshape : ∀ s, a.alone.shape ≠ .ok s := by
      intro s hs
      obtain ⟨hs, halone⟩ := alone_shape_eq_ok.mp hs
      exact hstands ⟨s, halone, (h.shape hs).2⟩
    have hall : ∀ v, a.alone.values .all ≠ .ok v := by
      intro v hv
      obtain ⟨hv, halone⟩ := alone_all_eq_ok.mp hv
      exact hstands ⟨v.shape, halone, (h.all hv).2.shape⟩
    -- every request asks for the shape of the item or for all of it
    refine ⟨fun hs => ?_, fun hv => ?_, fun hw => ?_⟩
    · obtain ⟨_, hshapes, -⟩ := bind_eq_ok.mp hs
      obtain ⟨t, -, ht⟩ := mapM_eq_ok_map.mp hshapes
      exact absurd (ht _ List.mem_cons_self) (hshape _)
    · obtain ⟨_, hvalues, -⟩ := bind_eq_ok.mp hv
      obtain ⟨v, -, hv⟩ := mapM_eq_ok_map.mp hvalues
      exact absurd (hv _ List.mem_cons_self) (hall _)
    · obtain ⟨_, hshapes, -⟩ := bind_eq_ok.mp hw
      obtain ⟨t, -, ht⟩ := mapM_eq_ok_map.mp hshapes
      exact absurd (ht _ List.mem_cons_self) (hshape _)

end Foretells

end Meaning

end VectorScript
