import VectorScript.Proofs.SimulationMemory
import VectorScript.Proofs.Unrolling

/-!
# Memories of settled values

Careful evaluation that begins with some remembered values remembers only what variables settle on
from these values.  So whatever it answers, and from whatever memory on the way, it answers as
evaluation does that knows all settled values at once and remembers nothing.

* `Agrees`: a memory holds settled values.
* `Simulation.answering`: answers from such memories are answers with known values.
* `Expr.careful_matches`: careful evaluation keeps to that.
-/

namespace VectorScript

open Meaning

/-! ### Answers of one series -/

/-- Whatever is answered is answered as a series does. -/
structure Meaning.AnsweredBy (b : Meaning Plain) (v : Series) : Prop where
  shape : ∀ {s}, b.shape = .ok s → s = v.shape
  values : ∀ {selection u}, b.values selection = .ok u → u = v.select selection

/-- What foretells a family is answered by the series that the family settles on. -/
theorem Meaning.Foretells.answeredBy {hollow : Prop} {m : Meaning Plain} {M : Nat → Meaning Plain}
    {v : Series} (h : Foretells hollow m M) (hv : SettlesFully M v) : m.AnsweredBy v where
  shape hs := h.shape_eq_of_settles hs (hv.settles fun _ => True)
  values {selection u} hu := by
    cases selection with
    | all => exact eventually_unique (h.all hu).2.all hv.all
    | «at» indices =>
      obtain ⟨_, -, rfl, hsettles⟩ := h.elements hu
      exact eventually_unique (hsettles.elements indices fun _ hi _ => hi) (hv.elements indices)

/-! ### Remembered values -/

/-- What is answered with a memory is answered without one. -/
def AnswerRelation.answered : AnswerRelation where
  Rel r y := ∀ a, r = .ok a → y = .ok a
  may _ := True
  ok _ _ h := h
  error _ _ h := nomatch h
  stop _ _ h := nomatch h
  go h hr b hb := (congrArg (· >>= _) (h _ rfl)).trans (hr b hb)

/-- A memory holds settled values only, among them all known ones. -/
structure Agrees (known D : String → Option Series) (cache : NameTable Series) : Prop where
  settled : ∀ {name v}, cache.find? name = some v → D name = some v
  keeps : ∀ {name v}, known name = some v → cache.find? name = some v

namespace Agrees

variable {known D : String → Option Series} {cache : NameTable Series} {name : String} {v : Series}

theorem unknown (h : Agrees known D cache) (hfind : cache.find? name = none) :
    known name = none := by
  cases hname : known name with
  | none => rfl
  | some u => exact absurd (hfind.symm.trans (h.keeps hname)) (by simp)

theorem insert (h : Agrees known D cache) (hunknown : known name = none) (hv : D name = some v) :
    Agrees known D (cache.insert name v) where
  settled {x u} hx := by
    rw [NameTable.find?_insert] at hx
    split_ifs at hx with hname
    · subst hname
      exact hv.trans hx
    · exact h.settled hx
  keeps {x u} hx := by
    rw [NameTable.find?_insert, if_neg, h.keeps hx]
    rintro rfl
    exact absurd (hunknown.symm.trans hx) (by simp)

end Agrees

namespace Simulation

variable {known D : String → Option Series} {name : String}

/-- A simulation of evaluation with a memory by evaluation with known values. -/
def answering (known D : String → Option Series) : Simulation Eval (Recalling D) where
  Rel x y := (withMemory (Agrees known D) .answered).Rel x y
  may _ := True
  pure a := (withMemory (Agrees known D) .answered).pure a
  bind h hf := (withMemory (Agrees known D) .answered).bind h hf
  raise h := (withMemory (Agrees known D) .answered).raise h
  overflow n h := (withMemory (Agrees known D) .answered).overflow n h
  countBuiltin := (withMemory (Agrees known D) .answered).countBuiltin

variable {a : Meaning Eval} {b : Meaning Plain}

/-- A value may be remembered that is settled. -/
theorem Matches.remembering (h : (answering known D).Matches a b) (hunknown : known name = none)
    (hv : ∀ v, b.values .all = .ok v → D name = some v) :
    (answering known D).Matches (.ofVariable name a) (.ofVariable name b) := by
  have hplain : (withMemory (Agrees known D) .answered).Matches a b := ⟨h.shape, h.values⟩
  have hvariable : (withMemory (Agrees known D) .answered).Matches (.ofVariable name a)
      (.ofVariable name b) := hplain.ofVariable_of_insert fun cache v hcache hrel =>
    hcache.insert hunknown (hv v (hrel v rfl))
  exact ⟨hvariable.shape, hvariable.values⟩

/-- What is remembered is settled, and what is not remembered agrees with what is settled. -/
theorem Matches.recalling (h : known name = none → (answering known D).Matches a b)
    (hsettled : known name = none → ∀ v, D name = some v → b.AnsweredBy v) :
    (answering known D).Matches (.recalledOr name a) (.recalledOr name b) := by
  rw [recalledOr_recalling]
  refine ⟨fun μ hμ => ?_, fun selection μ hμ => ?_⟩
  · rw [run_shape_recalledOr, recalled]
    cases hfind : μ.cache.find? name with
    | some v =>
      rw [hμ.settled hfind]
      exact ⟨hμ, fun _ => id⟩
    | none =>
      have hunknown := hμ.unknown hfind
      obtain ⟨hkeeps, hshape⟩ := (h hunknown).shape μ hμ
      refine ⟨hkeeps, fun s hs => ?_⟩
      cases hname : D name with
      | none => exact hshape s hs
      | some v => rw [(hsettled hunknown v hname).shape (hshape s hs)]; rfl
  · rw [run_values_recalledOr, recalled]
    cases hfind : μ.cache.find? name with
    | some v =>
      rw [hμ.settled hfind]
      exact ⟨hμ, fun _ => id⟩
    | none =>
      have hunknown := hμ.unknown hfind
      obtain ⟨hkeeps, hvalues⟩ := (h hunknown).values selection μ hμ
      refine ⟨hkeeps, fun u hu => ?_⟩
      cases hname : D name with
      | none => exact hvalues u hu
      | some v => rw [(hsettled hunknown v hname).values (hvalues u hu)]; rfl

end Simulation

namespace Expr

open Simulation

variable {filters : Bool} {known : String → Option Series} {w : Setting}

section Variable

variable {name key : String} {st : Statement} {body : Expr}

/-- Careful evaluation of a body foretells the unrolling of the body. -/
theorem foretells_carefulBody (hw : w.Written filters)
    (hknown : ∀ name v, known name = some v → v.Sized (filters = true))
    (hfind : w.declarations.find? name = some st) (hkind : st.kind = .variable key body)
    (ctx : Context) (fewer : Nat) : Foretells (filters = true)
      (carefulRecalling (settled filters known w) filters w (ctx.inVariable name) body)
      (unrolling known w fewer (Context.root.inVariable name) body) := by
  have hbody : body.Written filters :=
    (hw.declared name st hfind).body (by simp [Statement.body?, hkind])
  have hlinked : (ctx.inVariable name).Linked (.ofUnrolling filters known w)
      (Context.root.inVariable name) := ⟨rfl, .root⟩
  exact foretells_careful hw hknown _ _ _ hlinked hbody fewer

/-- A variable settles on what careful evaluation of its body answers. -/
theorem settled_of_body (hw : w.Written filters)
    (hknown : ∀ name v, known name = some v → v.Sized (filters = true))
    (hunknown : known name = none) (hfind : w.declarations.find? name = some st)
    (hkind : st.kind = .variable key body) {ctx : Context} {v : Series}
    (hv : (carefulRecalling (settled filters known w) filters w (ctx.inVariable name)
      body).values .all = .ok v) : settled filters known w name = some v := by
  have hbody := foretells_carefulBody hw hknown hfind hkind ctx
  refine settled_eq_some.mpr ⟨((hbody 0).all hv).1, fun fewer ctx' span hfree => ?_⟩
  exact ((foretells_reference hfree hunknown hfind hkind hbody fewer).all hv).2

end Variable

/-- Careful evaluation uses its memory as evaluation with settled values uses these. -/
theorem keptBy_answering (hw : w.Written filters)
    (hknown : ∀ name v, known name = some v → v.Sized (filters = true)) :
    (answering known (settled filters known w)).KeptBy w (careful filters w) (careful filters w)
      fun _ _ => True where
  step _ _ := trivial
  site _ _ _ := trivial
  free := by
    intro ctx name span _ hfree hbody
    refine .recalling (fun hunknown => ?_) fun hunknown v hv => ?_
    · refine matches_declaredBy (fun _ _ => trivial) (fun _ _ => trivial)
        fun hfind hkind hopen => ?_
      refine .remembering (.delay (hbody hfind hkind hopen)) hunknown ?_
      exact fun v hv => settled_of_body hw hknown hunknown hfind hkind hv
    · have hforetells : Foretells (filters = true) _
          (unrolling known w 0 .root (identifier name span)) := foretells_declaredBy rfl hunknown
          (fun hfind hkind _ => foretells_carefulBody hw hknown hfind hkind ctx) 0
      exact hforetells.answeredBy ((settled_eq_some.mp hv).settles 0 .root span rfl)

/-- What careful evaluation answers with a memory is what it answers with settled values. -/
theorem careful_matches (hw : w.Written filters)
    (hknown : ∀ name v, known name = some v → v.Sized (filters = true)) (ctx : Context) (e : Expr) :
    (answering known (settled filters known w)).Matches (careful filters w ctx e)
      (carefulRecalling (settled filters known w) filters w ctx e) :=
  (keptBy_answering hw hknown).matches_careful (fun _ => trivial) ctx e trivial

end Expr

end VectorScript
