import VectorScript.Proofs.PartialRequests
import VectorScript.Proofs.SimulationMemory

/-!
# Higher limits

A request for some elements or for the shape may reach a limit that the request for the whole series
does not reach: an argument of a call is evaluated at the depth of the body that reads it, and a
comprehension counts the elements that are asked for.  It does not reach higher limits: evaluation
with a coherent memory repeats whatever evaluation without a memory answers under the same limits,
and that settles.

* `AnswerRelation.repeats`: with a memory the same result is found.
* `Expr.carries_repeats`: careful evaluation with a coherent memory repeats what it answers without
  one.
* `Session.answers_within_higher_limits`: under higher limits partial requests are answered.
-/

namespace VectorScript

open Filter Meaning

/-- A result without a memory is the result with one. -/
def AnswerRelation.repeats : AnswerRelation where
  Rel r y := ∀ a, y = .ok a → r = .ok a
  may _ := True
  ok a b h := h
  error _ a h := nomatch h
  stop := by
    intro α β e y g h b hb
    obtain ⟨a, ha, -⟩ := bind_eq_ok.mp hb
    cases h a ha
  go := by
    intro α β a y r g h hr b hb
    obtain ⟨a', ha, hg⟩ := bind_eq_ok.mp hb
    obtain rfl : a = a' := Except.ok.inj (h a' ha)
    exact hr b hg

namespace Expr

variable {filters : Bool} {w : Setting}

/-- What is remembered of a variable is the only result that its declaration may give. -/
theorem repeats_of_remembered (h : w.Written filters) (hacyclic : ∀ x, w.declarations.Acyclic x)
    (N : Nat) {ctx : Context} {name : String} {span : Span}
    (hopen : w.declarations.OpenTo ctx.opened name) {cache : NameTable Series} {v : Series}
    (hcache : w.CoherentUnder filters (fun _ => true) cache) (hv : cache.find? name = some v) :
    let M : Meaning Plain := declaredBy (w.within N) (careful filters (w.within N)) ctx name span
    AnswerRelation.repeats.Rel (.ok v.shape) M.shape ∧
      ∀ selection, AnswerRelation.repeats.Rel (.ok (v.select selection)) (M.values selection) := by
  intro M
  obtain ⟨⟨st, hfind, hvar⟩, -⟩ := hcache name v hv
  obtain ⟨key, body, hkind⟩ := Statement.isVariable_iff.mp hvar
  have hopened : name ∉ ctx.opened := fun hmem =>
    hacyclic name name .refl ⟨st, hfind, hvar⟩ (hopen name hmem).2
  have hM : M = .ofGuarded (fun _ => true) name
      (body.careful filters (w.within N) (ctx.inVariable name)) :=
    declaredBy_variable (w := w.within N) hfind hkind hopened
  have hsettles := settlesFully_of_remembered (K := fun _ => true) h hfind hkind (hacyclic name)
    hopen hcache hv
  have hbody := foretells_body (K := fun _ => true) h hfind hkind (hacyclic name) N ctx ctx
    ((hacyclic name).avoids hopen)
  have hforetells := hbody.ofGuarded (K := fun _ => true) name
  rw [hM]
  refine ⟨fun s hs => ?_, fun selection u hu => ?_⟩
  · rw [eventually_unique (hforetells.shape hs).2 hsettles.shape]
  · cases selection with
    | all => exact congrArg _ (eventually_unique hsettles.all (hforetells.all hu).2.all)
    | «at» S =>
      obtain ⟨v', -, rfl, hsettles'⟩ := hforetells.elements hu
      have hv' := hsettles'.elements S fun _ hi _ => hi
      exact congrArg _ (eventually_unique (hsettles.elements S) hv')

/-- Careful evaluation with a coherent memory repeats careful evaluation without one. -/
theorem carries_repeats (h : w.Written filters) (hacyclic : ∀ x, w.declarations.Acyclic x)
    (N : Nat) : (Simulation.withMemory (w.CoherentUnder filters fun _ => true) .repeats).CarriesBy
      (w.within N) (careful filters (w.within N)) (careful filters (w.within N)) fun ctx e =>
        e.ReadsWithin w.declarations (w.declarations.OpenTo ctx.opened) ctx.scope where
  step he hleads := ReadsWithin.openTo_of_leads (w := w.within N) hleads he
  site _ _ _ := trivial
  reopen _ _ _ _ := trivial
  recalled he hfree hdeclared := hdeclared.recalledOr fun _ _ hcache hv =>
    repeats_of_remembered h hacyclic N (he.name hfree) hcache hv
  remember := by
    intro ctx name span st key body he hfree hfind hkind hopen hbody
    have hreads := he.openTo_of_leads (.reference hfree hfind hkind hopen)
    have hwritten : (w.within N).Written filters := ⟨h.declared⟩
    have hfollows := follows_guarded (K := fun _ => true) hwritten (ctx.inVariable name) body hreads
    have hvariable := follows_variable (K := fun _ => true) hwritten hfind hkind hfollows
    exact hbody.ofVariable fun selection => (hvariable.values selection).keeps

end Expr

namespace Session

variable {filters : Bool} {s : Session}

/-- The session with both limits raised to `n`, and all else as it is. -/
def within (s : Session) (n : Nat) : Session := { s with limits := ⟨n, n⟩ }

/-- What evaluation without a memory answers under some limits, the session answers under them. -/
theorem Sound.answer_within (h : s.Sound filters) (hknown : s.DependenciesKnown) {e : Expr}
    {n : Nat} {α : Type} {q : Question α} {a : α}
    (ha : (q.ask (e.careful filters (s.setting.within n) .root) : Plain α) = .ok a) :
    ((s.within n).answer e q).1 = .ok a := by
  have hmatches := (Expr.carries_repeats h.written (h.acyclic hknown) n).matches_careful
    (fun _ => trivial) .root e ⟨fun _ _ => Declarations.openTo_nil, trivial⟩
  have hcareful := (hmatches.ask q s.memory h.coherent).2 a ha
  have hrun : (s.within n).run (q.ask (e.careful filters (s.within n).setting .root)) =
      (s.within n).answer e q := by
    refine run_careful ?_
    rintro rfl
    exact not_refused_of_answer hcareful nofun
  rw [← hrun]
  exact hcareful

/-- If the whole series has a value, so have the shape and all selections of elements, unless they
reach a limit; and under limits that are high enough they do not.  There is an exception only where
comprehensions have conditions: the request for the whole series finds that the only item of a
literal is empty but has several components, which careful evaluation refuses. -/
theorem answers_within_higher_limits (h : s.ReachedCarefully filters)
    (hknown : s.DependenciesKnown) {name : String} {v : Series}
    (hv : (s.evaluate name .all).1 = .ok v) (S : List Int) :
    filters = true ∧ s.RefusesRequest (.values (reference name) .all) ∨
      GivesUnlessLimited (s.shape name).1 v.shape ∧
      GivesUnlessLimited (s.evaluate name (.at S)).1 (v.gather S) ∧
      ∃ N, ∀ n ≥ N, ((s.within n).shape name).1 = .ok v.shape ∧
        ((s.within n).evaluate name (.at S)).1 = .ok (v.gather S) ∧
        ((s.within n).evaluate name .all).1 = .ok v := by
  by_cases hrefused : filters = true ∧ s.RefusesRequest (.values (reference name) .all)
  · exact .inl hrefused
  have hrefused := not_and.mp hrefused
  have hsound := h.sound
  have hwritten : (reference name).Written filters := ⟨rfl, fun _ => rfl⟩
  obtain ⟨-, hsettles⟩ := hsound.settlesFully hknown hwritten hrefused hv
  refine .inr ⟨hsound.gives hknown hwritten hrefused hv .shape,
    hsound.gives hknown hwritten hrefused hv (.values (.at S)), ?_⟩
  obtain ⟨N, hN⟩ := eventually_atTop.mp
    (hsettles.shape.and ((hsettles.elements S).and hsettles.all))
  refine ⟨N, fun n hn => ?_⟩
  obtain ⟨hshape, helements, hall⟩ := hN n hn
  exact ⟨hsound.answer_within (q := .shape) hknown hshape,
    hsound.answer_within (q := .values (.at S)) hknown helements,
    hsound.answer_within (q := .values .all) hknown hall⟩

/-- The marks of a dial, where calls may not be nested.  One literal has a single item, and there is
a comprehension with a condition. -/
def dialSource : String :=
  "marks = [turned(shifted(rotation))]; turned(p) = p.yx; shifted(p) = p.zw; " ++
    "shown = [m for m = marks when scale]"

set_option maxRecDepth 4000 in
theorem parse_dial : ∃ ts us vs ws, parseScript dialSource =
    [⟨.variable "marks" (.array [.call "turned" [.call "shifted" [.identifier "rotation" ⟨7, 8⟩]
        ⟨5, 9⟩] ⟨3, 10⟩] ⟨2, 11⟩), ts⟩,
      ⟨.function "turned" ["p"] (.swizzle (.identifier "p" ⟨5, 6⟩) "yx" ⟨5, 8⟩), us⟩,
      ⟨.function "shifted" ["p"] (.swizzle (.identifier "p" ⟨5, 6⟩) "zw" ⟨5, 8⟩), vs⟩,
      ⟨.variable "shown" (.array [.filtered (.identifier "m" ⟨3, 4⟩) "m"
        (.identifier "marks" ⟨7, 8⟩) (.identifier "scale" ⟨9, 10⟩) ⟨3, 10⟩] ⟨2, 11⟩), ws⟩] :=
  ⟨_, _, _, _, by cbv⟩

def dial : Session := (load dialSource).1.perform (.setLimits ⟨8, 1⟩)

theorem dial_reached : dial.ReachedCarefully true := by
  have hload : (load dialSource).1.ReachedCarefully true := .load fun _ _ h => nomatch h
  exact .perform hload (.setLimits ⟨8, 1⟩) nofun fun _ => id

theorem dial_dependenciesKnown : dial.DependenciesKnown := by
  refine dependenciesKnown_of_all dial_reached.sound.indexed ?_
  obtain ⟨ts, us, vs, ws, hparse⟩ := parse_dial
  rw [dial, load, hparse]
  cbv

theorem marks_of_dial : ¬ dial.RefusesRequest (.values (reference "marks") .all) ∧
    (dial.evaluate "marks" .all).1 = .ok ⟨1, [#[1], #[0]]⟩ := by
  have hcareful : ((((reference "marks").careful (m := Eval) true dial.setting .root).values
      .all).run.run dial.memory).1 = .ok ⟨1, [#[1], #[0]]⟩ := by
    obtain ⟨ts, us, vs, ws, hparse⟩ := parse_dial
    rw [dial, load, hparse, Expr.careful_eq_iterate 8]
    cbv
  exact answer_of_careful (q := .values .all) hcareful (by simp)

theorem marks_without_shape :
    (dial.shape "marks").1 = .error ⟨.recursionLimit 1, ⟨some "marks", ⟨5, 9⟩⟩⟩ := by
  obtain ⟨ts, us, vs, ws, hparse⟩ := parse_dial
  rw [dial, load, hparse]
  cbv

/-- The marks have a value but no shape; under higher limits they have both. -/
theorem shape_marks_of_dial :
    (dial.evaluate "marks" .all).1 = .ok ⟨1, [#[1], #[0]]⟩ ∧
      (dial.shape "marks").1 = .error ⟨.recursionLimit 1, ⟨some "marks", ⟨5, 9⟩⟩⟩ ∧
      ∃ N, ∀ n ≥ N, ((dial.within n).shape "marks").1 = .ok ⟨1, 2⟩ := by
  obtain ⟨hasked, hvalue⟩ := marks_of_dial
  rcases answers_within_higher_limits dial_reached dial_dependenciesKnown hvalue [0] with
    ⟨-, hrefused⟩ | ⟨-, -, N, hN⟩
  · exact absurd hrefused hasked
  · exact ⟨hvalue, marks_without_shape, N, fun n hn => (hN n hn).1⟩

end Session

end VectorScript
