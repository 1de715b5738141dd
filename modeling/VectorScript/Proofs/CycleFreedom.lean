import VectorScript.Proofs.GraphLaws
import VectorScript.Proofs.SimulationMemory

/-!
# Freedom from cycles

Evaluation notices a cycle when it is asked for a variable whose body it is evaluating.  This does
not happen if the search for dependencies succeeds from every declaration: along every evaluation
all open variables lead to whatever is read next, so that an open variable that is asked for again
leads back to itself.

* `AnswerRelation.withoutCycle`: answers that do not speak of a cycle.
* `Session.answers_withoutCycle`: no request is answered with a cycle.
-/

namespace VectorScript

/-- The answer does not say that a variable depends on itself. -/
abbrev WithoutCycle {α : Type} (x : Except EvalError α) : Prop :=
  FailsOnly (fun e => e.cause.isCycle = false) x

/-- Answers that do not speak of a cycle. -/
def AnswerRelation.withoutCycle : AnswerRelation := .failsOnly fun e => e.cause.isCycle = false

/-- If no variable leads back to itself, no expression speaks of a cycle, whatever is remembered. -/
theorem Expr.carries_withoutCycle {w : Setting}
    (h : ∀ x, w.declarations.IsVariable x → ¬ w.declarations.Reaches x x) :
    (Simulation.withMemory (fun _ => True) .withoutCycle).Carries w fun ctx e =>
      e.ReadsWithin w.declarations (w.declarations.OpenTo ctx.opened) ctx.scope where
  step he hleads := he.openTo_of_leads hleads
  site _ _ hcause := hcause
  reopen he hfree hvar hopen := absurd (he.name hfree _ hopen).2 (h _ hvar)
  remember _ _ _ _ _ hbody := hbody.ofVariable_of_insert fun _ _ _ _ => trivial
  recalled _ _ hdeclared := hdeclared.recalledOr fun _ _ _ _ => ⟨.ok _, fun _ => .ok _⟩

namespace Session

variable {s : Session}

theorem matches_withoutCycle
    (h : ∀ x, s.declarations.IsVariable x → ¬ s.declarations.Reaches x x) (e : Expr) :
    (Simulation.withMemory (fun _ => True) .withoutCycle).Matches (s.meaning e)
      (e.meaning s.setting .root) :=
  (Expr.carries_withoutCycle (w := s.setting) h).matches .root e
    ⟨fun _ _ => Declarations.openTo_nil, trivial⟩

/-- If the search for dependencies succeeds from every declaration, no request is answered with a
cycle: neither an expression, a name, a render statement nor a text, whatever is asked of it,
whatever is remembered and whatever the limits are. -/
theorem answers_withoutCycle
    (h : ∀ name, s.declarations.contains name →
      ∃ found, Dependency.ofDeclaration s.declarations name = .ok found) :
    (∀ e selection, WithoutCycle (s.evaluateExpr e selection).1) ∧
    (∀ e, WithoutCycle (s.exprShape e).1) ∧
    (∀ name selection, WithoutCycle (s.evaluate name selection).1) ∧
    (∀ name, WithoutCycle (s.shape name).1) ∧
    (∀ index selection r, s.evaluateRender index selection = some r → WithoutCycle r.1) ∧
    ∀ source, FailsOnly (fun failure => ∀ e, failure = .evaluation e → e.cause.isCycle = false)
      (s.evaluateSource source).1 := by
  have hacyclic : ∀ x, s.declarations.IsVariable x → ¬ s.declarations.Reaches x x := fun x =>
    Dependency.not_reaches_self_of_searched h
  have hvalues : ∀ e selection, WithoutCycle (s.evaluateExpr e selection).1 := fun e selection =>
    ((matches_withoutCycle hacyclic e).values selection s.memory trivial).2
  have hshape : ∀ e, WithoutCycle (s.exprShape e).1 := fun e =>
    ((matches_withoutCycle hacyclic e).shape s.memory trivial).2
  refine ⟨hvalues, hshape, fun name => hvalues _, fun name => hshape _, ?_, fun source => ?_⟩
  · intro index selection r hr
    obtain ⟨st, -, hr⟩ := Option.bind_eq_some_iff.mp hr
    obtain ⟨body, -, hr⟩ := Option.bind_eq_some_iff.mp hr
    cases hr
    exact hvalues body selection
  · intro failure hfailure e he
    subst he
    cases hread : readExpr source with
    | error e' =>
      simp only [evaluateSource, hread] at hfailure
      cases hfailure
    | ok body =>
      have hbody := hvalues body .all
      simp only [evaluateSource, hread] at hfailure
      cases hanswer : (s.evaluateExpr body .all).1 with
      | ok v =>
        rw [hanswer] at hfailure
        cases hfailure
      | error e' =>
        rw [hanswer] at hfailure
        cases hfailure
        exact hbody e hanswer

/-- A curve that turns without end, until the depth is used up. -/
def spiral : Session :=
  { (load "start = turn(step); turn(p) = turn(p.yx); step = position.xy; point start").1 with
    limits := ⟨8, 3⟩ }

set_option maxRecDepth 4000 in
theorem parse_spiral : ∃ ts us vs ws,
    parseScript "start = turn(step); turn(p) = turn(p.yx); step = position.xy; point start" =
      [⟨.variable "start" (.call "turn" [.identifier "step" ⟨4, 5⟩] ⟨2, 6⟩), ts⟩,
        ⟨.function "turn" ["p"] (.call "turn" [.swizzle (.identifier "p" ⟨7, 8⟩) "yx" ⟨7, 10⟩]
          ⟨5, 11⟩), us⟩,
        ⟨.variable "step" (.swizzle (.identifier "position" ⟨2, 3⟩) "xy" ⟨2, 5⟩), vs⟩,
        ⟨.render .points (.identifier "start" ⟨1, 2⟩), ws⟩] :=
  ⟨_, _, _, _, by cbv⟩

theorem spiral_searched : ∀ name, spiral.declarations.contains name →
    ∃ found, Dependency.ofDeclaration spiral.declarations name = .ok found := by
  refine Dependency.searched_of_all ?_
  obtain ⟨ts, us, vs, ws, hparse⟩ := parse_spiral
  rw [spiral, load, hparse]
  cbv

/-- The curve has no value, but not because of a cycle. -/
theorem start_of_spiral :
    (∀ name, spiral.declarations.contains name →
      ∃ found, Dependency.ofDeclaration spiral.declarations name = .ok found) ∧
    (spiral.evaluate "start" .all).1 = .error ⟨.recursionLimit 3, ⟨some "turn", ⟨5, 11⟩⟩⟩ ∧
    WithoutCycle (spiral.evaluate "start" .all).1 := by
  refine ⟨spiral_searched, ?_, (answers_withoutCycle spiral_searched).2.2.1 "start" .all⟩
  obtain ⟨ts, us, vs, ws, hparse⟩ := parse_spiral
  rw [spiral, load, hparse]
  cbv

end Session

end VectorScript
