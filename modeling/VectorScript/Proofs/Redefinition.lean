import Mathlib
import VectorScript.Proofs.SessionUpdates

/-!
# Redefinition

A definition is taken up if the search from the new declaration succeeds.  A variable is then free
of cycles.  The search lets a function come back to itself, so a function may be taken up through
which a variable leads back to itself; all new cycles are of this kind.

* `Declarations.reaches_insert`: a new way leads through the new declaration.
* `Session.reaches_self_iff_of_define`: which variables depend on themselves after a definition.
-/

namespace VectorScript

open Relation

/-! ### One declaration changes -/

namespace Declarations

variable {ds : Declarations} {u x y : String} {st : Statement}

/-- What is read between other declarations is as before. -/
theorem reads_of_insert (hx : x ≠ u) (hy : y ≠ u) (h : Reads (ds.insert u st) x y) :
    ds.Reads x y := by
  obtain ⟨st', hfind, hmem⟩ := h
  rw [NameTable.find?_insert, if_neg hx] at hfind
  have hcontains : (ds.insert u st).contains y → ds.contains y := fun h => by
    rwa [NameTable.contains_insert_of_ne hy] at h
  exact ⟨st', hfind, Statement.reads_mono hcontains hmem⟩

/-- A way that was not there before leads through the new declaration. -/
theorem reaches_insert (h : Reaches (ds.insert u st) x y) :
    ds.Reaches x y ∨ ReflTransGen (Reads (ds.insert u st)) x u ∧
      ReflTransGen (Reads (ds.insert u st)) u y := by
  induction h with
  | @single y hxy =>
    by_cases hx : x = u
    · subst hx
      exact .inr ⟨.refl, .single hxy⟩
    by_cases hy : y = u
    · subst hy
      exact .inr ⟨.single hxy, .refl⟩
    exact .inl (.single (reads_of_insert hx hy hxy))
  | @tail y z hxy hyz ih =>
    rcases ih with hold | ⟨hxu, huy⟩
    · by_cases hy : y = u
      · subst hy
        exact .inr ⟨hxy.to_reflTransGen, .single hyz⟩
      by_cases hz : z = u
      · subst hz
        exact .inr ⟨(hxy.tail hyz).to_reflTransGen, .refl⟩
      exact .inl (hold.tail (reads_of_insert hy hz hyz))
    · exact .inr ⟨hxu, huy.tail hyz⟩

theorem isVariable_of_insert (hx : x ≠ u) (h : IsVariable (ds.insert u st) x) :
    ds.IsVariable x := by
  obtain ⟨st', hfind, hvar⟩ := h
  rw [NameTable.find?_insert, if_neg hx] at hfind
  exact ⟨st', hfind, hvar⟩

/-- A new cycle of another declaration leads through the new one. -/
theorem reaches_self_insert (hx : x ≠ u) (h : Reaches (ds.insert u st) x x) :
    ds.Reaches x x ∨ Reaches (ds.insert u st) x u ∧ Reaches (ds.insert u st) u x := by
  refine (reaches_insert h).imp_right fun ⟨hxu, hux⟩ => ⟨?_, ?_⟩
  · exact (reflTransGen_iff_eq_or_transGen.mp hxu).resolve_left fun heq => hx heq.symm
  · exact (reflTransGen_iff_eq_or_transGen.mp hux).resolve_left hx

end Declarations

/-! ### Definitions -/

namespace Session

variable {s s' : Session} {st : Statement}

/-- If no variable depended on itself, a definition that is taken up makes exactly those variables
depend on themselves that lead to the function it declares and are reached from there.  So a
variable or a render statement makes no cycle. -/
theorem reaches_self_iff_of_define
    (h : ∀ x, s.declarations.IsVariable x → ¬ s.declarations.Reaches x x)
    (hdefine : s.define st = .ok s') {x : String} (hx : s'.declarations.IsVariable x) :
    s'.declarations.Reaches x x ↔ ∃ f, st.name? = some f ∧ st.isFunction ∧
      s'.declarations.Reaches x f ∧ s'.declarations.Reaches f x := by
  constructor
  · intro hcycle
    rcases define_eq_ok hdefine with ⟨-, rfl⟩ | ⟨u, found, hname, hkind, hfound, rfl⟩
    · exact absurd hcycle (h x hx)
    have hds : ((s.replace u st).invalidate u).declarations = s.declarations.insert u st := rfl
    rw [hds] at hcycle hx ⊢
    -- the search from the new declaration would have met the cycle of a variable
    have hfunction : Declarations.Reaches (s.declarations.insert u st) u u → st.isFunction := by
      intro hself
      refine hkind.resolve_left fun hvar => ?_
      exact Dependency.not_reaches_self hfound ⟨st, NameTable.find?_insert_self _ _ _, hvar⟩ hself
    by_cases hxu : x = u
    · subst hxu
      exact absurd hcycle (Dependency.not_reaches_self hfound hx)
    · rcases Declarations.reaches_self_insert hxu hcycle with hold | ⟨hto, hfrom⟩
      · exact absurd hold (h x (Declarations.isVariable_of_insert hxu hx))
      · exact ⟨u, hname, hfunction (hfrom.trans hto), hto, hfrom⟩
  · rintro ⟨f, -, -, hto, hfrom⟩
    exact hto.trans hfrom

/-- The width of something goes through a function. -/
def gauge : Session := (load "scaled(x) = x; width = scaled(scale)").1

/-- The function reads the width. -/
def scaledByWidth : Statement := (parseScript "scaled(x) = width").headD default

def selfScaled : Session := (gauge.replace "scaled" scaledByWidth).invalidate "scaled"

set_option maxRecDepth 4000 in
theorem parse_gauge : ∃ ts us, parseScript "scaled(x) = x; width = scaled(scale)" =
    [⟨.function "scaled" ["x"] (.identifier "x" ⟨5, 6⟩), ts⟩,
      ⟨.variable "width" (.call "scaled" [.identifier "scale" ⟨4, 5⟩] ⟨2, 6⟩), us⟩] :=
  ⟨_, _, by cbv⟩

theorem scaledByWidth_eq : ∃ ts, scaledByWidth =
    ⟨.function "scaled" ["x"] (.identifier "width" ⟨5, 6⟩), ts⟩ :=
  ⟨_, by cbv⟩

theorem define_gauge : gauge.define scaledByWidth = .ok selfScaled := by
  obtain ⟨ts, us, hparse⟩ := parse_gauge
  obtain ⟨vs, hstatement⟩ := scaledByWidth_eq
  have hsearch : ∃ found, Dependency.ofDeclaration
      (gauge.declarations.insert "scaled" scaledByWidth) "scaled" = .ok found := by
    rw [gauge, load, hparse, hstatement]
    exact ⟨_, by cbv⟩
  have hkind : scaledByWidth.kind = .function "scaled" ["x"] (.identifier "width" ⟨5, 6⟩) := by
    rw [hstatement]
  obtain ⟨found, hfound⟩ := hsearch
  simp only [define, update, hkind, declare_of_found hfound]
  rfl

/-- The function is taken up, and the width depends on itself through the function. -/
theorem width_of_selfScaled :
    (∀ x, gauge.declarations.IsVariable x → ¬ gauge.declarations.Reaches x x) ∧
      gauge.define scaledByWidth = .ok selfScaled ∧ selfScaled.declarations.IsVariable "width" ∧
      selfScaled.declarations.Reaches "width" "width" := by
  obtain ⟨ts, us, hparse⟩ := parse_gauge
  obtain ⟨vs, hstatement⟩ := scaledByWidth_eq
  have hbefore : ∀ x, gauge.declarations.IsVariable x → ¬ gauge.declarations.Reaches x x := by
    refine fun x => Dependency.not_reaches_self_of_searched (Dependency.searched_of_all ?_)
    rw [gauge, load, hparse]
    cbv
  have hwidth : (selfScaled.declarations.find? "width").any fun st =>
      st.isVariable && decide ("scaled" ∈ st.reads selfScaled.declarations) := by
    rw [selfScaled, gauge, load, hparse, hstatement]
    cbv
  have hscaled : (selfScaled.declarations.find? "scaled").any fun st =>
      decide ("width" ∈ st.reads selfScaled.declarations) := by
    rw [selfScaled, gauge, load, hparse, hstatement]
    cbv
  simp only [Option.any_eq_true, Bool.and_eq_true, decide_eq_true_eq] at hwidth hscaled
  obtain ⟨st, hfind, hvar, hto⟩ := hwidth
  obtain ⟨st', hfind', hfrom⟩ := hscaled
  refine ⟨hbefore, define_gauge, ⟨st, hfind, hvar⟩, ?_⟩
  have hname : scaledByWidth.name? = some "scaled" := by rw [hstatement]; rfl
  have hfunction : scaledByWidth.isFunction := by rw [hstatement]; rfl
  exact (reaches_self_iff_of_define hbefore define_gauge ⟨st, hfind, hvar⟩).mpr
    ⟨"scaled", hname, hfunction, .single ⟨st, hfind, hto⟩, .single ⟨st', hfind', hfrom⟩⟩

end Session

end VectorScript
