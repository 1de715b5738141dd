import VectorScript.Proofs.SessionRuns

/-!
# Partial requests

A request for some elements, or for the shape, is answered in another way than one for the whole
series: it may leave out parts of the expression, and the arguments of functions are evaluated where
they are read.  Along every run of a session it has the answer that the whole series has, unless it
reaches a limit that the request for the whole series does not reach.

* `Series.SelectedFrom`: a series holds the elements of another one at some indices.
* `Session.Sound.settlesFully`: a value that was found fixes the answers to all requests.
-/

namespace VectorScript

open Filter Meaning

/-- `w` holds the elements of `v` at the indices `S`, in this order.  At an index out of range there
is an element without numbers. -/
structure Series.SelectedFrom (w v : Series) (S : List Int) : Prop where
  regular : w.Regular
  length : w.length = S.length
  dimension : w.dimension = v.dimension
  read : ∀ (k : Nat) (hk : k < S.length) (c : Nat),
    w.read k c = if inRange v.length S[k] then v.read S[k] c else Scalar.nan

theorem Series.selectedFrom_gather {v : Series} (h : v.Regular) (S : List Int) :
    (v.gather S).SelectedFrom v S where
  regular := regular_gather v S
  length := length_gather v S
  dimension := dimension_gather v S
  read k hk c := by
    rw [read_gather_getElem v hk]
    split_ifs with hrange
    · rfl
    · exact read_of_not_inRange h hrange c

namespace Session

variable {filters : Bool} {s : Session} {e : Expr} {v : Series}

/-- What careful evaluation gives unless it reaches a limit is given without care. -/
theorem gives_of_careful {α : Type} {x y : Eval α} {a : α} (h : SameUnless (· = .refusal) x y)
    (hx : GivesUnlessLimited (s.run x).1 a) : GivesUnlessLimited (s.run y).1 a := by
  have hrefused : ¬ Refused x s.memory := by
    rintro ⟨μ, hrun⟩
    have hanswer : (s.run x).1 = .error .refusal := congrArg Prod.fst hrun
    rw [hanswer] at hx
    rcases hx with hx | ⟨err, herr, hresource⟩
    · cases hx
    · cases herr
      cases hresource
  rwa [← run_of_not_refused h hrefused]

/-- What a session answers to a request for the whole series is a series on which careful evaluation
without a memory settles, unless the request is refused. -/
theorem Sound.settlesFully (h : s.Sound filters) (hknown : s.DependenciesKnown)
    (he : e.Written filters) (hrefuses : filters = true → ¬ s.RefusesAnswer e (.values .all))
    (hv : (s.evaluateExpr e .all).1 = .ok v) : v.Sized (filters = true) ∧
      SettlesFully (fun n => e.careful filters (s.setting.within n) .root) v := by
  have hlasts := h.lasts hknown e (.values .all)
  have hv : (s.answer e (.values .all)).1 = .ok v := hv
  rw [run_careful hrefuses, hv] at hlasts
  obtain ⟨n, hn⟩ := hlasts.eventually_ok.exists
  refine (Expr.foretells_guarded (K := fun _ => true) (Setting.continuedBy_within h.written n) .root
    e .root ⟨rfl, .root⟩ he ⟨fun x _ => ⟨h.acyclic hknown x, ?_⟩, trivial⟩).all hn
  simp [Declarations.Avoids, Context.root]

/-- So every question is answered as the series answers it. -/
theorem Sound.gives (h : s.Sound filters) (hknown : s.DependenciesKnown) (he : e.Written filters)
    (hrefuses : filters = true → ¬ s.RefusesAnswer e (.values .all))
    (hv : (s.evaluateExpr e .all).1 = .ok v) {α : Type} (q : Question α) :
    GivesUnlessLimited (s.answer e q).1 (q.of v) := by
  obtain ⟨-, hsettles⟩ := h.settlesFully hknown he hrefuses hv
  exact gives_of_careful ((Expr.careful_or_refused .root e).ask q)
    ((h.lasts hknown e q).givesUnlessLimited (hsettles.ask q))

theorem Sound.gives_elements (h : s.Sound false) (hknown : s.DependenciesKnown)
    (he : e.Written false) (hv : (s.evaluateExpr e .all).1 = .ok v) (S : List Int) :
    (v.gather S).SelectedFrom v S ∧
      GivesUnlessLimited (s.evaluateExpr e (.at S)).1 (v.gather S) := by
  obtain ⟨hsized, -⟩ := h.settlesFully hknown he nofun hv
  exact ⟨Series.selectedFrom_gather hsized.regular S, h.gives hknown he nofun hv (.values (.at S))⟩

/-- A request for some elements is answered with those of the whole series. -/
theorem evaluate_at_of_evaluate_all (h : s.Reachable fun st => st.whenFree)
    (hknown : s.DependenciesKnown) :
    (∀ e : Expr, e.wellFormed → e.whenFree → ∀ v, (s.evaluateExpr e .all).1 = .ok v →
      ∀ S, (v.gather S).SelectedFrom v S ∧
        GivesUnlessLimited (s.evaluateExpr e (.at S)).1 (v.gather S)) ∧
    ∀ name v, (s.evaluate name .all).1 = .ok v →
      ∀ S, (v.gather S).SelectedFrom v S ∧
        GivesUnlessLimited (s.evaluate name (.at S)).1 (v.gather S) :=
  ⟨fun _ hform hfree _ hv => h.sound.gives_elements hknown ⟨hform, fun _ => hfree⟩ hv,
    fun _ _ hv => h.sound.gives_elements hknown ⟨rfl, fun _ => rfl⟩ hv⟩

theorem frame_of_outline :
    (outline.evaluate "frame" .all).1 = .ok ⟨3, [#[1, 1, 0], #[1, 1, 0]]⟩ := by
  obtain ⟨ts, us, vs, hparse⟩ := parse_outline
  rw [outline, load, hparse]
  cbv

/-- The frame from its last point to its first, and once past each end. -/
theorem frame_of_outline_reversed :
    let frame : Series := ⟨3, [#[1, 1, 0], #[1, 1, 0]]⟩
    (outline.evaluate "frame" .all).1 = .ok frame ∧
      (frame.gather [3, 2, 1, 0, -1]).SelectedFrom frame [3, 2, 1, 0, -1] ∧
      GivesUnlessLimited (outline.evaluate "frame" (.at [3, 2, 1, 0, -1])).1
        (frame.gather [3, 2, 1, 0, -1]) :=
  ⟨frame_of_outline, (evaluate_at_of_evaluate_all outline_reachable
    outline_dependenciesKnown).2 "frame" _ frame_of_outline [3, 2, 1, 0, -1]⟩

/-- A request for the shape is answered with that of the whole series. -/
theorem shape_of_evaluate_all (h : s.Reachable fun st => st.whenFree)
    (hknown : s.DependenciesKnown) :
    (∀ e : Expr, e.wellFormed → e.whenFree → ∀ v, (s.evaluateExpr e .all).1 = .ok v →
      GivesUnlessLimited (s.exprShape e).1 ⟨v.length, v.dimension⟩) ∧
    ∀ name v, (s.evaluate name .all).1 = .ok v →
      GivesUnlessLimited (s.shape name).1 ⟨v.length, v.dimension⟩ :=
  ⟨fun _ hform hfree _ hv => h.sound.gives hknown ⟨hform, fun _ => hfree⟩ nofun hv .shape,
    fun _ _ hv => h.sound.gives hknown ⟨rfl, fun _ => rfl⟩ nofun hv .shape⟩

/-- The frame has three points with two components. -/
theorem shape_frame_of_outline :
    (outline.evaluate "frame" .all).1 = .ok ⟨3, [#[1, 1, 0], #[1, 1, 0]]⟩ ∧
      GivesUnlessLimited (outline.shape "frame").1 ⟨3, 2⟩ :=
  ⟨frame_of_outline, (shape_of_evaluate_all outline_reachable outline_dependenciesKnown).2
    "frame" _ frame_of_outline⟩

end Session

end VectorScript
