import VectorScript.Proofs.CheckedEvaluation
import VectorScript.Proofs.Refusals
import VectorScript.Proofs.SettledMemory

/-!
# Scalar reads

A condition, and a bound of a range, is read as one number if its shape says that it is one.  The
shape is found first and the value afterwards, by other ways and maybe with more remembered.  Still
the value is one number, unless a literal with one item is asked for elements of an item that is
empty and has several components.

* `Meaning.ScalarRead`: a meaning is read as one number.
* `Expr.careful_read`: what careful evaluation reads as one number is one number.
* `Session.scalarRead_backed`: the same for evaluation along every run, where careful evaluation
  does not refuse.
-/

namespace VectorScript

open Meaning

/-- Bound values have channels as long as they are, and arguments that wait are written ones. -/
def Scope.Written (filters : Bool) : Scope → Prop
  | .root => True
  | .bind _ v rest => v.Sized (filters = true) ∧ rest.Written filters
  | .defer _ arg outer _ rest =>
    arg.Written filters ∧ outer.Written filters ∧ rest.Written filters

theorem Scope.Written.linked {filters : Bool} {known : String → Option Series} {w : Setting}
    {s : Scope} (h : s.Written filters) : Scope.Linked (.ofUnrolling filters known w) s s := by
  induction s with
  | root => exact .root
  | bind name v rest ih => exact .value h.1 (ih h.2)
  | defer name arg outer owner rest ihouter ih => exact .deferred h.1 (ihouter h.2.1) (ih h.2.2)

theorem Series.eq_scalar_of_shape {v : Series} (h : v.Regular) (hshape : v.shape = .scalar) :
    v = .scalar v.first := by
  obtain ⟨length, channels⟩ := v
  obtain ⟨rfl, hdimension⟩ : length = 1 ∧ channels.length = 1 := Shape.mk.inj hshape
  obtain ⟨channel, rfl⟩ := List.length_eq_one_iff.mp hdimension
  obtain ⟨x, hx⟩ := Array.size_eq_one_iff.mp (h channel List.mem_cons_self)
  subst hx
  rfl

/-- A meaning is read as one number: its shape is found to be that of one number, and its full value
after that. -/
structure Meaning.ScalarRead (a : Meaning Eval) (μ μ₁ μ₂ : Memory) (v : Series) : Prop where
  shape : a.shape.run.run μ = (.ok .scalar, μ₁)
  value : (a.values .all).run.run μ₁ = (.ok v, μ₂)

namespace Meaning

/-- What a condition decides that is one number. -/
def decided (c : Float32) (consequent alternative : Meaning Eval) : Meaning Eval :=
  if c.isNaN then after do return nan (← consequent.shape)
  else if c != 0 then consequent
  else alternative

/-- A read by what both requests answer. -/
theorem exists_scalarRead {a : Meaning Eval} {μ : Memory} {t : Shape}
    (hshape : (a.shape.run.run μ).1.toOption = some .scalar)
    (hvalue : ((a.values .all).run.run (a.shape.run.run μ).2).1.toOption.map Series.shape =
      some t) : ∃ μ₁ μ₂ v, a.ScalarRead μ μ₁ μ₂ v ∧ v.shape = t := by
  rcases hs : a.shape.run.run μ with ⟨r, μ₁⟩
  rw [hs] at hshape hvalue
  rcases hv : (a.values .all).run.run μ₁ with ⟨r', μ₂⟩
  rw [hv] at hvalue
  cases r with
  | error e => cases hshape
  | ok s =>
    cases r' with
    | error e => cases hvalue
    | ok v =>
      obtain rfl : s = .scalar := Option.some.inj hshape
      exact ⟨μ₁, μ₂, v, ⟨hs, hv⟩, Option.some.inj hvalue⟩

namespace ScalarRead

variable {a : Meaning Eval} {μ μ₁ μ₂ : Memory} {v : Series}

/-- A bound of a range is the number that is read. -/
theorem run_bound (h : a.ScalarRead μ μ₁ μ₂ v) (site : Site) :
    (bound site a).run.run μ = (.ok v.first, μ₂) := by
  show (a.shape >>= _ : Eval Float32).run.run μ = _
  rw [run_bind, h.shape]
  show (a.values .all >>= _ : Eval Float32).run.run μ₁ = _
  rw [run_bind, h.value]
  rfl

/-- A condition decides by the number that is read. -/
theorem run_conditional (h : a.ScalarRead μ μ₁ μ₂ v) (site : Site)
    (consequent alternative : Meaning Eval) (selection : Selection) :
    ((conditional site consequent a alternative).values selection).run.run μ =
      ((decided v.first consequent alternative).values selection).run.run μ₂ := by
  show ((a.shape >>= _) >>= _ : Eval Series).run.run μ = _
  rw [run_bind, run_bind, h.shape]
  simp only [↓reduceIte, run_bind, h.value, decided]
  split_ifs
  · simp only [after, run_bind]
  · rfl
  · rfl

end ScalarRead

end Meaning

/-- What careful evaluation reads as one number is one number. -/
theorem Expr.careful_read {filters : Bool} {w : Setting} {ctx : Context} {e : Expr}
    {μ μ₁ μ₂ : Memory} {v : Series} (hw : w.Written filters)
    (hscope : ctx.scope.Written filters) (he : e.Written filters)
    (hμ : ∀ name u, μ.cache.find? name = some u → u.Sized (filters = true))
    (hread : (e.careful filters w ctx).ScalarRead μ μ₁ μ₂ v) : v = .scalar v.first := by
  have hmatches := careful_matches hw hμ ctx e
  have hagrees : Agrees μ.cache.find? (settled filters μ.cache.find? w) μ.cache :=
    ⟨fun hfind => settled_of_known (hμ _ _ hfind) hfind, fun hfind => hfind⟩
  obtain ⟨hagrees', hshape⟩ := hmatches.shape μ hagrees
  rw [hread.shape] at hagrees' hshape
  obtain ⟨-, hvalue⟩ := hmatches.values .all μ₁ hagrees'
  rw [hread.value] at hvalue
  have hforetells := foretells_careful hw hμ ctx e ctx ⟨rfl, hscope.linked⟩ he 0
  have hv := (hforetells.all (hvalue v rfl)).1
  exact Series.eq_scalar_of_shape hv.regular
    (hforetells.shape_eq_of_all (hshape _ rfl) (hvalue v rfl)).symm

/-- What careful evaluation reads is read. -/
theorem Meaning.ScalarRead.of_careful {checks : Bool} {w : Setting} {ctx : Context} {e : Expr}
    {μ μ₁ μ₂ : Memory} {v : Series} (h : (e.careful checks w ctx).ScalarRead μ μ₁ μ₂ v) :
    (e.meaning w ctx).ScalarRead μ μ₁ μ₂ v := by
  have hcareful : Simulation.refusing.Matches (e.careful checks w ctx) (e.meaning w ctx) :=
    Expr.careful_or_refused ctx e
  have hshape := hcareful.shape.of_not_refused (not_refused_of_ok h.shape)
  have hvalue := (hcareful.values .all).of_not_refused (not_refused_of_ok h.value)
  exact ⟨hshape.symm.trans h.shape, hvalue.symm.trans h.value⟩

namespace Session

variable {s : Session}

/-- Declared statements have the property of the statements of a run. -/
theorem Reachable.declared {p : Statement → Prop} (h : s.Reachable p) :
    ∀ {name st}, s.declarations.find? name = some st → p st := by
  induction h with
  | load h => exact fun hfind => h _ (mem_parseScript_of_find? hfind)
  | @perform s h op hdefine ih =>
    cases op with
    | define st =>
      show ∀ {name st'}, (s.update st).2.declarations.find? name = some st' → p st'
      rcases h.indexed.update_cases st with ⟨e, hupdate, -⟩ | ⟨-, hupdate⟩ | ⟨name, -, hupdate⟩ <;>
        rw [hupdate]
      · exact ih
      · exact ih
      · exact NameTable.forall_insert (fun _ _ => ih) name (hdefine st rfl).2 _ _
    | _ => exact ih

/-- Whatever is read as one number along a run is one number: it has the element that is read, and
no others.  A bound of a range is that number, and a condition decides by it.  There is an exception
only where comprehensions have conditions: the only item of a literal was found to be empty but to
have several components, which careful evaluation refuses.  The scope and the memory may hold any
series whose channels are as long as it is, and no longer than 64 bits can count. -/
theorem scalarRead_backed {filters : Bool} (h : s.Reachable fun st => filters = false → st.whenFree)
    {ctx : Context} (hscope : ctx.scope.Written filters) {e : Expr} (he : e.Written filters)
    {μ μ₁ μ₂ : Memory}
    (hμ : ∀ name u, μ.cache.find? name = some u → u.Sized (filters = true)) {v : Series}
    (hread : (e.meaning s.setting ctx).ScalarRead μ μ₁ μ₂ v) :
    (v = .scalar v.first ∨ filters = true ∧
      (Refused (e.careful true s.setting ctx).shape μ ∨
        Refused ((e.careful true s.setting ctx).values .all) μ₁)) ∧
    (∀ site, (bound (m := Eval) site (e.meaning s.setting ctx)).run.run μ = (.ok v.first, μ₂)) ∧
    ∀ site consequent alternative selection,
      ((conditional (m := Eval) site consequent (e.meaning s.setting ctx) alternative).values
        selection).run.run μ =
          ((decided v.first consequent alternative).values selection).run.run μ₂ := by
  refine ⟨?_, hread.run_bound, hread.run_conditional⟩
  have hw : s.setting.Written filters :=
    ⟨fun name st hfind => ⟨h.formed.declarations name st hfind, h.declared hfind⟩⟩
  cases filters with
  | false =>
    rw [← Expr.careful_false] at hread
    exact .inl (Expr.careful_read hw hscope he hμ hread)
  | true =>
    have hcareful : Simulation.refusing.Matches (e.careful true s.setting ctx) _ :=
      Expr.careful_or_refused ctx e
    rcases hcareful.shape.or_refused μ with hshape | hrefused
    · rcases (hcareful.values .all).or_refused μ₁ with hvalue | hrefused
      · have hread : (e.careful true s.setting ctx).ScalarRead μ μ₁ μ₂ v :=
          ⟨hshape.trans hread.shape, hvalue.trans hread.value⟩
        exact .inl (Expr.careful_read hw hscope he hμ hread)
      · exact .inr ⟨rfl, .inr hrefused⟩
    · exact .inr ⟨rfl, .inl hrefused⟩

/-- The session of an empty script. -/
def blank : Session := (load "").1

/-- A call whose argument `[i for i = [scale] when time]` waits under the name `none`; it is empty
while the time is zero. -/
def noneDeferred : Context where
  scope := .defer "none" (.filtered (reference "i") "i" (.array [reference "scale"] .none)
    (reference "time") .none) .root none .root
  owner := none
  depth := 0
  opened := []

/-- The expression `[name[none]][time]`. -/
def firstOfNone (name : String) : Expr :=
  .index (.array [.index (reference name) (reference "none") .none] .none) (reference "time") .none

/-- Of the rotation the shape is that of one number, but the value has four components. -/
theorem read_firstOfNone_rotation : ∃ μ₁ μ₂ v,
    ((firstOfNone "rotation").meaning blank.setting noneDeferred).ScalarRead blank.memory μ₁ μ₂ v ∧
      v.shape = ⟨1, 4⟩ := by
  rw [← Expr.careful_false, Expr.careful_eq_iterate 8]
  exact Meaning.exists_scalarRead (by decide +kernel) (by decide +kernel)

/-- Of the scale the value has one component, and careful evaluation reads it too. -/
theorem careful_firstOfNone_scale : ∃ μ₁ μ₂ v,
    ((firstOfNone "scale").careful true blank.setting noneDeferred).ScalarRead blank.memory
      μ₁ μ₂ v ∧ v.shape = ⟨1, 1⟩ := by
  rw [Expr.careful_eq_iterate 8]
  exact Meaning.exists_scalarRead (by decide +kernel) (by decide +kernel)

/-- Of the scale the value is one number.  Of the rotation it is not, so careful evaluation refuses
it. -/
theorem read_firstOfNone :
    (∃ μ₁ μ₂ v,
      ((firstOfNone "scale").meaning blank.setting noneDeferred).ScalarRead blank.memory μ₁ μ₂ v ∧
        v = .scalar v.first) ∧
    ∃ μ₁ μ₂ v,
      ((firstOfNone "rotation").meaning blank.setting noneDeferred).ScalarRead blank.memory
        μ₁ μ₂ v ∧ v.shape = ⟨1, 4⟩ ∧
      (Refused ((firstOfNone "rotation").careful true blank.setting noneDeferred).shape
          blank.memory ∨
        Refused (((firstOfNone "rotation").careful true blank.setting noneDeferred).values .all)
          μ₁) := by
  have hreachable : blank.Reachable fun st => true = false → st.whenFree :=
    .load fun _ _ h => nomatch h
  have hscope : noneDeferred.scope.Written true := ⟨⟨rfl, fun h => nomatch h⟩, trivial, trivial⟩
  have hwritten : ∀ name, (firstOfNone name).Written true := fun _ => ⟨rfl, fun h => nomatch h⟩
  have hmemory : ∀ name u, blank.memory.cache.find? name = some u → u.Sized (true = true) := by
    rw [blank, memory_load]
    nofun
  constructor
  · obtain ⟨μ₁, μ₂, v, hcareful, -⟩ := careful_firstOfNone_scale
    have hread := hcareful.of_careful
    refine ⟨μ₁, μ₂, v, hread, ?_⟩
    rcases (scalarRead_backed hreachable hscope (hwritten _) hmemory hread).1 with
      hv | ⟨-, hrefused | hrefused⟩
    · exact hv
    · exact absurd hrefused (not_refused_of_ok hcareful.shape)
    · exact absurd hrefused (not_refused_of_ok hcareful.value)
  · obtain ⟨μ₁, μ₂, v, hread, hshape⟩ := read_firstOfNone_rotation
    refine ⟨μ₁, μ₂, v, hread, hshape, ?_⟩
    rcases (scalarRead_backed hreachable hscope (hwritten _) hmemory hread).1 with
      hv | ⟨-, hrefused⟩
    · rw [hv] at hshape
      cases hshape
    · exact hrefused

end Session

end VectorScript
