import Mathlib
import VectorScript.Proofs.DependencySearch
import VectorScript.Proofs.EvaluationCases
import VectorScript.Session

/-!
# Noninterference

A request reads no declaration and no animated constant outside the names that the dependency
search finds.  Two settings that agree on a set of names closed under reading give equal meanings
to every expression that reads within the set, so replacing other declarations and moving other
constants changes no outcome.
-/

namespace VectorScript

/-! ### Settings that agree -/

/-- The constants of a set of names have the same values under two animations. -/
structure Animation.AgreeOn (R : String → Prop) (a b : Animation) : Prop where
  time : R "time" → a.time = b.time
  position : R "position" → a.position = b.position
  scale : R "scale" → a.scale = b.scale
  rotation : R "rotation" → a.rotation = b.rotation

/-- The declarations and constants of a set of names are the same in two settings, and reading a
declaration of the set does not leave the set. -/
structure Setting.AgreeOn (R : String → Prop) (w w' : Setting) : Prop where
  find? : ∀ x, R x → w.declarations.find? x = w'.declarations.find? x
  constant? : ∀ x, R x → w.declarations.find? x = none →
    Catalog.constant? w.animation x = Catalog.constant? w'.animation x
  closed : ∀ x, R x → ∀ y, w.declarations.Reads x y → R y

/-- Two settings that cannot be told apart by reading names of a set. -/
structure Setting.SameOn (R : String → Prop) (w w' : Setting) : Prop extends w.AgreeOn R w' where
  contains : ∀ x, w.declarations.contains x = w'.declarations.contains x
  limits : w.limits = w'.limits

theorem Animation.AgreeOn.constant? {R : String → Prop} {a b : Animation} (h : a.AgreeOn R b)
    {name : String} (hname : R name) : Catalog.constant? a name = Catalog.constant? b name := by
  unfold Catalog.constant?
  split
  case h_5 => rw [h.time hname]
  case h_6 => rw [h.position hname]
  case h_7 => rw [h.scale hname]
  case h_8 => rw [h.rotation hname]
  all_goals rfl

/-! ### Meanings -/

namespace Expr

mutual

theorem shapeMayVary_congr {ds ds' : Declarations} (h : ∀ x, ds.contains x = ds'.contains x) :
    ∀ e : Expr, e.shapeMayVary ds = e.shapeMayVary ds'
  | constant .. | identifier .. | conditional .. | range .. | comprehension .. | filtered .. => by
    simp only [shapeMayVary]
  | vector items _ | array items _ => by simp only [shapeMayVary, anyShapeMayVary_congr h items]
  | unary _ operand _ => by simp only [shapeMayVary, shapeMayVary_congr h operand]
  | binary _ left right _ => by
    simp only [shapeMayVary, shapeMayVary_congr h left, shapeMayVary_congr h right]
  | index target position _ => by
    simp only [shapeMayVary, shapeMayVary_congr h target, shapeMayVary_congr h position]
  | swizzle target _ _ => by simp only [shapeMayVary, shapeMayVary_congr h target]
  | call name args _ => by simp only [shapeMayVary, h name, anyShapeMayVary_congr h args]

theorem anyShapeMayVary_congr {ds ds' : Declarations}
    (h : ∀ x, ds.contains x = ds'.contains x) :
    ∀ es : List Expr, anyShapeMayVary ds es = anyShapeMayVary ds' es
  | [] => rfl
  | e :: rest => by
    simp only [anyShapeMayVary, shapeMayVary_congr h e, anyShapeMayVary_congr h rest]

end

variable {m : Type → Type} [Answering m] {R : String → Prop} {w w' : Setting}

/-- A call binds as many values as it has arguments. -/
theorem call_congr [LawfulMonad m] {args : List (Meaning m)}
    {applied applied' : List Series → Meaning m} (deferred : Meaning m)
    (h : ∀ values, values.length = args.length → applied values = applied' values) :
    Meaning.call args applied deferred = .call args applied' deferred := by
  unfold Meaning.call
  congr 1
  funext selection
  cases selection with
  | all => exact mapM_bind_congr fun values hlength => by rw [h values hlength]
  | «at» indices => rfl

theorem declaredBy_congr (h : w.AgreeOn R w') {ctx : Context} {name : String} {span : Span}
    (hname : R name)
    (hbody : ∀ st key body, w.declarations.find? name = some st → st.kind = .variable key body →
      name ∉ ctx.opened → body.ReadsWithin w.declarations R .root →
      meaning (m := m) w (ctx.inVariable name) body = meaning w' (ctx.inVariable name) body) :
    declaredBy (m := m) w (meaning w) ctx name span = declaredBy w' (meaning w') ctx name span := by
  have hfind' := h.find? name hname
  cases hfind : w.declarations.find? name with
  | none =>
    rw [declaredBy_undeclared hfind, declaredBy_undeclared (hfind' ▸ hfind)]
    simp only [Meaning.ofUndeclared, h.constant? name hname hfind]
  | some st =>
    by_cases hvar : st.isVariable
    · obtain ⟨key, body, hkind⟩ := Statement.isVariable_iff.mp hvar
      by_cases hopen : name ∈ ctx.opened
      · rw [declaredBy_open hfind hkind hopen,
          declaredBy_open (hfind' ▸ hfind) hkind hopen]
      · rw [declaredBy_variable hfind hkind hopen,
          declaredBy_variable (hfind' ▸ hfind) hkind hopen,
          hbody st key body hfind hkind hopen (.ofVariable hfind hkind (h.closed name hname))]
    · rw [declaredBy_not_variable hfind hvar,
        declaredBy_not_variable (hfind' ▸ hfind) hvar]

/-- Settings that agree on what an expression reads give it one meaning. -/
theorem meaning_congr [LawfulMonad m] (h : w.SameOn R w') (ctx : Context) (e : Expr)
    (he : e.ReadsWithin w.declarations R ctx.scope) :
    meaning (m := m) w ctx e = meaning w' ctx e := by
  -- what is read looks the same in both settings, so both take the same way at every node
  induction ctx, e using induction_on_evaluation w with
  | constant ctx x span =>
    rw [meaning_eq_meaningBy, meaning_eq_meaningBy, meaningBy_constant, meaningBy_constant]
  | bound ctx name span v hbound => rw [meaning_bound hbound, meaning_bound hbound]
  | deferred ctx name span arg outer owner hbound ih =>
    rw [meaning_deferred hbound, meaning_deferred hbound, ih (he.2.of_deferred hbound)]
  | free ctx name span hfree ih =>
    rw [meaning_free hfree, meaning_free hfree,
      declaredBy_congr h.toAgreeOn (he.name hfree) ih]
  | vector ctx items span ih =>
    rw [meaning_eq_meaningBy, meaning_eq_meaningBy, meaningBy_vector, meaningBy_vector,
      List.map_congr_left fun item hitem => by
      rw [ih item hitem (he.vectorItem item hitem)]]
  | array ctx items span ih =>
    rw [meaning_eq_meaningBy, meaning_eq_meaningBy, meaningBy_array, meaningBy_array,
      h.limits, List.map_congr_left fun item hitem => by
      rw [ih item hitem (he.arrayItem item hitem)]]
  | comprehension ctx body binder source span ihsource ihbody =>
    have hbody : (fun v => meaning (m := m) w (ctx.bind binder v) body) =
        fun v => meaning w' (ctx.bind binder v) body :=
      funext fun v => ihbody v (he.body v)
    rw [meaning_eq_meaningBy, meaning_eq_meaningBy, meaningBy_comprehension,
      meaningBy_comprehension]
    simp only [partsBy, comprehensionOf, h.limits, shapeMayVary_congr h.contains body, hbody,
      ihsource he.source]
  | filtered ctx body binder source condition span ihsource ihbody ihcondition =>
    obtain ⟨hsource, hparts⟩ := he.filteredParts
    have hbody : (fun v => meaning (m := m) w (ctx.bind binder v) body) =
        fun v => meaning w' (ctx.bind binder v) body :=
      funext fun v => ihbody v (hparts v).1
    have hcondition : (fun v => meaning (m := m) w (ctx.bind binder v) condition) =
        fun v => meaning w' (ctx.bind binder v) condition :=
      funext fun v => ihcondition v (hparts v).2
    rw [meaning_eq_meaningBy, meaning_eq_meaningBy, meaningBy_filtered, meaningBy_filtered]
    simp only [partsBy, comprehensionOf, h.limits, shapeMayVary_congr h.contains body, hbody,
      hcondition, ihsource hsource]
  | failing ctx name args span hfail =>
    by_cases hbound : ctx.scope.contains name
    · rw [meaning_call_bound hbound, meaning_call_bound hbound]
    · obtain ⟨st, hfind, hfun⟩ := hfail.resolve_left hbound
      have hdeclared := NameTable.contains_iff.mpr ⟨st, hfind⟩
      have hfind' := h.find? name (he.called hbound hdeclared) ▸ hfind
      by_cases hkind : st.isFunction
      · obtain ⟨key, params, body, hkind, hcases⟩ := hfun hkind
        by_cases hcount : params.length = args.length
        · have hdepth := hcases.resolve_left (not_not.mpr hcount)
          rw [meaning_call_deep hbound hfind hkind hcount hdepth,
            meaning_call_deep hbound hfind' hkind hcount (h.limits ▸ hdepth), h.limits]
        · rw [meaning_call_count hbound hfind hkind hcount,
            meaning_call_count hbound hfind' hkind hcount]
      · rw [meaning_call_not_function hbound hfind hkind,
          meaning_call_not_function hbound hfind' hkind]
  | function ctx name args span hbound st hfind key params body hkind hcount hdepth ihargs ihvalues
      ihdeferred =>
    have hname := he.called hbound (NameTable.contains_iff.mpr ⟨st, hfind⟩)
    have hfind' := h.find? name hname ▸ hfind
    have hreads := h.closed name hname
    have hargs : args.map (fun arg => Meaning.delay fun _ => meaning (m := m) w ctx arg) =
        args.map fun arg => .delay fun _ => meaning w' ctx arg :=
      List.map_congr_left fun arg harg => by rw [ihargs arg harg (he.arg arg harg)]
    have hdeferred := ihdeferred (.ofFunction hfind hkind hreads
      (Scope.readsWithin_ofArgs he.2 (fun arg harg => (he.arg arg harg).1) trivial)
      fun x => (Scope.mem_names_ofArgs hcount).trans (by simp [Scope.names]))
    rw [meaning_call_function hbound hfind hkind hcount hdepth,
      meaning_call_function hbound hfind' hkind hcount (h.limits ▸ hdepth), hargs, hdeferred]
    refine call_congr _ fun values hlength => ihvalues values (.ofFunction hfind hkind hreads
      (Scope.readsWithin_ofValues trivial) fun x => ?_)
    rw [List.length_map] at hlength
    exact (Scope.mem_names_ofValues (hcount.trans hlength.symm)).trans (by simp [Scope.names])
  | builtin ctx name args span hbound hfind ihargs =>
    have hfind' : w'.declarations.find? name = none := by
      have := h.contains name
      simp_all [NameTable.contains]
    rw [meaning_call_builtin hbound hfind, meaning_call_builtin hbound hfind',
      List.map_congr_left fun arg harg => by rw [ihargs arg harg (he.arg arg harg)]]
  | unary ctx op operand span ih =>
    rw [meaning_eq_meaningBy, meaning_eq_meaningBy, meaningBy_unary, meaningBy_unary,
      ih he.operand]
  | binary ctx op left right span ihleft ihright =>
    rw [meaning_eq_meaningBy, meaning_eq_meaningBy, meaningBy_binary, meaningBy_binary,
      ihleft he.binaryParts.1, ihright he.binaryParts.2]
  | range ctx lower upper span ihlower ihupper =>
    rw [meaning_eq_meaningBy, meaning_eq_meaningBy, meaningBy_range, meaningBy_range,
      h.limits, ihlower he.rangeParts.1, ihupper he.rangeParts.2]
  | index ctx target position span ihtarget ihposition =>
    rw [meaning_eq_meaningBy, meaning_eq_meaningBy, meaningBy_index, meaningBy_index,
      ihtarget he.indexParts.1, ihposition he.indexParts.2]
  | swizzle ctx target components span ih =>
    rw [meaning_eq_meaningBy, meaning_eq_meaningBy, meaningBy_swizzle, meaningBy_swizzle,
      ih he.target]
  | conditional ctx consequent condition alternative span ih₁ ih₂ ih₃ =>
    obtain ⟨h₁, h₂, h₃⟩ := he.conditionalParts
    rw [meaning_eq_meaningBy, meaning_eq_meaningBy, meaningBy_conditional,
      meaningBy_conditional, ih₁ h₁, ih₂ h₂, ih₃ h₃]

end Expr

/-! ### Outcomes of a variable -/

/-- Puts other statements in the place of declarations, one after the other. -/
def Declarations.replace (ds : Declarations) (changes : List (String × Statement)) : Declarations :=
  changes.foldl (fun ds change => ds.insert change.1 change.2) ds

namespace Declarations

theorem find?_replace {x : String} : ∀ {changes : List (String × Statement)} {ds : Declarations},
    (∀ change ∈ changes, change.1 ≠ x) → (ds.replace changes).find? x = ds.find? x
  | [], ds, _ => rfl
  | change :: changes, ds, h => by
    have hne : x ≠ change.1 := (h change List.mem_cons_self).symm
    calc (replace ds (change :: changes)).find? x
        = (ds.insert change.1 change.2).find? x :=
          find?_replace fun c hc => h c (List.mem_cons_of_mem _ hc)
      _ = ds.find? x := by rw [NameTable.find?_insert, if_neg hne]

theorem contains_replace {x : String} :
    ∀ {changes : List (String × Statement)} {ds : Declarations},
      (∀ change ∈ changes, ds.contains change.1) → (ds.replace changes).contains x = ds.contains x
  | [], ds, _ => rfl
  | change :: changes, ds, h => by
    have hinsert : ∀ y, (ds.insert change.1 change.2).contains y = ds.contains y := by
      intro y
      by_cases hy : y = change.1
      · subst hy
        simpa [NameTable.contains, NameTable.find?_insert] using
          (h change List.mem_cons_self).symm
      · simp [NameTable.contains, NameTable.find?_insert, hy]
    calc (replace ds (change :: changes)).contains x
        = (ds.insert change.1 change.2).contains x :=
          contains_replace fun c hc => by
            rw [hinsert]
            exact h c (List.mem_cons_of_mem _ hc)
      _ = ds.contains x := hinsert x

end Declarations

namespace Session

variable {s : Session} {r : String} {deps : List String}

/-- The names that the search finds from a variable, with the variable itself, cannot tell two
settings apart that differ in other declarations and constants only. -/
theorem sameOn_replace (hr : s.declarations.IsVariable r)
    (hdeps : Dependency.ofDeclaration s.declarations r = .ok deps)
    {changes : List (String × Statement)}
    (hchanges : ∀ change ∈ changes,
      s.declarations.contains change.1 ∧ change.1 ≠ r ∧ change.1 ∉ deps)
    {animation : Animation} (hanimation : s.animation.AgreeOn (· ∈ deps) animation) :
    s.setting.SameOn (· ∈ r :: deps)
      ⟨s.declarations.replace changes, s.limits, animation⟩ where
  find? x hx := by
    refine (Declarations.find?_replace fun change hchange => ?_).symm
    rintro rfl
    obtain ⟨-, hne, hfound⟩ := hchanges change hchange
    exact (List.mem_cons.mp hx).elim hne hfound
  contains x := (Declarations.contains_replace fun change hchange =>
    (hchanges change hchange).1).symm
  limits := rfl
  constant? x hx hfree := by
    refine hanimation.constant? ((List.mem_cons.mp hx).resolve_left ?_)
    rintro rfl
    obtain ⟨st, hfind, -⟩ := hr
    cases hfind.symm.trans hfree
  closed x hx y hxy := by
    obtain ⟨hread, hclosed⟩ := Dependency.ofDeclaration_closed hdeps
    rcases List.mem_cons.mp hx with rfl | hx
    · exact List.mem_cons_of_mem _ (hread y hxy)
    · exact List.mem_cons_of_mem _ (hclosed x hx y hxy)

/-- Replacing declarations that a variable does not depend on, and moving constants that it does
not depend on, changes none of its outcomes: not its values at any selection, not its shape, and
not its errors with their sites. -/
theorem outcome_eq_of_independent_changes (hr : s.declarations.IsVariable r)
    (hdeps : Dependency.ofDeclaration s.declarations r = .ok deps)
    (changes : List (String × Statement))
    (hchanges : ∀ change ∈ changes,
      s.declarations.contains change.1 ∧ change.1 ≠ r ∧ change.1 ∉ deps)
    (animation : Animation) (hanimation : s.animation.AgreeOn (· ∈ deps) animation) :
    let s' := { s with declarations := s.declarations.replace changes, animation := animation }
    (∀ selection, (s'.forgetAll.evaluate r selection).1 = (s.forgetAll.evaluate r selection).1) ∧
      (s'.forgetAll.shape r).1 = (s.forgetAll.shape r).1 := by
  intro s'
  have hreads : (reference r).ReadsWithin s.declarations (· ∈ r :: deps) .root :=
    .ofName List.mem_cons_self
  have hmeaning : s'.forgetAll.meaning (reference r) = s.forgetAll.meaning (reference r) :=
    (Expr.meaning_congr (sameOn_replace hr hdeps hchanges hanimation) .root _ hreads).symm
  constructor
  · intro selection
    simp only [evaluate, evaluateExpr, hmeaning]
    rfl
  · simp only [shape, exprShape, hmeaning]
    rfl

/-- A variable that depends on two others and two constants, and a variable apart from it. -/
def sketch : Session :=
  (load "total = a + b; a = scale; b = a * time; c = position").1

set_option maxRecDepth 4000 in
theorem parse_sketch : ∃ ts us vs ws,
    parseScript "total = a + b; a = scale; b = a * time; c = position" =
      [⟨.variable "total" (.binary .add (.identifier "a" ⟨2, 3⟩) (.identifier "b" ⟨4, 5⟩) ⟨2, 5⟩),
          ts⟩,
        ⟨.variable "a" (.identifier "scale" ⟨2, 3⟩), us⟩,
        ⟨.variable "b" (.binary .mul (.identifier "a" ⟨2, 3⟩) (.identifier "time" ⟨4, 5⟩) ⟨2, 5⟩),
          vs⟩,
        ⟨.variable "c" (.identifier "position" ⟨2, 3⟩), ws⟩] :=
  ⟨_, _, _, _, by cbv⟩

theorem find?_sketch :
    (sketch.declarations.find? "total").map Statement.isVariable = some true ∧
      sketch.declarations.contains "c" := by
  obtain ⟨ts, us, vs, ws, hparse⟩ := parse_sketch
  rw [sketch, load, hparse]
  exact ⟨rfl, rfl⟩

theorem ofDeclaration_sketch :
    Dependency.ofDeclaration sketch.declarations "total" = .ok ["a", "b", "scale", "time"] := by
  obtain ⟨ts, us, vs, ws, hparse⟩ := parse_sketch
  rw [sketch, load, hparse]
  cbv

/-- The total stays what it is when `c` comes to read it and the position moves. -/
theorem total_of_sketch_unchanged :
    let c : Statement := ⟨.variable "c" (reference "total"), []⟩
    let moved := { sketch.animation with position := #v[1, 2, 3] }
    let s' := { sketch with
      declarations := sketch.declarations.replace [("c", c)], animation := moved }
    Dependency.ofDeclaration sketch.declarations "total" = .ok ["a", "b", "scale", "time"] ∧
      (∀ selection, (s'.forgetAll.evaluate "total" selection).1 =
        (sketch.forgetAll.evaluate "total" selection).1) ∧
      (s'.forgetAll.shape "total").1 = (sketch.forgetAll.shape "total").1 := by
  intro c moved s'
  refine ⟨ofDeclaration_sketch, outcome_eq_of_independent_changes ?_ ofDeclaration_sketch [("c", c)]
    ?_ moved ⟨fun _ => rfl, fun h => ?_, fun _ => rfl, fun _ => rfl⟩⟩
  · obtain ⟨st, hfind, hvar⟩ := Option.map_eq_some_iff.mp find?_sketch.1
    exact ⟨st, hfind, hvar⟩
  · intro change hchange
    obtain rfl : change = ("c", c) := by simpa using hchange
    exact ⟨find?_sketch.2, by decide, by decide⟩
  · exact absurd h (by decide)

end Session

end VectorScript
