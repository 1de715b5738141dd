import VectorScript.Proofs.ExprForms
import VectorScript.Proofs.ForetellingSteps
import VectorScript.Proofs.Guarded
import VectorScript.Proofs.EvaluationSteps
import VectorScript.Proofs.Noninterference

/-!
# Foretelling of evaluation

Evaluation in one setting foretells evaluation in another one under growing limits, when the two
settings agree on what is read.  The two need not stand in the same scope: where one has bound a
parameter to a value, the other may have bound it to an argument that settles on the value.

* `Scope.Terms.ofGuard`: scopes of which the second foretells no less than the first.
* `Setting.ContinuedBy`: the two settings agree on what is read.
* `Expr.foretells_guarded`, `Expr.foretells`: evaluation foretells evaluation.
-/

namespace VectorScript

open Filter Meaning

variable {filters : Bool} {K : String → Bool}

/-- Scopes are linked where arguments are evaluated in `w` while the variables `opened` are open. -/
def Scope.Terms.ofGuard (filters : Bool) (K : String → Bool) (w : Setting) (opened : List String) :
    Scope.Terms where
  Value v := v.Sized (filters = true)
  Arg arg := arg.Written filters
  Stands v arg outer owner := v.Sized (filters = true) ∧ ∀ depth,
    SettlesFully (fun n => arg.guarded filters K (w.within n) ⟨outer, owner, depth, opened⟩) v

/-! ### Shapes that ask all parts -/

namespace Meaning

theorem elementwise_strict {site : Site} {check : List Shape → Except EvalError.Cause Shape}
    {combine : List Series → Except EvalError.Cause Series} {operands : List (Meaning Plain)}
    {s : Shape} (h : (elementwise site check combine operands).shape = .ok s) :
    ∀ m ∈ operands, ∃ t, m.shape = .ok t := by
  obtain ⟨shapes, hshapes, -⟩ := bind_eq_ok.mp h
  obtain ⟨t, -, ht⟩ := mapM_eq_ok_map.mp hshapes
  exact fun m hm => ⟨t m, ht m hm⟩

theorem ofBuiltinCall_strict {site : Site} {name : String} {args : List (Meaning Plain)} {s : Shape}
    (h : (ofBuiltinCall site name args).shape = .ok s) : ∀ m ∈ args, ∃ t, m.shape = .ok t := by
  unfold ofBuiltinCall at h
  cases hlookup : Catalog.lookup name args.length with
  | error cause =>
    simp only [hlookup] at h
    cases h
  | ok found =>
    simp only [hlookup] at h
    cases found with
    | none =>
      simp only at h
      split_ifs at h <;> cases h
    | some b =>
      obtain ⟨hfits, hcount⟩ := Catalog.fits_of_lookup hlookup
      simp only [Foretells.builtin_plain] at h
      unfold Builtin.Fits at hfits
      cases hkernel : b.kernel with
      | map g =>
        rw [hkernel] at h
        exact elementwise_strict h
      | zip g =>
        rw [hkernel] at h
        exact elementwise_strict h
      | reduce g =>
        simp only [hkernel] at hfits h
        -- only the first argument is asked, but there is no other
        obtain ⟨m, rfl⟩ := List.length_eq_one_iff.mp
          (Foretells.length_eq_one_of_exactly hfits hcount)
        obtain ⟨t, ht, -⟩ := bind_eq_ok.mp h
        intro m' hm'
        obtain rfl := List.mem_singleton.mp hm'
        exact ⟨t, ht⟩
      | whole kernel rule =>
        rw [hkernel] at h
        obtain ⟨shapes, hshapes, -⟩ := bind_eq_ok.mp h
        obtain ⟨t, -, ht⟩ := mapM_eq_ok_map.mp hshapes
        exact fun m hm => ⟨t m, ht m hm⟩
      | reserved =>
        rw [hkernel] at h
        cases h

end Meaning

namespace Expr

/-- Where a shape that does not vary was found, every call is one of a name that is free and not
declared.  So it varies under no other declarations that add none of these names. -/
theorem shapeMayVary_of_shape {w : Setting} {ctx : Context} {ds : Declarations} (e : Expr)
    (hfixed : e.shapeMayVary w.declarations = false)
    (hreads : ∀ x ∈ e.reads ds ctx.scope.names, ds.contains x → w.declarations.contains x)
    {s : Shape} (hs : (e.guarded (m := Plain) filters K w ctx).shape = .ok s) :
    e.shapeMayVary ds = false := by
  induction e using induction_on_children generalizing s with
  | h e ih =>
    cases e with
    | constant | identifier => rfl
    | conditional | range | comprehension | filtered => cases hfixed
    | vector items span =>
      simp only [shapeMayVary, anyShapeMayVary_eq_false] at hfixed ⊢
      rw [guarded_eq_meaningBy (e := .vector ..) (by simp) (Bool.and_false _),
        meaningBy_vector] at hs
      intro item hitem
      obtain ⟨t, ht⟩ := elementwise_strict hs _ (List.mem_map_of_mem hitem)
      exact ih item hitem (hfixed item hitem)
        (fun x hx => hreads x (mem_readsAll.mpr ⟨item, hitem, hx⟩)) ht
    | array items span =>
      simp only [shapeMayVary, anyShapeMayVary_eq_false] at hfixed ⊢
      rw [guarded_eq_carefulBy (e := .array ..) (by simp), carefulBy, meaningBy_array] at hs
      obtain ⟨shapes, hshapes, -⟩ := bind_eq_ok.mp hs
      obtain ⟨t, -, ht⟩ := mapM_map_eq_ok.mp hshapes
      exact fun item hitem => ih item hitem (hfixed item hitem)
        (fun x hx => hreads x (mem_readsAll.mpr ⟨item, hitem, hx⟩))
        (shape_of_checkedPart (ht item hitem))
    | unary op operand span =>
      rw [guarded_eq_meaningBy (e := .unary ..) (by simp) (Bool.and_false _), meaningBy_unary] at hs
      have hoperand : ∃ t, (operand.guarded (m := Plain) filters K w ctx).shape = .ok t := by
        cases op with
        | plus => exact ⟨s, hs⟩
        | negate | not | factorial => exact elementwise_strict hs _ List.mem_cons_self
      obtain ⟨t, ht⟩ := hoperand
      exact ih operand (by simp [children]) hfixed hreads ht
    | binary op left right span =>
      simp only [shapeMayVary, Bool.or_eq_false_iff] at hfixed ⊢
      rw [guarded_eq_meaningBy (e := .binary ..) (by simp) (Bool.and_false _),
        meaningBy_binary] at hs
      have hall := elementwise_strict hs
      obtain ⟨t, ht⟩ := hall _ List.mem_cons_self
      obtain ⟨u, hu⟩ := hall _ (List.mem_cons_of_mem _ List.mem_cons_self)
      exact ⟨ih left (by simp [children]) hfixed.1 (fun x hx => hreads x (by simp [reads, hx])) ht,
        ih right (by simp [children]) hfixed.2 (fun x hx => hreads x (by simp [reads, hx])) hu⟩
    | index target position span =>
      simp only [shapeMayVary, Bool.or_eq_false_iff] at hfixed ⊢
      rw [guarded_eq_meaningBy (e := .index ..) (by simp) (Bool.and_false _), meaningBy_index] at hs
      obtain ⟨t, u, ht, -, hu, -⟩ := Foretells.index_shape_eq_ok.mp hs
      exact ⟨ih target (by simp [children]) hfixed.1
          (fun x hx => hreads x (by simp [reads, hx])) hu,
        ih position (by simp [children]) hfixed.2
          (fun x hx => hreads x (by simp [reads, hx])) ht⟩
    | swizzle target components span =>
      rw [guarded_eq_meaningBy (e := .swizzle ..) (by simp) (Bool.and_false _),
        meaningBy_swizzle] at hs
      obtain ⟨t, -, ht, -, -⟩ := Foretells.swizzle_shape_eq_ok.mp hs
      exact ih target (by simp [children]) hfixed hreads ht
    | call name args span =>
      simp only [shapeMayVary, Bool.or_eq_false_iff, anyShapeMayVary_eq_false] at hfixed ⊢
      obtain ⟨hname, hargs⟩ := hfixed
      rw [guarded_eq_meaningBy (e := .call ..) (by simp) (Bool.and_false _)] at hs
      by_cases hbound : ctx.scope.contains name
      · rw [meaningBy_call_bound hbound] at hs
        cases hs
      have hfind : w.declarations.find? name = none := by
        simpa [NameTable.contains] using hname
      rw [meaningBy_call_builtin hbound hfind] at hs
      constructor
      · by_contra hcontains
        have hcontains : ds.contains name := by simpa using hcontains
        have := hreads name (by
          rw [Scope.contains_iff] at hbound
          simp [reads, hbound, hcontains]) hcontains
        simp_all
      · intro arg harg
        obtain ⟨t, ht⟩ := ofBuiltinCall_strict hs _ (List.mem_map_of_mem harg)
        refine ih arg harg (hargs arg harg) (fun x hx => hreads x ?_) ht
        simp only [reads, List.mem_append]
        exact .inl (mem_readsAll.mpr ⟨arg, harg, hx⟩)

end Expr

/-! ### Evaluation -/

/-- All declarations are written ones. -/
structure Setting.Written (filters : Bool) (w : Setting) : Prop where
  declared : ∀ name st, w.declarations.find? name = some st → st.Written filters

/-- `w'` agrees with `w` on the names of `R`, all of whose declarations are written ones and depend
on no variable that depends on itself.  It may declare more names than `w`. -/
structure Setting.ContinuedBy (filters : Bool) (R : String → Prop) (w w' : Setting) : Prop where
  agree : w'.AgreeOn R w
  contains : ∀ x, w.declarations.contains x → w'.declarations.contains x
  written : ∀ x, R x → ∀ st, w'.declarations.find? x = some st → st.Written filters
  acyclic : ∀ x, R x → w'.declarations.IsVariable x → ¬ w'.declarations.Reaches x x

/-- No name in a list is reached from `x`. -/
def Declarations.Avoids (ds : Declarations) (opened : List String) (x : String) : Prop :=
  ∀ o ∈ opened, ¬ Relation.ReflTransGen ds.Reads x o

theorem Catalog.wellFormed_of_constant? {a : Animation} {name : String} {v : Series}
    (h : constant? a name = some v) : v.WellFormed := by
  unfold constant? at h
  split at h
  case h_6 | h_8 =>
    cases h
    exact Series.wellFormed_vector (by simp)
  case h_9 => cases h
  all_goals
    cases h
    exact Series.wellFormed_scalar _

namespace Expr

variable {R : String → Prop} {w w' : Setting}

/-- What a declaration of `R` reads may be read inside it. -/
theorem avoids_of_reads (h : w.ContinuedBy filters R w') {opened : List String} {name y : String}
    (hname : R name ∧ w'.declarations.Avoids opened name) (hy : w'.declarations.Reads name y) :
    R y ∧ w'.declarations.Avoids opened y :=
  ⟨h.agree.closed name hname.1 y hy, fun o ho hreach => hname.2 o ho (hreach.head hy)⟩

theorem avoids_of_variable (h : w.ContinuedBy filters R w') {opened : List String} {name y : String}
    (hname : R name ∧ w'.declarations.Avoids opened name) (hvar : w'.declarations.IsVariable name)
    (hy : w'.declarations.Reads name y) :
    R y ∧ w'.declarations.Avoids (name :: opened) y := by
  obtain ⟨hR, havoids⟩ := avoids_of_reads h hname hy
  refine ⟨hR, fun o ho hreach => ?_⟩
  rcases List.mem_cons.mp ho with rfl | ho
  · exact h.acyclic o hname.1 hvar (Relation.TransGen.head' hy hreach)
  · exact havoids o ho hreach

theorem foretells_declared (h : w.ContinuedBy filters R w') {ctx ctx' : Context}
    (hctx : ctx.Linked (.ofGuard filters K w' ctx'.opened) ctx') {name : String} {span : Span}
    (hname : R name ∧ w'.declarations.Avoids ctx'.opened name)
    (hbody : ∀ st, w.declarations.find? name = some st → ∀ key body,
      st.kind = .variable key body → name ∉ ctx.opened →
      (ctx.inVariable name).Linked (.ofGuard filters K w' (name :: ctx'.opened))
        (ctx'.inVariable name) →
      body.Written filters →
      body.ReadsWithin w'.declarations
        (fun x => R x ∧ w'.declarations.Avoids (name :: ctx'.opened) x) .root →
      Foretells (filters = true) (body.guarded filters K w (ctx.inVariable name)) fun n =>
        body.guarded filters K (w'.within n) (ctx'.inVariable name)) :
    Foretells (filters = true) (declaredGuarded filters K w ctx name span) fun n =>
      declaredGuarded filters K (w'.within n) ctx' name span := by
  have hfind' := h.agree.find? name hname.1
  cases hfind : w.declarations.find? name with
  | none =>
    have hnone : ∀ n, (w'.within n).declarations.find? name = none := fun n => hfind'.trans hfind
    simp only [declaredGuarded, declaredBy_undeclared hfind,
      declaredBy_undeclared (hnone _), hctx.site, Meaning.ofUndeclared]
    have hconstant := h.agree.constant? name hname.1 (hfind'.trans hfind)
    simp only [Setting.within, hconstant]
    cases hvalue : Catalog.constant? w.animation name with
    | some v => exact .const ((Catalog.wellFormed_of_constant? hvalue).sized _)
    | none =>
      simp only
      split_ifs <;> exact .fail _ _
  | some st =>
    by_cases hvar : st.isVariable
    · obtain ⟨key, body, hkind⟩ := Statement.isVariable_iff.mp hvar
      by_cases hopen : name ∈ ctx.opened
      · rw [declaredGuarded, declaredBy_open hfind hkind hopen]
        exact .fail _ _
      · have hst : w'.declarations.find? name = some st := hfind'.trans hfind
        have hst' : ∀ n, (w'.within n).declarations.find? name = some st := fun _ => hst
        have hopen' : name ∉ ctx'.opened := fun hin => hname.2 name hin .refl
        simp only [declaredGuarded_variable hfind hkind hopen,
          declaredGuarded_variable (hst' _) hkind hopen', Meaning.delay_plain]
        refine .ofGuarded ?_ name
        exact hbody st hfind key body hkind hopen ⟨rfl, .root⟩
          ((h.written name hname.1 st hst).body (by simp [Statement.body?, hkind]))
          (.ofVariable hst hkind fun y hy => avoids_of_variable h hname ⟨st, hst, hvar⟩ hy)
    · rw [declaredGuarded, declaredBy_not_variable hfind hvar]
      exact .fail _ _

/-- A step that asks for no free name leads to written expressions and keeps to the names that may
be read.  So it foretells the same step if what it leads to foretells. -/
theorem stepForetells_guarded (h : w.ContinuedBy filters R w') {ctx ctx' : Context} {e : Expr}
    (hctx : ctx.Linked (.ofGuard filters K w' ctx'.opened) ctx') (hwritten : e.Written filters)
    (he : e.ReadsWithin w'.declarations (fun x => R x ∧ w'.declarations.Avoids ctx'.opened x)
      ctx'.scope)
    (hcheck : (filters && e.isSingleton) = false)
    (hbound : ∀ name span, e = identifier name span → ctx.scope.find? name ≠ none)
    (ih : ∀ ctx₁ e₁, Leads w ctx e ctx₁ e₁ → ∀ ctx₁',
      ctx₁.Linked (.ofGuard filters K w' ctx₁'.opened) ctx₁' → e₁.Written filters →
      e₁.ReadsWithin w'.declarations (fun x => R x ∧ w'.declarations.Avoids ctx₁'.opened x)
        ctx₁'.scope →
      Foretells (filters = true) (e₁.guarded filters K w ctx₁) fun n =>
        e₁.guarded filters K (w'.within n) ctx₁') :
    StepForetells (filters = true) (.ofGuard filters K w' ctx'.opened) w w'
      (fun ctx e => e.guarded filters K w ctx)
      (fun n ctx e => e.guarded filters K (w'.within n) ctx) ctx ctx' e where
  linked := hctx
  value := .rfl
  formed := hwritten.wellFormed
  not_free := hbound
  called name args span heq hfree := by
    subst heq
    have hfree' := hctx.scope.not_contains hfree
    by_cases hdeclared : w'.declarations.contains name
    · exact h.agree.find? name (he.called hfree' hdeclared).1
    · have hnone' : w'.declarations.find? name = none := by
        simpa [NameTable.contains] using hdeclared
      have hnone : w.declarations.find? name = none := by
        have := mt (h.contains name) hdeclared
        simpa [NameTable.contains] using this
      rw [hnone, hnone']
  alone item span heq := by
    subst heq
    have hitem : Leads w ctx (array [item] span) ctx item := .part List.mem_cons_self
    refine (ih _ _ hitem ctx' hctx (hwritten.child List.mem_cons_self)
      (he.arrayItem item List.mem_cons_self)).standsAlone ?_
    simpa [isSingleton] using hcheck
  filters := by
    rcases Bool.eq_false_or_eq_true filters with hfilters | hfilters
    · exact .inr hfilters
    · exact .inl (everywhere_node (hwritten.whenFree hfilters))
  fixed binder body hpart hfixed v s hs := by
    refine shapeMayVary_of_shape body hfixed (fun x hx hcontains => ?_) hs
    have hnames : (ctx.bind binder v).scope.names = (ctx'.bind binder v).scope.names :=
      congrArg (binder :: ·) hctx.scope.names
    rw [hnames] at hx
    have hfind := h.agree.find? x ((he.element hpart v).1 x hx).1
    rw [NameTable.contains, ← hfind]
    exact hcontains
  step := by
    intro ctx₁ ctx₁' e₁ n hleads hleads' hopened hlinked
    rw [← hopened] at hlinked
    refine ih _ _ hleads ctx₁' hlinked ?_ ?_
    · have hdeclared : ∀ name args span st body, e = call name args span →
          ¬ ctx.scope.contains name → w.declarations.find? name = some st →
          st.body? = some body → body.Written filters := by
        intro name args span st body heq hfree hfind hbody
        subst heq
        have hname := (he.called (hctx.scope.not_contains hfree)
          (h.contains name (NameTable.contains_iff.mpr ⟨st, hfind⟩))).1
        exact (h.written name hname st ((h.agree.find? name hname).trans hfind)).body hbody
      cases hleads with
      | part hc => exact hwritten.child (mem_children_of_mem_openParts hc)
      | element hc _ => exact hwritten.child (mem_children_of_mem_boundParts hc)
      | deferred hb =>
        obtain ⟨_, -, hbinding⟩ := hctx.scope.find?_some hb
        cases hbinding with
        | deferred harg _ => exact harg
      | reference hfree => exact absurd hfree (hbound _ _ rfl)
      | applied hfree hfind hkind =>
        exact hdeclared _ _ _ _ _ rfl hfree hfind (by simp [Statement.body?, hkind])
      | called hfree hfind hkind =>
        exact hdeclared _ _ _ _ _ rfl hfree hfind (by simp [Statement.body?, hkind])
    · exact ReadsWithin.of_leads (w := w'.within n)
        (Q := fun opened x => R x ∧ w'.declarations.Avoids opened x)
        (fun hx hxy => avoids_of_reads h hx hxy)
        (fun hx hvar hxy => avoids_of_variable h hx hvar hxy) hleads' he
  stands hv := ⟨hv.1, hv.2 ctx'.depth⟩
  arg _ hc := hwritten.child hc
  evaluated arg harg v hv := by
    -- the argument settles at every depth, since its evaluation foretells all of them
    have hall := fun depth => (ih _ _ (.part harg) { ctx' with depth := depth }
      ⟨hctx.owner, hctx.scope⟩ (hwritten.child (mem_children_of_mem_openParts harg))
      (he.part harg)).all hv
    exact ⟨(hall 0).1, fun depth => (hall depth).2⟩

/-- Evaluation in one setting foretells evaluation in a setting that continues it. -/
theorem foretells_guarded (h : w.ContinuedBy filters R w') (ctx : Context) (e : Expr) :
    ∀ ctx', ctx.Linked (.ofGuard filters K w' ctx'.opened) ctx' → e.Written filters →
      e.ReadsWithin w'.declarations (fun x => R x ∧ w'.declarations.Avoids ctx'.opened x)
        ctx'.scope →
      Foretells (filters = true) (e.guarded filters K w ctx) fun n =>
        e.guarded filters K (w'.within n) ctx' := by
  -- along the evaluation that answers; the other context may be deeper and have others open
  induction ctx, e using induction_on_steps w with
  | h ctx e ih =>
    intro ctx' hctx hwritten he
    by_cases hfree : ∃ name span, e = identifier name span ∧ ctx.scope.find? name = none
    · obtain ⟨name, span, rfl, hfree⟩ := hfree
      have hfree' := hctx.scope.find?_none hfree
      simp only [guarded_free hfree, guarded_free hfree', Meaning.recalledOr_plain]
      refine foretells_declared h hctx (he.name hfree')
        fun st hfind key body hkind hopen hlinked hwritten hreads => ?_
      exact ih _ _ (.reference hfree hfind hkind hopen) _ hlinked hwritten hreads
    · have hbound : ∀ name span, e = identifier name span → ctx.scope.find? name ≠ none :=
        fun name span heq hnone => hfree ⟨name, span, heq, hnone⟩
      have hbound' : ∀ name span, e = identifier name span → ctx'.scope.find? name ≠ none :=
        fun name span heq => hctx.scope.find?_ne_none (hbound name span heq)
      cases hcheck : filters && e.isSingleton with
      | false =>
        simp only [guarded_eq_meaningBy hbound hcheck, guarded_eq_meaningBy hbound' hcheck]
        exact (stepForetells_guarded h hctx hwritten he hcheck hbound ih).meaningBy
      | true =>
        obtain ⟨item, span, rfl⟩ := isSingleton_iff.mp (Bool.and_eq_true_iff.mp hcheck).2
        have hitem := ih _ _ (.part List.mem_cons_self) ctx' hctx
          (hwritten.child List.mem_cons_self) (he.arrayItem item List.mem_cons_self)
        simp only [guarded_eq_carefulBy hbound, guarded_eq_carefulBy hbound', carefulBy,
          checkedPart, if_pos hcheck, meaningBy_array, List.map_singleton, itemOf, delay_plain,
          hctx.site]
        exact hitem.arrayLiteral_alone _ _ _

/-- The same without a guard, and without conditions in comprehensions. -/
theorem foretells (h : w.ContinuedBy false R w') (ctx : Context) (e : Expr) (ctx' : Context)
    (hctx : ctx.Linked (.ofGuard false (fun _ => true) w' ctx'.opened) ctx')
    (hwritten : e.Written false)
    (he : e.ReadsWithin w'.declarations (fun x => R x ∧ w'.declarations.Avoids ctx'.opened x)
      ctx'.scope) :
    Foretells (false = true) (e.meaning w ctx) fun n => e.meaning (w'.within n) ctx' := by
  simpa only [guarded_true, careful_false] using foretells_guarded h ctx e ctx' hctx hwritten he

end Expr

end VectorScript
