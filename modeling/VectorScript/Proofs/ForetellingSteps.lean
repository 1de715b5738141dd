import VectorScript.Proofs.EvaluationSteps
import VectorScript.Proofs.ForetellingComprehensions
import VectorScript.Proofs.ForetellingNodes
import VectorScript.Proofs.LinkedScopes

/-!
# Foretelling by steps

One step of evaluation foretells the same step of other evaluations, in linked scopes and under
growing limits, if what it leads to does.  Nothing is said of free names, which every way of
evaluation treats in its own way.

* `Setting.within`: a setting under a limit.
* `Expr.StepForetells`: what is asked of the evaluations that a step leads to.
* `Expr.StepForetells.meaningBy`: one step foretells the same step.
-/

namespace VectorScript

open Filter Meaning

/-- The setting with both limits at `n`. -/
def Setting.within (w : Setting) (n : Nat) : Setting :=
  { w with limits := { maxArrayLength := n, maxCallDepth := n } }

theorem Series.wellFormed_vector {components : List Float32} (h : components ≠ []) :
    (Series.vector components).WellFormed := by
  refine ⟨fun c hc => ?_, Nat.one_pos, Shape.one_le_maxLength, ?_⟩
  · obtain ⟨x, -, rfl⟩ := List.mem_map.mp hc
    rfl
  · simpa [Series.shape, Series.dimension, Series.vector] using List.length_pos_iff.mpr h

theorem Series.wellFormed_scalar (x : Float32) : (Series.scalar x).WellFormed :=
  wellFormed_vector (List.cons_ne_nil x [])

namespace Expr

/-- The items of an array literal by their positions. -/
theorem map_eq_itemsOf (site : Expr → Site) (f : Expr → Meaning Plain) (items : List Expr) :
    items.map (fun item =>
        ({ site := site item
           makesRun := item.makesRun
           meaning := .delay fun _ => f item } : Item Plain)) =
      Foretells.itemsOf items.length
        (fun k => ⟨site (items.getD k default), (items.getD k default).makesRun⟩)
        fun k => f (items.getD k default) := by
  refine List.ext_getElem (by simp [Foretells.itemsOf]) fun k hk _ => ?_
  have hk : k < items.length := by simpa using hk
  simp [Foretells.itemsOf, hk, Meaning.delay_plain]

/-- What a step in `w`, where `f` answers for what it leads to, needs to foretell the same step in
`w'` under growing limits, where `F` answers. -/
structure StepForetells (hollow : Prop) (T : Scope.Terms) (w w' : Setting)
    (f : Context → Expr → Meaning Plain) (F : Nat → Context → Expr → Meaning Plain)
    (ctx ctx' : Context) (e : Expr) : Prop where
  linked : ctx.Linked T ctx'
  value : ∀ {v}, T.Value v ↔ v.Sized hollow
  formed : e.wellFormed
  not_free : ∀ name span, e = identifier name span → ctx.scope.find? name ≠ none
  called : ∀ name args span, e = call name args span → ¬ ctx.scope.contains name →
    w'.declarations.find? name = w.declarations.find? name
  /-- The only item of a literal has the dimension of the literal. -/
  alone : ∀ item span, e = array [item] span → (f ctx item).StandsAlone
  /-- Conditions in comprehensions may leave nothing over. -/
  filters : e.isUnfiltered ∨ hollow
  fixed : ∀ binder body, (binder, body) ∈ e.boundParts → body.shapeMayVary w.declarations = false →
    ∀ v s, (f (ctx.bind binder v) body).shape = .ok s → body.shapeMayVary w'.declarations = false
  step : ∀ {ctx₁ ctx₁' e₁ n}, Leads w ctx e ctx₁ e₁ → Leads (w'.within n) ctx' e ctx₁' e₁ →
    ctx₁'.opened = ctx'.opened → ctx₁.Linked T ctx₁' →
    Foretells hollow (f ctx₁ e₁) fun N => F N ctx₁' e₁
  /-- A value stands for an argument that settles on it. -/
  stands : ∀ {v arg outer owner}, T.Stands v arg outer owner →
    v.Sized hollow ∧ SettlesFully (fun N => F N (ctx'.resume outer owner) arg) v
  arg : ∀ arg ∈ e.children, T.Arg arg
  /-- Arguments settle on their values. -/
  evaluated : ∀ arg ∈ e.openParts, ∀ v, (f ctx arg).values .all = .ok v →
    T.Stands v arg ctx'.scope ctx'.owner

namespace StepForetells

variable {hollow : Prop} {T : Scope.Terms} {w w' : Setting} {f : Context → Expr → Meaning Plain}
  {F : Nat → Context → Expr → Meaning Plain} {ctx ctx' : Context} {e : Expr}

theorem part (h : StepForetells hollow T w w' f F ctx ctx' e) {c : Expr} (hc : c ∈ e.openParts) :
    Foretells hollow (f ctx c) fun N => F N ctx' c :=
  h.step (n := 0) (.part hc) (.part hc) rfl h.linked

theorem element (h : StepForetells hollow T w w' f F ctx ctx' e) {c : Expr} {binder : String}
    (hc : (binder, c) ∈ e.boundParts) {v : Series} (hv : v.Sized hollow) :
    Foretells hollow (f (ctx.bind binder v) c) fun N => F N (ctx'.bind binder v) c :=
  h.step (n := 0) (.element hc v) (.element hc v) rfl
    ⟨h.linked.owner, .value (h.value.mpr hv) h.linked.scope⟩

theorem partsForetell {body source : Expr} {span : Span} {binder : String}
    (h : StepForetells hollow T w w' f F ctx ctx' e) (hsource : source ∈ e.openParts)
    (hbody : (binder, body) ∈ e.boundParts) :
    Foretells.PartsForetell hollow (partsBy w f ctx body binder source span) fun N =>
      partsBy (w'.within N) (F N) ctx' body binder source span where
  rules N := by
    simp only [h.linked.site]
    rfl
  source := h.part hsource
  body _ hv := h.element hbody hv
  fixed hfixed v s hs _ := by
    have hfixed' := h.fixed binder body hbody (by simpa using hfixed) v s hs
    exact Bool.eq_false_iff.mp hfixed'

/-- Calls of declared functions: their bodies are asked with values on one side, and with values or
with the arguments themselves on the other side. -/
theorem call_function {name key : String} {args : List Expr} {span : Span} {st : Statement}
    {params : List String} {body : Expr}
    (h : StepForetells hollow T w w' f F ctx ctx' (call name args span))
    (hbound : ¬ ctx.scope.contains name) (hfind : w.declarations.find? name = some st)
    (hkind : st.kind = .function key params body) (hcount : params.length = args.length)
    (hdepth : ctx.depth < w.limits.maxCallDepth) :
    Foretells hollow (meaningBy w f ctx (call name args span)) fun N =>
      meaningBy (w'.within N) (F N) ctx' (call name args span) := by
  have hbound' := h.linked.scope.not_contains hbound
  have hfind' : w'.declarations.find? name = some st :=
    (h.called name args span rfl hbound).trans hfind
  -- the depth of the other context does not matter: it is below the limit in the long run
  have hdeep : ctx'.depth < (w'.within (ctx'.depth + 1)).limits.maxCallDepth := Nat.lt_succ_self _
  rw [meaningBy_call_function hbound hfind hkind hcount hdepth]
  refine Foretells.congr (.call (F := fun N arg => F N ctx' arg)
    (fun N values => F N (ctx'.inFunction name (.ofValues params values .root)) body)
    (fun N => F N (ctx'.inFunction name (.ofArgs ctx'.scope ctx'.owner params args .root)) body)
    (fun arg harg => h.part harg) ?_ ?_ ?_) ((eventually_gt_atTop ctx'.depth).mono fun N hN =>
      (meaningBy_call_function (w := w'.within N) hbound' hfind' hkind hcount hN).symm)
  · intro values hvalues hlength
    exact h.step (.applied hbound hfind hkind hcount hdepth hlength)
      (.applied hbound' hfind' hkind hcount hdeep hlength) rfl
      ⟨rfl, .ofValues _ (fun v hv => h.value.mpr (hvalues v hv)) .root⟩
  · intro v hv
    exact h.step (.applied hbound hfind hkind hcount hdepth (by simp))
      (.called hbound' hfind' hkind hcount hdeep) rfl
      ⟨rfl, .ofEvaluated _ (fun arg harg => h.evaluated arg harg _ (hv arg harg)) .root⟩
  · refine h.step (.called hbound hfind hkind hcount hdepth)
      (.called hbound' hfind' hkind hcount hdeep) rfl ⟨rfl, ?_⟩
    rw [h.linked.owner]
    exact .ofArgs h.linked.scope _ (fun arg harg => h.arg arg harg) .root

theorem identifier {name : String} {span : Span}
    (h : StepForetells hollow T w w' f F ctx ctx' (identifier name span)) :
    Foretells hollow (meaningBy w f ctx (identifier name span)) fun N =>
      meaningBy (w'.within N) (F N) ctx' (identifier name span) := by
  obtain ⟨b, hbound⟩ := Option.ne_none_iff_exists'.mp (h.not_free name span rfl)
  obtain ⟨b', hbound', hlinked⟩ := h.linked.scope.find?_some hbound
  cases hlinked with
  | value hv =>
    simp only [meaningBy_bound hbound, meaningBy_bound hbound']
    exact .const (h.value.mp hv)
  | evaluated hv =>
    -- a value here, an argument that waits there
    obtain ⟨hsized, hsettles⟩ := h.stands hv
    simp only [meaningBy_bound hbound, meaningBy_deferred hbound']
    exact .of_settlesFully hsized hsettles
  | deferred _ houter =>
    simp only [meaningBy_deferred hbound, meaningBy_deferred hbound']
    exact h.step (n := 0) (.deferred hbound) (.deferred hbound') rfl ⟨rfl, houter⟩

theorem call {name : String} {args : List Expr} {span : Span}
    (h : StepForetells hollow T w w' f F ctx ctx' (call name args span)) :
    Foretells hollow (meaningBy w f ctx (call name args span)) fun N =>
      meaningBy (w'.within N) (F N) ctx' (call name args span) := by
  rcases call_cases w ctx name args with ⟨cause, -, hfail⟩ |
    ⟨hbound, st, key, params, body, hfind, hkind, hcount, hdepth⟩ | ⟨hbound, hfind⟩
  · rw [hfail]
    exact .fail _ cause
  · exact h.call_function hbound hfind hkind hcount hdepth
  · have hbound' := h.linked.scope.not_contains hbound
    have hfind' : ∀ N, (w'.within N).declarations.find? name = none := fun _ =>
      (h.called name args span rfl hbound).trans hfind
    simp only [meaningBy_call_builtin hbound hfind, meaningBy_call_builtin hbound' (hfind' _),
      h.linked.site]
    exact .ofBuiltinCall fun arg harg => h.part harg

theorem array {items : List Expr} {span : Span}
    (h : StepForetells hollow T w w' f F ctx ctx' (array items span)) :
    Foretells hollow (meaningBy w f ctx (array items span)) fun N =>
      meaningBy (w'.within N) (F N) ctx' (array items span) := by
  simp only [meaningBy_array, itemOf, h.linked.site, map_eq_itemsOf]
  refine .arrayLiteral (List.length_pos_iff.mpr (array_ne_nil h.formed)) (fun k hk => ?_)
    fun hone => ?_
  · refine h.part (?_ : items.getD k default ∈ items)
    rw [List.getD_eq_getElem _ _ hk]
    exact List.getElem_mem hk
  · obtain ⟨item, rfl⟩ := List.length_eq_one_iff.mp hone
    exact h.alone item span rfl

/-- One step foretells the same step. -/
theorem meaningBy (h : StepForetells hollow T w w' f F ctx ctx' e) :
    Foretells hollow (meaningBy w f ctx e) fun N => meaningBy (w'.within N) (F N) ctx' e := by
  cases e with
  | constant x span => exact .const ((Series.wellFormed_scalar x).sized _)
  | identifier name span => exact h.identifier
  | vector items span =>
    simp only [meaningBy_vector, h.linked.site]
    exact .elementwise (fun item hitem => h.part hitem)
      (pointwise_vector (List.length_pos_iff.mpr (vector_ne_nil h.formed)))
  | array items span => exact h.array
  | comprehension body binder source span =>
    exact .comprehension (h.partsForetell List.mem_cons_self List.mem_cons_self)
  | filtered body binder source condition span =>
    have hhollow := h.filters.resolve_left (by simp [isUnfiltered])
    exact .filtered hhollow (h.partsForetell List.mem_cons_self List.mem_cons_self)
      fun v hv => h.element (List.mem_cons_of_mem _ List.mem_cons_self) hv
  | call name args span => exact h.call
  | unary op operand span =>
    simp only [meaningBy_unary, h.linked.site]
    exact .unary (h.part (by simp [openParts, children]))
  | binary op left right span =>
    simp only [meaningBy_binary, h.linked.site]
    exact .binary (h.part (by simp [openParts, children])) (h.part (by simp [openParts, children]))
  | range lower upper span =>
    simp only [meaningBy_range, h.linked.site]
    exact .range (h.part (by simp [openParts, children])) (h.part (by simp [openParts, children]))
  | index target position span =>
    simp only [meaningBy_index, h.linked.site]
    exact .index (h.part (by simp [openParts, children])) (h.part (by simp [openParts, children]))
  | swizzle target components span =>
    simp only [meaningBy_swizzle, h.linked.site]
    exact .swizzle (components_ne_nil h.formed) (h.part (by simp [openParts, children]))
  | conditional consequent condition alternative span =>
    simp only [meaningBy_conditional, h.linked.site]
    exact .conditional (h.part (by simp [openParts, children]))
      (h.part (by simp [openParts, children])) (h.part (by simp [openParts, children]))

end StepForetells

end Expr

end VectorScript
