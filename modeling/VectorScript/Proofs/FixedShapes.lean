import VectorScript.Proofs.EvaluationCases
import VectorScript.Proofs.ExprForms

/-!
# Fixed shapes

A comprehension takes the shape of its body from the first element if the body has no part that
could pick its shape by values.  That is enough: scopes that bind the same names, some of them to
other values of the same shapes, lead such a body to the same shape or to the same error, and what
is remembered on the way is the same.

* `Scope.ShapedAlike`: two scopes that differ in bound values only, and not in their shapes.
* `Expr.shape_congr`: an expression whose shape may not vary has one shape in both.
* `Expr.shape_eq_of_fixed`: the same for an element of a comprehension.
-/

namespace VectorScript

/-- Every name stands for the same in both scopes, or for two values of one shape. -/
def Scope.ShapedAlike (s t : Scope) : Prop :=
  ∀ name, s.find? name = t.find? name ∨
    ∃ u v, s.find? name = some (.value u) ∧ t.find? name = some (.value v) ∧ u.shape = v.shape

namespace Scope.ShapedAlike

variable {s t : Scope} {name : String}

theorem bind (s : Scope) (name : String) {u v : Series} (h : u.shape = v.shape) :
    ShapedAlike (.bind name u s) (.bind name v s) := by
  intro x
  simp only [find?]
  split_ifs
  · exact .inr ⟨u, v, rfl, rfl, h⟩
  · exact .inl rfl

theorem contains_eq (h : s.ShapedAlike t) : s.contains name = t.contains name := by
  unfold contains
  rcases h name with heq | ⟨u, v, hu, hv, -⟩
  · rw [heq]
  · rw [hu, hv]
    rfl

end Scope.ShapedAlike

/-! ### Meanings -/

namespace Meaning

variable {m : Type → Type} [Answering m] {a b : Meaning m} {as bs : List (Meaning m)}

theorem index_shape_congr {target target' : Meaning m} (htarget : target.shape = target'.shape)
    (hindex : a.shape = b.shape) (site : Site) :
    (index site target a).shape = (index site target' b).shape := by
  simp only [index, htarget, hindex]

theorem swizzle_shape_congr (h : a.shape = b.shape) (site : Site) (components : String) :
    (swizzle site components a).shape = (swizzle site components b).shape := by
  simp only [swizzle, h]

/-- The shapes of some meanings are asked for one after the other. -/
theorem mapM_shape_congr [LawfulMonad m] :
    ∀ {as bs : List (Meaning m)}, as.map shape = bs.map shape →
      as.mapM (·.shape) = bs.mapM (·.shape)
  | [], bs, h => by
    rw [List.map_eq_nil_iff.mp h.symm]
  | a :: as, bs, h => by
    obtain ⟨b, bs, rfl, hab, hrest⟩ := List.map_eq_cons_iff.mp h.symm
    rw [List.mapM_cons, List.mapM_cons, hab, mapM_shape_congr hrest.symm]

section Nodes

variable [LawfulMonad m]

theorem elementwise_shape_congr (h : as.map shape = bs.map shape) (site : Site)
    (check : List Shape → Except EvalError.Cause Shape)
    (combine : List Series → Except EvalError.Cause Series) :
    (elementwise site check combine as).shape = (elementwise site check combine bs).shape := by
  simp only [elementwise, mapM_shape_congr h]

theorem unary_shape_congr (h : a.shape = b.shape) (site : Site) (op : UnaryOp) :
    (unary site op a).shape = (unary site op b).shape := by
  have hlist : [a].map shape = [b].map shape := by simp [h]
  cases op with
  | plus => exact h
  | _ => exact elementwise_shape_congr hlist _ _ _

theorem arrayLiteral_shape_congr {items items' : List (Item m)}
    (hrules : items.map Item.toRules = items'.map Item.toRules)
    (hshapes : items.map (·.meaning.shape) = items'.map (·.meaning.shape)) (site : Site)
    (limit : Nat) :
    (arrayLiteral site limit items).shape = (arrayLiteral site limit items').shape := by
  have hmeanings : (items.map Item.meaning).map shape = (items'.map Item.meaning).map shape := by
    rw [List.map_map, List.map_map]
    exact hshapes
  have hmapM := mapM_shape_congr hmeanings
  rw [List.mapM_map, List.mapM_map] at hmapM
  simp only [arrayLiteral, hrules]
  exact congrArg (· >>= _) hmapM

/-- Builtins find their shapes by the shapes of the arguments alone. -/
theorem ofBuiltinCall_shape_congr (h : as.map shape = bs.map shape) (site : Site) (name : String) :
    (ofBuiltinCall site name as).shape = (ofBuiltinCall site name bs).shape := by
  have hlength : as.length = bs.length := by simpa using congrArg List.length h
  have hhead : (as.headD default).shape = (bs.headD default).shape := by
    have := congrArg (List.headD · (default : Meaning m).shape) h
    cases as <;> cases bs <;> simp_all
  unfold ofBuiltinCall
  rw [hlength]
  cases Catalog.lookup name bs.length with
  | error cause => rfl
  | ok found =>
    cases found with
    | none => rfl
    | some builtin =>
      simp only [Meaning.builtin]
      cases builtin.kernel with
      | map f => exact elementwise_shape_congr h _ _ _
      | zip f => exact elementwise_shape_congr h _ _ _
      | reduce f => simp only [ofKernel, reduced, hhead]
      | whole f rule => exact congrArg (· >>= _) (mapM_shape_congr h)
      | reserved => rfl

end Nodes

end Meaning

/-! ### Expressions -/

namespace Expr

variable {ds : Declarations}

/-- The parts of an expression whose shape may not vary have shapes that may not vary. -/
theorem shapeMayVary_child {e c : Expr} (h : e.shapeMayVary ds = false) (hc : c ∈ e.children) :
    c.shapeMayVary ds = false := by
  cases e with
  | constant | identifier => cases hc
  | conditional | range | comprehension | filtered => simp [shapeMayVary] at h
  | vector items span | array items span =>
    rw [shapeMayVary] at h
    exact anyShapeMayVary_eq_false.mp h c hc
  | call name args span =>
    rw [shapeMayVary, Bool.or_eq_false_iff] at h
    exact anyShapeMayVary_eq_false.mp h.2 c hc
  | _ =>
    simp only [children, List.mem_cons, List.not_mem_nil, or_false] at hc
    simp only [shapeMayVary, Bool.or_eq_false_iff] at h
    grind

variable {m : Type → Type} [Answering m] [LawfulMonad m] {w : Setting}

/-- An expression whose shape may not vary has one shape in scopes that differ in values only. -/
theorem shape_congr {e : Expr} (he : e.shapeMayVary w.declarations = false) {ctx : Context}
    {t : Scope} (hscope : ctx.scope.ShapedAlike t) :
    (e.meaning (m := m) w ctx).shape = (e.meaning w { ctx with scope := t }).shape := by
  induction e using induction_on_children with
  | h e ih =>
    have hpart : ∀ c ∈ e.children, (Meaning.delay (m := m) fun _ => c.meaning w ctx).shape =
        (Meaning.delay fun _ => c.meaning w { ctx with scope := t }).shape := by
      intro c hc
      rw [Meaning.delay_eq, Meaning.delay_eq]
      exact ih c hc (shapeMayVary_child he hc)
    have hparts : ∀ items : List Expr, (∀ item ∈ items, item ∈ e.children) →
        (items.map fun item => Meaning.delay (m := m) fun _ => item.meaning w ctx).map
            Meaning.shape =
          (items.map fun item => Meaning.delay fun _ =>
            item.meaning w { ctx with scope := t }).map Meaning.shape := by
      intro items hitems
      rw [List.map_map, List.map_map]
      exact List.map_congr_left fun item hitem => hpart item (hitems item hitem)
    rw [meaning_eq_meaningBy, meaning_eq_meaningBy]
    cases e with
    | constant x span => rfl
    | identifier name span =>
      rcases hscope name with hfind | ⟨u, v, hu, hv, huv⟩
      · -- the scope is looked at once: behind it both evaluations stand in one context
        cases hbound : ctx.scope.find? name with
        | none =>
          have hbound' : ({ ctx with scope := t } : Context).scope.find? name = none :=
            hfind ▸ hbound
          rw [meaningBy_free hbound, meaningBy_free hbound']
          rfl
        | some binding =>
          have hbound' : ({ ctx with scope := t } : Context).scope.find? name = some binding :=
            hfind ▸ hbound
          cases binding with
          | value v => rw [meaningBy_bound hbound, meaningBy_bound hbound']
          | deferred arg outer owner =>
            rw [meaningBy_deferred hbound, meaningBy_deferred hbound']
            rfl
      · have hv : ({ ctx with scope := t } : Context).scope.find? name = some (.value v) := hv
        rw [meaningBy_bound hu, meaningBy_bound hv, Meaning.const, Meaning.const, huv]
    | vector items span =>
      rw [meaningBy_vector, meaningBy_vector]
      exact Meaning.elementwise_shape_congr (hparts items fun _ => id) _ _ _
    | array items span =>
      rw [meaningBy_array, meaningBy_array]
      refine Meaning.arrayLiteral_shape_congr ?_ ?_ _ _
      · rw [List.map_map, List.map_map]
        rfl
      · rw [List.map_map, List.map_map]
        exact List.map_congr_left fun item hitem => hpart item hitem
    | call name args span =>
      rw [shapeMayVary, Bool.or_eq_false_iff] at he
      have hcontains : ({ ctx with scope := t } : Context).scope.contains name =
          ctx.scope.contains name := hscope.contains_eq.symm
      by_cases hbound : ctx.scope.contains name
      · rw [meaningBy_call_bound hbound, meaningBy_call_bound (hcontains.trans hbound)]
        rfl
      · have hbound' := hcontains ▸ hbound
        have hfind : w.declarations.find? name = none := by
          simpa [NameTable.contains] using he.1
        rw [meaningBy_call_builtin hbound hfind, meaningBy_call_builtin hbound' hfind]
        exact Meaning.ofBuiltinCall_shape_congr (hparts args fun _ => id) _ _
    | unary op operand span =>
      exact Meaning.unary_shape_congr (hpart _ (by simp [children])) _ _
    | binary op left right span =>
      exact Meaning.elementwise_shape_congr (hparts [left, right] (by simp [children])) _ _ _
    | index target position span =>
      exact Meaning.index_shape_congr (hpart _ (by simp [children]))
        (hpart _ (by simp [children])) _
    | swizzle target components span =>
      exact Meaning.swizzle_shape_congr (hpart _ (by simp [children])) _ _
    | conditional | range | comprehension | filtered => simp [shapeMayVary] at he

/-- A body whose shape may not vary has one shape for all elements of one shape: from every memory
the same shape is found or the same error is raised, and the same is remembered. -/
theorem shape_eq_of_fixed {body : Expr} (hfixed : body.shapeMayVary w.declarations = false)
    (ctx : Context) (binder : String) {u v : Series} (hshape : u.shape = v.shape) (μ : Memory) :
    (body.meaning (m := Eval) w (ctx.bind binder u)).shape.run.run μ =
      (body.meaning (m := Eval) w (ctx.bind binder v)).shape.run.run μ := by
  have hscope : (ctx.bind binder u).scope.ShapedAlike (ctx.bind binder v).scope :=
    .bind ctx.scope binder hshape
  rw [shape_congr (m := Eval) hfixed hscope]
  rfl

/-- A call whose argument `scale if time else rotation` waits under the name `p`. -/
def blinking : Context where
  scope := .defer "p" (.conditional (.identifier "scale" .none) (.identifier "time" .none)
    (.identifier "rotation" .none) .none) .root none .root
  owner := none
  depth := 0
  opened := []

/-- The expression `join(i, p.x)`. -/
def joined : Expr :=
  .call "join" [.identifier "i" .none, .swizzle (.identifier "p" .none) "x" .none] .none

/-- Nothing is declared. -/
def undeclared : Setting := ⟨.empty, {}, .initial⟩

/-- The shape of what is joined does not depend on the number that `i` stands for, although the
argument that waits may have one of two shapes. -/
theorem shape_of_joined :
    joined.shapeMayVary undeclared.declarations = false ∧
      (Series.scalar 1).shape = (Series.scalar 2).shape ∧
      (joined.meaning (m := Eval) undeclared (blinking.bind "i" (.scalar 1))).shape.run.run
          ⟨.empty, 0, 0⟩ =
        (joined.meaning (m := Eval) undeclared (blinking.bind "i" (.scalar 2))).shape.run.run
          ⟨.empty, 0, 0⟩ := by
  have hfixed : joined.shapeMayVary undeclared.declarations = false := by decide
  have hshape : (Series.scalar 1).shape = (Series.scalar 2).shape := by
    simp [Series.shape, Series.scalar, Series.dimension]
  exact ⟨hfixed, hshape, shape_eq_of_fixed hfixed blinking "i" hshape _⟩

end Expr

end VectorScript
