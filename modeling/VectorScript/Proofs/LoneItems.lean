import VectorScript.Proofs.NarrowedRequests
import VectorScript.Proofs.ScalarReads

/-!
# Lone items

A literal with one item leaves requests for elements to the item, and a longer one routes them to
the items that hold the elements.  For one item both ways come to the same: the item gives the same
elements if indices out of range are left out first, and it has the dimension of the literal unless
it is empty and has several components.

* `Meaning.Backed`: answers from memories with settled values are those of a family in the long run.
* `Meaning.Narrowing`: requests that name the same elements end alike, too.
* `Expr.narrowing_careful`: careful evaluation answers that way.
* `Expr.lone_item_gathered`: what a literal with one item answers is what routing would give.
-/

namespace VectorScript

open Filter

namespace Meaning

/-! ### Answers that are those of a family -/

/-- From memories whose cache fulfils `I`, whatever is answered is what a family settles on, and the
cache fulfils `I` afterwards. -/
structure Backed (I : NameTable Series → Prop) (hollow : Prop) (a : Meaning Eval)
    (M : Nat → Meaning Plain) : Prop where
  shape : ∀ {μ μ' s}, I μ.cache → a.shape.run.run μ = (.ok s, μ') →
    I μ'.cache ∧ s.Sized hollow ∧ ∀ᶠ k in atTop, (M k).shape = .ok s
  all : ∀ {μ μ' v}, I μ.cache → (a.values .all).run.run μ = (.ok v, μ') →
    I μ'.cache ∧ v.Sized hollow ∧ SettlesFully M v
  elements : ∀ {μ μ' S v}, I μ.cache → (a.values (.at S)).run.run μ = (.ok v, μ') →
    I μ'.cache ∧ ∃ u : Series, u.Sized hollow ∧ v = u.gather S ∧ Settles M u (· ∈ S)

/-- Moreover, requests for the same elements end alike. -/
structure Narrowing (I : NameTable Series → Prop) (hollow : Prop) (a : Meaning Eval)
    (M : Nat → Meaning Plain) : Prop extends Backed I hollow a M where
  narrows : ∀ {s μ}, (∀ᶠ k in atTop, (M k).shape = .ok s) → I μ.cache → a.NarrowsAt s.length μ

variable {I : NameTable Series → Prop} {hollow : Prop} {a : Meaning Eval}
  {M : Nat → Meaning Plain} {μ μ' : Memory} {s : Shape} {S : List Int} {v : Series}

theorem Backed.hasLengthAt (h : Backed I hollow a M) (hs : ∀ᶠ k in atTop, (M k).shape = .ok s)
    (hμ : I μ.cache) : a.HasLengthAt s.length μ := by
  intro t μ' ht
  obtain ⟨-, -, ht⟩ := h.shape hμ ht
  rw [eventually_unique ht hs]

/-- What is answered with a memory as without one, and foretold so, is backed. -/
theorem Backed.of_matches {known D : String → Option Series} {b : Meaning Plain}
    (h : (Simulation.answering known D).Matches a b) (hb : Foretells hollow b M) :
    Backed (Agrees known D) hollow a M where
  shape hμ hs := by
    obtain ⟨hμ', hrel⟩ := h.shape _ hμ
    rw [hs] at hμ' hrel
    exact ⟨hμ', hb.shape (hrel _ rfl)⟩
  all hμ hv := by
    obtain ⟨hμ', hrel⟩ := h.values .all _ hμ
    rw [hv] at hμ' hrel
    exact ⟨hμ', hb.all (hrel _ rfl)⟩
  elements {μ μ' S v} hμ hv := by
    obtain ⟨hμ', hrel⟩ := h.values (.at S) _ hμ
    rw [hv] at hμ' hrel
    exact ⟨hμ', hb.elements (hrel _ rfl)⟩

/-- A request that succeeds gives elements of a series, and every request for the same elements does
so, too. -/
theorem Narrowing.gathered (h : Narrowing I hollow a M) (hμ : I μ.cache)
    (hv : (a.values (.at S)).run.run μ = (.ok v, μ')) :
    I μ'.cache ∧ ∃ u : Series, u.Sized hollow ∧ (∀ᶠ k in atTop, (M k).shape = .ok u.shape) ∧
      v = u.gather S ∧ ∀ S' : List Int, S.filter (inRange u.length) = S'.filter (inRange u.length) →
        (a.values (.at S')).run.run μ = (.ok (u.gather S'), μ') := by
  obtain ⟨hμ', u, hsized, hgather, hsettles⟩ := h.elements hμ hv
  refine ⟨hμ', u, hsized, hsettles.shape, hgather, fun S' hsame => ?_⟩
  obtain ⟨v', hv'⟩ := h.narrows hsettles.shape hμ hsame hv
  obtain ⟨-, u', -, rfl, hsettles'⟩ := h.elements hμ hv'
  -- in range the second list names what the first one names
  have hnamed : ∀ i ∈ S', inRange u.length i → i ∈ S := by
    intro i hi hrange
    have hmem : i ∈ S.filter (inRange u.length) := hsame ▸ List.mem_filter.mpr ⟨hi, hrange⟩
    exact (List.mem_filter.mp hmem).1
  have hsame : u'.gather S' = u.gather S' :=
    eventually_unique (hsettles'.elements S' fun _ hi _ => hi) (hsettles.elements S' hnamed)
  rw [hv', hsame]

/-! ### Nodes that leave requests to their parts -/

/-- Positions that are out of range, or that nothing is read for, name no element. -/
theorem filter_map_pick (ps : List Int) (n : Nat) (S : List Int) :
    (S.map (Series.pick ps)).filter (inRange n) =
      ((S.filter (inRange ps.length)).map (Series.pick ps)).filter (inRange n) := by
  induction S with
  | nil => rfl
  | cons i S ih =>
    by_cases hi : inRange ps.length i
    · rw [List.filter_cons_of_pos hi, List.map_cons, List.map_cons, List.filter_cons,
        List.filter_cons, ih]
    · have hnone : ¬ inRange n (Series.pick ps i) := by simp [Series.pick, hi, inRange_iff]
      rw [List.filter_cons_of_neg hi, List.map_cons, List.filter_cons_of_neg hnone, ih]

theorem run_index_at_eq_ok {site : Site} {target position : Meaning Eval} :
    ((index site target position).values (.at S)).run.run μ = (.ok v, μ') ↔
      ∃ p μ₁, (position.values (.at S)).run.run μ = (.ok p, μ₁) ∧ p.dimension = 1 ∧
        (target.values (.at (Foretells.positionsOf p))).run.run μ₁ = (.ok v, μ') := by
  refine run_bind_eq_ok.trans (exists₂_congr fun p μ₁ => and_congr_right fun _ => ?_)
  exact run_check_eq_ok.trans (and_congr_left' not_not)

theorem narrowsAt_index {site site' : Site} {target position : Meaning Eval}
    {T P : Nat → Meaning Plain} (ht : Narrowing I hollow target T)
    (hp : Narrowing I hollow position P)
    (hs : ∀ᶠ k in atTop, (index site' (T k) (P k)).shape = .ok s) (hμ : I μ.cache) :
    (index site target position).NarrowsAt s.length μ := by
  intro S S' v μ' hsame hrun
  obtain ⟨p, μ₁, hposition, hdim, htarget⟩ := run_index_at_eq_ok.mp hrun
  obtain ⟨hμ₁, u, husized, hushape, rfl, hposition'⟩ := hp.gathered hμ hposition
  obtain ⟨-, t, -, -, -, htarget'⟩ := ht.gathered hμ₁ htarget
  have hdim : u.dimension = 1 := by rwa [Series.dimension_gather] at hdim
  have hlength : s.length = u.length := by
    obtain ⟨k, hk, huk⟩ := (hs.and hushape).exists
    obtain ⟨ps, ts, hps, -, -, rfl⟩ := Foretells.index_shape_eq_ok.mp hk
    exact congrArg Shape.length (Except.ok.inj (hps.symm.trans huk))
  rw [hlength] at hsame
  have hpositions : (Foretells.positionsOf (u.gather S)).filter (inRange t.length) =
      (Foretells.positionsOf (u.gather S')).filter (inRange t.length) := by
    have hcount := Foretells.length_positionsOf husized.regular hdim
    rw [Foretells.positionsOf_gather husized.regular hdim,
      Foretells.positionsOf_gather husized.regular hdim, filter_map_pick, filter_map_pick _ _ S',
      hcount, hsame]
  refine ⟨_, run_index_at_eq_ok.mpr ⟨u.gather S', μ₁, hposition' S' hsame, ?_,
    htarget' _ hpositions⟩⟩
  rw [Series.dimension_gather, hdim]

theorem narrowsAt_swizzle {site site' : Site} {components : String} {target : Meaning Eval}
    {T : Nat → Meaning Plain} (ht : Narrowing I hollow target T)
    (hs : ∀ᶠ k in atTop, (swizzle site' components (T k)).shape = .ok s) (hμ : I μ.cache) :
    (swizzle site components target).NarrowsAt s.length μ := by
  intro S S' v μ' hsame hrun
  obtain ⟨w, μ₁, hw, hrun⟩ := run_bind_eq_ok.mp hrun
  obtain ⟨picks, μ₂, hpicks, hrun⟩ := run_bind_eq_ok.mp hrun
  obtain ⟨hchannels, rfl⟩ := run_liftAt_eq_ok.mp hpicks
  obtain ⟨-, rfl⟩ := run_pure_eq_ok.mp hrun
  obtain ⟨-, u, -, hushape, rfl, hw'⟩ := ht.gathered hμ hw
  have hlength : s.length = u.length := by
    obtain ⟨k, hk, huk⟩ := (hs.and hushape).exists
    obtain ⟨t, _, hts, -, rfl⟩ := Foretells.swizzle_shape_eq_ok.mp hk
    exact congrArg Shape.length (Except.ok.inj (hts.symm.trans huk))
  rw [hlength] at hsame
  refine ⟨_, run_bind_eq_ok.mpr ⟨u.gather S', _, hw' S' hsame, run_bind_eq_ok.mpr
    ⟨picks, _, run_liftAt_eq_ok.mpr ⟨?_, rfl⟩, rfl⟩⟩⟩
  rwa [Series.dimension_gather] at hchannels ⊢

/-- A condition that is one number picks the same branch in the long run. -/
theorem eventually_conditional_shape {site : Site} {A C B : Nat → Meaning Plain} {c : Series}
    (hshape : ∀ᶠ k in atTop, (C k).shape = .ok .scalar)
    (hvalue : ∀ᶠ k in atTop, (C k).values .all = .ok c) (hnan : ¬ c.first.isNaN)
    (hs : ∀ᶠ k in atTop, (conditional site (A k) (C k) (B k)).shape = .ok s) :
    ∀ᶠ k in atTop, (if c.first != 0 then A k else B k).shape = .ok s := by
  filter_upwards [hshape, hvalue, hs] with k hk hk' hs
  rw [← hs]
  by_cases hzero : c.first != 0
  · simp only [conditional, after, hk, hk', ok_bind, if_true, hnan, hzero]
    rfl
  · simp only [conditional, after, hk, hk', ok_bind, if_true, hnan, hzero]
    rfl

theorem narrowsAt_conditional {site site' : Site} {consequent condition alternative : Meaning Eval}
    {A C B : Nat → Meaning Plain} (ha : Narrowing I hollow consequent A)
    (hc : Narrowing I hollow condition C) (hb : Narrowing I hollow alternative B)
    (hs : ∀ᶠ k in atTop, (conditional site' (A k) (C k) (B k)).shape = .ok s)
    (hlength : (conditional site consequent condition alternative).HasLengthAt s.length μ)
    (hμ : I μ.cache) :
    (conditional site consequent condition alternative).NarrowsAt s.length μ := by
  refine narrowsAt_after fun {b μ'} hfind => ?_
  have hlength := hlength.of_after hfind
  obtain ⟨t, μ₁, ht, hfind⟩ := run_bind_eq_ok.mp hfind
  obtain ⟨hμ₁, -, htshape⟩ := hc.shape hμ ht
  split_ifs at hfind with hscalar
  · subst hscalar
    obtain ⟨c, μ₂, hvalue, hfind⟩ := run_bind_eq_ok.mp hfind
    obtain ⟨hμ₂, -, hsettles⟩ := hc.all hμ₁ hvalue
    dsimp only at hfind
    split_ifs at hfind with hnan hzero
    · obtain ⟨u, μ₃, -, hfind⟩ := run_bind_eq_ok.mp hfind
      obtain ⟨rfl, -⟩ := run_pure_eq_ok.mp hfind
      exact narrowsAt_nan u
    · obtain ⟨rfl, rfl⟩ := run_pure_eq_ok.mp hfind
      have hbranch := eventually_conditional_shape htshape hsettles.all hnan hs
      simp only [hzero, if_true] at hbranch
      exact ha.narrows hbranch hμ₂
    · obtain ⟨rfl, rfl⟩ := run_pure_eq_ok.mp hfind
      have hbranch := eventually_conditional_shape htshape hsettles.all hnan hs
      simp only [hzero] at hbranch
      exact hb.narrows hbranch hμ₂
  · obtain ⟨rfl, -⟩ := run_pure_eq_ok.mp hfind
    exact narrowsAt_elementwise hlength

/-! ### Literals with one item -/

section Lone

variable {site : Site} {limit : Nat} {item : Item Eval} {t d : Shape}

theorem run_arrayLiteral_shape_of_one :
    (arrayLiteral site limit [item]).shape.run.run μ = (.ok d, μ') ↔
      ∃ t, item.meaning.shape.run.run μ = (.ok t, μ') ∧
        arrayShape site limit [item.toRules] [t] = .ok d := by
  have hshape : (arrayLiteral site limit [item]).shape = (do
      let t ← item.meaning.shape
      Answering.ofExcept (arrayShape site limit [item.toRules] [t])) := by
    simp [arrayLiteral]
  rw [hshape, run_bind_eq_ok]
  simp only [run_ofExcept_eq_ok]
  constructor
  · rintro ⟨t, _, ht, hd, rfl⟩
    exact ⟨t, ht, hd⟩
  · rintro ⟨t, ht, hd⟩
    exact ⟨t, μ', ht, hd, rfl⟩

/-- The item is asked after the shape of the literal was found. -/
theorem arrayLiteral_values_of_one (S : List Int) :
    (arrayLiteral site limit [item]).values (.at S) =
      (arrayLiteral site limit [item]).shape >>= fun _ => item.meaning.values (.at S) := by
  simp [arrayLiteral]

/-- What the shape of a literal with one item says about the item. -/
theorem arrayShape_of_one {r : Item.Rules} (h : arrayShape site limit [r] [t] = .ok d) :
    (0 < t.length → t.dimension = d.dimension) ∧ (t.length = 0 → d.dimension = 1) ∧
      d.length = min t.length maxLength := by
  have h : arrayShape site limit ((List.range 1).map fun _ => r) ((List.range 1).map fun _ => t) =
    .ok d := h
  obtain ⟨hfits, hempty, hlength, -⟩ := Foretells.arrayShape_eq_ok.mp h
  refine ⟨(hfits 0 Nat.one_pos).1, fun hzero => hempty fun _ _ => hzero, ?_⟩
  simpa using hlength

/-- An item may stand alone as well. -/
theorem run_shape_of_alone (h : a.alone.shape.run.run μ = (.ok s, μ')) :
    a.shape.run.run μ = (.ok s, μ') := by
  obtain ⟨t, μ₁, ht, h⟩ := run_bind_eq_ok.mp h
  split_ifs at h
  · obtain ⟨rfl, rfl⟩ := run_pure_eq_ok.mp h
    exact ht
  · cases h

end Lone

end Meaning

/-! ### Evaluation -/

namespace Expr

open Meaning

variable {filters : Bool} {known : String → Option Series} {w : Setting} {ctx ctx' : Context}
  {fewer : Nat} {s : Shape} {μ : Memory}

/-- What the steps of careful evaluation from an expression lead to is narrowing. -/
def StepsNarrow (filters : Bool) (known : String → Option Series) (w : Setting) (ctx : Context)
    (e : Expr) : Prop :=
  ∀ {ctx₁ e₁ ctx₁'}, Leads w ctx e ctx₁ e₁ → ctx₁.Linked (.ofUnrolling filters known w) ctx₁' →
    ∀ fewer, Narrowing (Agrees known (settled filters known w)) (filters = true)
      (careful filters w ctx₁ e₁) (unrolling known w fewer ctx₁' e₁)

/-- In the long run, the shape that unrolling finds is found by a step. -/
theorem eventually_step_shape {e : Expr}
    (hbound : ∀ name span, e = identifier name span → ctx'.scope.find? name ≠ none)
    (hs : ∀ᶠ k in atTop, (unrolling known w fewer ctx' e k).shape = .ok s) :
    ∀ᶠ k in atTop, (meaningBy (w.within k) (fun ctx e => unrolling known w (fewer + 1) ctx e k)
      ctx'.fresh e).shape = .ok s := by
  filter_upwards [hs, eventually_unrolling_bound known w fewer hbound] with k hk hunrolled
  rw [hunrolled, hk]

/-- A free name that is not remembered. -/
theorem narrowsAt_declaredBy {name : String} {span : Span}
    (hfree : ctx.scope.find? name = none) (hfree' : ctx'.scope.find? name = none)
    (hunknown : known name = none)
    (hsteps : StepsNarrow filters known w ctx (identifier name span))
    (hs : ∀ᶠ k in atTop, (unrolling known w fewer ctx' (identifier name span) k).shape = .ok s)
    (hμ : Agrees known (settled filters known w) μ.cache) :
    (declaredBy w (careful filters w) ctx name span).NarrowsAt s.length μ := by
  cases hfind : w.declarations.find? name with
  | none =>
    rw [declaredBy_undeclared hfind]
    exact narrowsAt_ofUndeclared
  | some st =>
    by_cases hvar : st.isVariable
    · obtain ⟨key, body, hkind⟩ := Statement.isVariable_iff.mp hvar
      by_cases hopen : name ∈ ctx.opened
      · rw [declaredBy_open hfind hkind hopen]
        exact narrowsAt_fail _ _
      · rw [declaredBy_variable hfind hkind hopen, delay_eq]
        have hlinked : (ctx.inVariable name).Linked (.ofUnrolling filters known w)
            (Context.root.inVariable name) := ⟨rfl, .root⟩
        have hbody := hsteps (.reference hfree hfind hkind hopen) hlinked (fewer + 1)
        refine narrowsAt_ofVariable fun hcache => hbody.narrows ?_ (hcache ▸ hμ)
        filter_upwards [hs, eventually_unrolling_free known w fewer span hfree'] with k hk hunrolled
        have hfind' : (w.within k).declarations.find? name = some st := hfind
        rw [← hk, ← hunrolled, hunknown, Option.elim_none,
          declaredBy_variable hfind' hkind (List.not_mem_nil : name ∉ ctx'.fresh.opened),
          ofVariable_plain]
        rfl
    · rw [declaredBy_not_variable hfind hvar]
      exact narrowsAt_fail _ _

theorem narrowsAt_identifier {name : String} {span : Span}
    (hctx : ctx.Linked (.ofUnrolling filters known w) ctx')
    (hsteps : StepsNarrow filters known w ctx (identifier name span))
    (hs : ∀ᶠ k in atTop, (unrolling known w fewer ctx' (identifier name span) k).shape = .ok s)
    (hμ : Agrees known (settled filters known w) μ.cache) :
    (meaningBy w (careful filters w) ctx (identifier name span)).NarrowsAt s.length μ := by
  cases hbound : ctx.scope.find? name with
  | some b =>
    obtain ⟨b', hbound', hlinked⟩ := hctx.scope.find?_some hbound
    cases hlinked with
    | value | evaluated =>
      rw [meaningBy_bound hbound]
      exact narrowsAt_const _
    | @deferred arg outer outer' owner harg houter =>
      rw [meaningBy_deferred hbound, delay_eq]
      have hlinked : (ctx.resume outer owner).Linked (.ofUnrolling filters known w)
        (ctx'.fresh.resume outer' owner) := ⟨rfl, houter⟩
      refine (hsteps (.deferred hbound) hlinked (fewer + 1)).narrows ?_ hμ
      have hfound : ctx'.fresh.scope.find? name = some (.deferred arg outer' owner) := hbound'
      have hstep := eventually_step_shape (by rintro _ _ ⟨⟩; simp [hbound']) hs
      filter_upwards [hstep] with k hk
      rw [← hk, meaningBy_deferred hfound]
      rfl
  | none =>
    rw [meaningBy_free hbound]
    refine narrowsAt_recalledOr fun hfind => ?_
    exact narrowsAt_declaredBy hbound (hctx.scope.find?_none hbound) (hμ.unknown hfind) hsteps hs hμ

theorem narrowsAt_call {name : String} {args : List Expr} {span : Span}
    (hctx : ctx.Linked (.ofUnrolling filters known w) ctx')
    (he : (call name args span).Written filters)
    (hsteps : StepsNarrow filters known w ctx (call name args span))
    (hs : ∀ᶠ k in atTop, (unrolling known w fewer ctx' (call name args span) k).shape = .ok s)
    (hlength : ∀ {ν : Memory}, ν.cache = μ.cache →
      (meaningBy w (careful filters w) ctx (call name args span)).HasLengthAt s.length ν)
    (hμ : Agrees known (settled filters known w) μ.cache) :
    (meaningBy w (careful filters w) ctx (call name args span)).NarrowsAt s.length μ := by
  rcases call_cases w ctx name args with ⟨cause, -, hfail⟩ |
    ⟨hbound, st, key, params, body, hfind, hkind, hcount, hdepth⟩ | ⟨hbound, hfind⟩
  · rw [hfail]
    exact narrowsAt_fail _ _
  · rw [meaningBy_call_function hbound hfind hkind hcount hdepth, delay_eq]
    have hlinked : (ctx.inFunction name (.ofArgs ctx.scope ctx.owner params args .root)).Linked
        (.ofUnrolling filters known w)
        (ctx'.fresh.inFunction name (.ofArgs ctx'.scope ctx.owner params args .root)) :=
      ⟨rfl, .ofArgs hctx.scope _ (fun arg harg => he.child harg) .root⟩
    have hbody := hsteps (.called hbound hfind hkind hcount hdepth) hlinked (fewer + 1)
    refine hbody.narrows ?_ hμ
    have hbound' : ¬ ctx'.fresh.scope.contains name := hctx.scope.not_contains hbound
    have hstep := eventually_step_shape (by rintro _ _ ⟨⟩) hs
    filter_upwards [hstep, eventually_gt_atTop 0] with k hk hpos
    have hfind' : (w.within k).declarations.find? name = some st := hfind
    rw [← hk, meaningBy_call_function hbound' hfind' hkind hcount hpos, ← hctx.owner]
    rfl
  · rw [meaningBy_call_builtin hbound hfind] at hlength ⊢
    exact narrowsAt_ofBuiltinCall hlength

/-- The item that careful evaluation of a literal with one item asks. -/
noncomputable def loneItem (filters : Bool) (w : Setting) (ctx : Context) (item : Expr) :
    Meaning.Item Eval :=
  itemOf ctx item
    (if filters then (careful filters w ctx item).alone else careful filters w ctx item)

theorem careful_singleton (item : Expr) (span : Span) :
    careful (m := Eval) filters w ctx (array [item] span) =
      arrayLiteral (ctx.site span) w.limits.maxArrayLength [loneItem filters w ctx item] := by
  rw [careful_eq, carefulBy, meaningBy_array]
  simp only [List.map_cons, List.map_nil, delay_eq, checkedPart, isSingleton, Bool.and_true,
    loneItem]

theorem run_shape_of_loneItem {item : Expr} {t : Shape} {μ' : Memory}
    (h : (loneItem filters w ctx item).meaning.shape.run.run μ = (.ok t, μ')) :
    (careful (m := Eval) filters w ctx item).shape.run.run μ = (.ok t, μ') := by
  unfold loneItem at h
  split_ifs at h
  · exact run_shape_of_alone h
  · exact h

theorem narrowsAt_loneItem {item : Expr} {n : Nat}
    (h : (careful filters w ctx item).NarrowsAt n μ) :
    (loneItem filters w ctx item).meaning.NarrowsAt n μ := by
  unfold loneItem
  split_ifs
  · exact h
  · exact h

theorem narrowsAt_singleton {item : Expr} {span : Span}
    (hctx : ctx.Linked (.ofUnrolling filters known w) ctx')
    (hsteps : StepsNarrow filters known w ctx (array [item] span))
    (hlength : (careful filters w ctx (array [item] span)).HasLengthAt s.length μ)
    (hμ : Agrees known (settled filters known w) μ.cache) :
    (careful filters w ctx (array [item] span)).NarrowsAt s.length μ := by
  have hitem := hsteps (.part List.mem_cons_self) hctx 0
  rw [careful_singleton] at hlength ⊢
  refine narrowsAt_of_bind _ (fun _ => (loneItem filters w ctx item).meaning)
    arrayLiteral_values_of_one fun {d μ₁} hd => ?_
  obtain ⟨t, ht, hcheck⟩ := run_arrayLiteral_shape_of_one.mp hd
  obtain ⟨hμ₁, hsized, hshape⟩ := hitem.shape hμ (run_shape_of_loneItem ht)
  have hn : s.length = t.length := by
    rw [← hlength hd, (arrayShape_of_one hcheck).2.2, Nat.min_eq_left hsized.length_le]
  rw [hn]
  exact narrowsAt_loneItem (hitem.narrows hshape hμ₁)

/-- Careful evaluation is narrowing. -/
theorem narrowing_careful (hw : w.Written filters)
    (hknown : ∀ name v, known name = some v → v.Sized (filters = true)) (ctx : Context) (e : Expr) :
    ∀ ctx', ctx.Linked (.ofUnrolling filters known w) ctx' → e.Written filters → ∀ fewer,
      Narrowing (Agrees known (settled filters known w)) (filters = true) (careful filters w ctx e)
        (unrolling known w fewer ctx' e) := by
  induction ctx, e using induction_on_steps w with
  | h ctx e ih =>
    intro ctx' hctx he fewer
    have hbacked := Backed.of_matches (careful_matches hw hknown ctx e)
      (foretells_careful hw hknown ctx e ctx' hctx he fewer)
    have hsteps : StepsNarrow filters known w ctx e := fun hleads hlinked fewer =>
      ih _ _ hleads _ hlinked (hleads.written hw hctx he) fewer
    refine ⟨hbacked, fun {s μ} hs hμ => ?_⟩
    -- a request finds the length in the memory it starts from, or after something was counted there
    have hlength : ∀ {ν : Memory}, ν.cache = μ.cache →
        (careful filters w ctx e).HasLengthAt s.length ν := fun hcache =>
      hbacked.hasLengthAt hs (hcache ▸ hμ)
    by_cases hsingle : e.isSingleton
    · obtain ⟨item, span, rfl⟩ := isSingleton_iff.mp hsingle
      exact narrowsAt_singleton hctx hsteps (hlength rfl) hμ
    rw [careful_eq_meaningBy (by simp [hsingle])] at hlength ⊢
    have hpart : ∀ {c}, c ∈ e.openParts → Narrowing (Agrees known (settled filters known w))
        (filters = true) (careful filters w ctx c) (unrolling known w (fewer + 1) ctx'.fresh c) :=
      fun hc => hsteps (.part hc) hctx.fresh (fewer + 1)
    cases e with
    | constant x span => exact narrowsAt_const _
    | identifier name span => exact narrowsAt_identifier hctx hsteps hs hμ
    | vector items span =>
      rw [meaningBy_vector] at hlength ⊢
      exact narrowsAt_elementwise (hlength rfl)
    | array items span =>
      rw [meaningBy_array] at hlength ⊢
      refine narrowsAt_arrayLiteral (fun hone => hsingle ?_) (hlength rfl)
      obtain ⟨item, rfl⟩ := List.length_eq_one_iff.mp ((List.length_map _).symm.trans hone)
      rfl
    | comprehension body binder source span =>
      rw [meaningBy_comprehension, Comprehension.meaning] at hlength ⊢
      split_ifs at hlength ⊢
      · exact Comprehension.narrowsAt_nested (hlength rfl)
      · exact Comprehension.narrowsAt_single (hlength rfl)
    | filtered body binder source condition span => exact Comprehension.narrowsAt_filtered _
    | call name args span => exact narrowsAt_call hctx he hsteps hs hlength hμ
    | range lower upper span => exact narrowsAt_range
    | binary op left right span => exact narrowsAt_elementwise (hlength rfl)
    | unary op operand span =>
      cases op with
      | plus =>
        have hstep := eventually_step_shape (by rintro _ _ ⟨⟩) hs
        rw [meaningBy_unary, delay_eq]
        exact (hpart (by simp [openParts, children])).narrows hstep hμ
      | _ => exact narrowsAt_elementwise (hlength rfl)
    | index target position span =>
      have hstep := eventually_step_shape (by rintro _ _ ⟨⟩) hs
      rw [meaningBy_index, delay_eq, delay_eq]
      exact narrowsAt_index (hpart (by simp [openParts, children]))
        (hpart (by simp [openParts, children])) hstep hμ
    | swizzle target components span =>
      have hstep := eventually_step_shape (by rintro _ _ ⟨⟩) hs
      rw [meaningBy_swizzle, delay_eq]
      exact narrowsAt_swizzle (hpart (by simp [openParts, children])) hstep hμ
    | conditional consequent condition alternative span =>
      have hstep := eventually_step_shape (by rintro _ _ ⟨⟩) hs
      rw [meaningBy_conditional, delay_eq, delay_eq, delay_eq] at hlength ⊢
      exact narrowsAt_conditional (hpart (by simp [openParts, children]))
        (hpart (by simp [openParts, children])) (hpart (by simp [openParts, children])) hstep
        (hlength rfl) hμ

end Expr

/-! ### One segment -/

/-- The only segment is asked for all elements in range. -/
theorem Routing.requestsOf_one (n : Nat) (S : List Int) :
    requestsOf [n] S 0 = S.filter (inRange n) := by
  have htotal : total [n] = n := Nat.zero_add n
  have howner : ∀ i, ownerOf [n] i = 0 := fun i => by simp [ownerOf, owner, starts]
  have hplace : placeOf [n] = id := funext fun i => by simp [placeOf, ownerOf, owner, starts]
  rw [requestsOf, (routes_ofLengths [n] S).requests 0, htotal, hplace, List.map_id]
  simp [howner]

namespace Meaning

variable {site : Site} {u : Series} {d : Nat} {S : List Int}
  {segment : Nat → List Int → Eval Series} {μ μ' : Memory}

/-- The only segment is not asked if nothing is wanted. -/
theorem askSegments_of_one (n : Nat) : askSegments [n] S segment =
    if S.filter (inRange n) = [] then pure [none]
    else (fun w => [some w]) <$> segment 0 (S.filter (inRange n)) := by
  have hrequests : ((Routing.ofLengths [n] S).requests.getD 0 #[]).toList = S.filter (inRange n) :=
    Routing.requestsOf_one n S
  have hempty : ((Routing.ofLengths [n] S).requests.getD 0 #[]).isEmpty ↔
      S.filter (inRange n) = [] := by
    rw [Array.isEmpty_iff, ← Array.toList_eq_nil_iff, hrequests]
  unfold askSegments
  rw [List.length_singleton, List.range_one, List.mapM_cons, List.mapM_nil]
  by_cases hnil : S.filter (inRange n) = []
  · rw [if_pos hnil, if_pos (hempty.mpr hnil)]
    simp
  · rw [if_neg hnil, if_neg (mt hempty.mp hnil), hrequests]
    simp

/-- What was routed to one segment. -/
theorem assemble_of_one (hregular : u.Regular) {parts : List (Option Series)}
    (hparts : S.filter (inRange u.length) ≠ [] →
      parts = [some (u.gather (S.filter (inRange u.length)))]) :
    (Routing.ofLengths [u.length] S).assemble u.dimension parts.toArray = u.gather S := by
  have huniform : Series.Uniform u.dimension [u] := fun w hw => by
    obtain rfl := List.mem_singleton.mp hw
    exact ⟨hregular, fun _ => rfl⟩
  have hconcat : Series.concat u.dimension [u] = u :=
    Foretells.concat_one (v := fun _ => u) hregular rfl
  have hassemble : (Routing.ofLengths [u.length] S).assemble u.dimension parts.toArray =
      (Series.concat u.dimension [u]).gather S := by
    refine Routing.assemble_eq_gather huniform fun k hk => ?_
    obtain rfl : k = 0 := Nat.lt_one_iff.mp (Foretells.lt_of_requestsOf hk)
    rw [List.map_singleton, Routing.requestsOf_one] at hk ⊢
    rw [hparts hk]
    rfl
  rw [hassemble, hconcat]

/-- Routing to one segment gives the elements of the segment. -/
theorem run_gatherSegments_of_one (hregular : u.Regular) (hlength : u.length ≤ maxLength)
    (hsegment : (segment 0 (S.filter (inRange u.length))).run.run μ =
      (.ok (u.gather (S.filter (inRange u.length))), μ')) :
    ∃ ν, (gatherSegments site [u.length] u.dimension S segment).run.run μ =
      (.ok (u.gather S), ν) := by
  have htotal : Routing.total [u.length] ≤ maxLength := by simpa using hlength
  by_cases hnil : S.filter (inRange u.length) = []
  · refine ⟨μ, run_gatherSegments_eq_ok.mpr ⟨htotal, [none], ?_, ?_⟩⟩
    · rw [askSegments_of_one, if_pos hnil]
      rfl
    · exact (assemble_of_one hregular fun hne => absurd hnil hne).symm
  · refine ⟨μ', run_gatherSegments_eq_ok.mpr
      ⟨htotal, [some (u.gather (S.filter (inRange u.length)))], ?_, ?_⟩⟩
    · rw [askSegments_of_one, if_neg hnil]
      exact run_map_eq_ok.mpr ⟨_, hsegment, rfl⟩
    · exact (assemble_of_one hregular fun _ => rfl).symm

theorem dimension_of_gatherSegments {lengths : List Nat} {v : Series}
    (h : (gatherSegments site lengths d S segment).run.run μ = (.ok v, μ')) : v.dimension = d := by
  obtain ⟨-, parts, -, rfl⟩ := run_gatherSegments_eq_ok.mp h
  simp [Routing.assemble, Series.dimension]

end Meaning

namespace Expr

open Meaning

variable {filters : Bool} {w : Setting} {ctx : Context} {e : Expr} {S : List Int}
  {μ μ₁ μ₂ : Memory} {t : Shape} {v : Series}

/-- What careful evaluation of a lone item gives is what routing to it gives, in the dimension of
the item. -/
theorem careful_gathered (hw : w.Written filters) (hscope : ctx.scope.Written filters)
    (he : e.Written filters)
    (hμ : ∀ name u, μ.cache.find? name = some u → u.Sized (filters = true))
    (ht : (e.careful (m := Eval) filters w ctx).shape.run.run μ = (.ok t, μ₁))
    (hv : ((e.careful (m := Eval) filters w ctx).values (.at S)).run.run μ₁ = (.ok v, μ₂)) :
    v.shape = ⟨S.length, t.dimension⟩ ∧
      ∀ site, ∃ ν, (gatherSegments (m := Eval) site [t.length] t.dimension S fun _ wanted =>
        (e.meaning w ctx).values (.at wanted)).run.run μ₁ = (.ok v, ν) := by
  have hagrees : Agrees μ.cache.find? (settled filters μ.cache.find? w) μ.cache :=
    ⟨fun hfind => settled_of_known (hμ _ _ hfind) hfind, fun hfind => hfind⟩
  have hnarrowing := narrowing_careful hw hμ ctx e ctx ⟨rfl, hscope.linked⟩ he 0
  obtain ⟨hagrees₁, -, htshape⟩ := hnarrowing.shape hagrees ht
  obtain ⟨-, u, hsized, hushape, rfl, hnarrowed⟩ := hnarrowing.gathered hagrees₁ hv
  obtain rfl : t = u.shape := eventually_unique htshape hushape
  -- leaving out what is out of range, the item gives the same elements
  have hrun := hnarrowed (S.filter (inRange u.length)) (by rw [List.filter_filter]; simp)
  have hsame : Simulation.refusing.Matches (e.careful filters w ctx) (e.meaning w ctx) :=
    careful_or_refused ctx e
  have hasked := (hsame.values _).of_not_refused (not_refused_of_ok hrun)
  exact ⟨Series.shape_gather u S, fun site => run_gatherSegments_of_one hsized.regular
    hsized.sized.length_le (hasked.symm.trans hrun)⟩

/-- Where careful evaluation does not refuse, it answers as evaluation does. -/
theorem careful_of_not_refused (h : ¬ (filters = true ∧ (Refused (e.careful true w ctx).shape μ ∨
      Refused ((e.careful true w ctx).values (.at S)) μ₁)))
    (ht : (e.meaning (m := Eval) w ctx).shape.run.run μ = (.ok t, μ₁))
    (hv : ((e.meaning (m := Eval) w ctx).values (.at S)).run.run μ₁ = (.ok v, μ₂)) :
    (e.careful (m := Eval) filters w ctx).shape.run.run μ = (.ok t, μ₁) ∧
      ((e.careful (m := Eval) filters w ctx).values (.at S)).run.run μ₁ = (.ok v, μ₂) := by
  cases filters with
  | false =>
    rw [careful_false]
    exact ⟨ht, hv⟩
  | true =>
    have hcareful : Simulation.refusing.Matches (e.careful true w ctx) (e.meaning w ctx) :=
      careful_or_refused ctx e
    obtain ⟨hshape, hvalues⟩ := not_or.mp fun hrefused => h ⟨rfl, hrefused⟩
    exact ⟨(hcareful.shape.of_not_refused hshape).trans ht,
      ((hcareful.values (.at S)).of_not_refused hvalues).trans hv⟩

theorem meaning_singleton (e : Expr) (span : Span) :
    (array [e] span).meaning (m := Eval) w ctx =
      arrayLiteral (ctx.site span) w.limits.maxArrayLength
        [itemOf ctx e (e.meaning w ctx)] := by
  rw [meaning_eq_meaningBy, meaningBy_array, List.map_singleton, delay_eq]

/-- The dimension of the literal is that of the item if and only if the item stands alone. -/
theorem dimension_eq_iff_standsAlone {site : Site} {limit : Nat} {r : Item.Rules} {d : Shape}
    (hd : arrayShape site limit [r] [t] = .ok d) : t.dimension = d.dimension ↔ t.StandsAlone := by
  obtain ⟨hdim, hempty, -⟩ := arrayShape_of_one hd
  constructor
  · intro hsame hzero
    rw [hsame, hempty hzero]
  · intro halone
    exact halone.dimension_eq hdim hempty

/-- A literal with one item whose shape is found and fits answers a request for elements as its item
does. -/
theorem run_singleton_values {span : Span} {d : Shape}
    (ht : (e.meaning (m := Eval) w ctx).shape.run.run μ = (.ok t, μ₁))
    (hd : arrayShape (ctx.site span) w.limits.maxArrayLength [⟨ctx.site e.span, e.makesRun⟩] [t] =
      .ok d)
    (hv : ((e.meaning (m := Eval) w ctx).values (.at S)).run.run μ₁ = (.ok v, μ₂)) :
    (((array [e] span).meaning (m := Eval) w ctx).values (.at S)).run.run μ = (.ok v, μ₂) := by
  rw [meaning_singleton, arrayLiteral_values_of_one]
  exact run_bind_eq_ok.mpr ⟨d, μ₁, run_arrayLiteral_shape_of_one.mpr ⟨t, ht, hd⟩, hv⟩

/-- A literal with one item whose shape is found and fits answers a request for elements as its item
does.  That is what routing to one segment of the item's length gives, in the dimension of the
literal, if and only if the item stands alone: if it is empty it has one component.  There is an
exception only where comprehensions have conditions: within the item, the only item of a literal was
found not to stand alone, which careful evaluation refuses. -/
theorem lone_item_gathered {filters : Bool} (hw : w.Written filters)
    (hscope : ctx.scope.Written filters) (he : e.Written filters)
    (hμ : ∀ name u, μ.cache.find? name = some u → u.Sized (filters = true)) {span : Span}
    {d : Shape} (ht : (e.meaning (m := Eval) w ctx).shape.run.run μ = (.ok t, μ₁))
    (hd : arrayShape (ctx.site span) w.limits.maxArrayLength [⟨ctx.site e.span, e.makesRun⟩] [t] =
      .ok d)
    (hv : ((e.meaning (m := Eval) w ctx).values (.at S)).run.run μ₁ = (.ok v, μ₂)) :
    (((array [e] span).meaning (m := Eval) w ctx).values (.at S)).run.run μ = (.ok v, μ₂) ∧
    (v.shape = ⟨S.length, t.dimension⟩ ∧
        ((∃ ν, (gatherSegments (m := Eval) (ctx.site span) [t.length] d.dimension S fun _ wanted =>
          (e.meaning w ctx).values (.at wanted)).run.run μ₁ = (.ok v, ν)) ↔ t.StandsAlone) ∨
      filters = true ∧ (Refused (e.careful true w ctx).shape μ ∨
        Refused ((e.careful true w ctx).values (.at S)) μ₁)) := by
  refine ⟨run_singleton_values ht hd hv, ?_⟩
  by_cases hrefused : filters = true ∧ (Refused (e.careful true w ctx).shape μ ∨
      Refused ((e.careful true w ctx).values (.at S)) μ₁)
  · exact .inr hrefused
  obtain ⟨ht, hv⟩ := careful_of_not_refused hrefused ht hv
  obtain ⟨hshape, hgather⟩ := careful_gathered hw hscope he hμ ht hv
  refine .inl ⟨hshape, ⟨fun ⟨ν, h⟩ => ?_, fun halone => ?_⟩⟩
  · have hdim : v.dimension = t.dimension := congrArg Shape.dimension hshape
    exact (dimension_eq_iff_standsAlone hd).mp (hdim.symm.trans (dimension_of_gatherSegments h))
  · rw [← (dimension_eq_iff_standsAlone hd).mpr halone]
    exact hgather (ctx.site span)

end Expr

namespace Session

open Meaning

/-- The expression `name[none]`. -/
def ofNone (name : String) : Expr := .index (reference name) (reference "none") .none

/-- An item by what both requests answer. -/
theorem exists_lone_answer {a : Meaning Eval} {μ : Memory} {S : List Int} {t u : Shape}
    (hshape : (a.shape.run.run μ).1.toOption = some t)
    (hvalues : ((a.values (.at S)).run.run (a.shape.run.run μ).2).1.toOption.map Series.shape =
      some u) :
    ∃ μ₁ μ₂ v, a.shape.run.run μ = (.ok t, μ₁) ∧
      (a.values (.at S)).run.run μ₁ = (.ok v, μ₂) ∧ v.shape = u := by
  rcases hs : a.shape.run.run μ with ⟨r, μ₁⟩
  rw [hs] at hshape hvalues
  rcases hv : (a.values (.at S)).run.run μ₁ with ⟨r', μ₂⟩
  rw [hv] at hvalues
  cases r with
  | error e => cases hshape
  | ok s =>
    cases r' with
    | error e => cases hvalues
    | ok v =>
      obtain rfl : s = t := Option.some.inj hshape
      exact ⟨μ₁, μ₂, v, rfl, hv, Option.some.inj hvalues⟩

theorem careful_ofNone_scale : ∃ μ₁ μ₂ v,
    ((ofNone "scale").careful (m := Eval) true blank.setting noneDeferred).shape.run.run
        blank.memory = (.ok ⟨0, 1⟩, μ₁) ∧
      (((ofNone "scale").careful (m := Eval) true blank.setting noneDeferred).values
        (.at [0])).run.run μ₁ = (.ok v, μ₂) ∧ v.shape = ⟨1, 1⟩ := by
  rw [Expr.careful_eq_iterate 8]
  exact exists_lone_answer (by decide +kernel) (by decide +kernel)

theorem meaning_ofNone_rotation : ∃ μ₁ μ₂ v,
    ((ofNone "rotation").meaning (m := Eval) blank.setting noneDeferred).shape.run.run
        blank.memory = (.ok ⟨0, 4⟩, μ₁) ∧
      (((ofNone "rotation").meaning (m := Eval) blank.setting noneDeferred).values
        (.at [0])).run.run μ₁ = (.ok v, μ₂) ∧ v.shape = ⟨1, 4⟩ := by
  rw [← Expr.careful_false, Expr.careful_eq_iterate 8]
  exact exists_lone_answer (by decide +kernel) (by decide +kernel)

theorem arrayShape_ofNone (name : String) (d : Nat) :
    arrayShape (noneDeferred.site .none) blank.setting.limits.maxArrayLength
      [⟨noneDeferred.site (ofNone name).span, (ofNone name).makesRun⟩] [⟨0, d⟩] = .ok ⟨0, 1⟩ := by
  rfl

/-- Of the scale the only item of `[scale[none]]` is empty and has one component, and what it gives
is what routing gives. -/
theorem ofNone_scale_gathered : ∃ μ₁ μ₂ v,
    ((ofNone "scale").meaning (m := Eval) blank.setting noneDeferred).shape.run.run
        blank.memory = (.ok ⟨0, 1⟩, μ₁) ∧
      (((ofNone "scale").meaning (m := Eval) blank.setting noneDeferred).values
        (.at [0])).run.run μ₁ = (.ok v, μ₂) ∧
      (((Expr.array [ofNone "scale"] .none).meaning (m := Eval) blank.setting noneDeferred).values
        (.at [0])).run.run blank.memory = (.ok v, μ₂) ∧ v.shape = ⟨1, 1⟩ ∧
      ∃ ν, (gatherSegments (m := Eval) (noneDeferred.site .none) [0] 1 [0] fun _ wanted =>
        ((ofNone "scale").meaning blank.setting noneDeferred).values (.at wanted)).run.run μ₁ =
          (.ok v, ν) := by
  obtain ⟨μ₁, μ₂, v, ht, hv, hshape⟩ := careful_ofNone_scale
  have hcareful : Simulation.refusing.Matches
      ((ofNone "scale").careful true blank.setting noneDeferred) _ :=
    Expr.careful_or_refused noneDeferred (ofNone "scale")
  have ht' := (hcareful.shape.of_not_refused (not_refused_of_ok ht)).symm.trans ht
  have hv' := ((hcareful.values _).of_not_refused (not_refused_of_ok hv)).symm.trans hv
  have hreachable : blank.Reachable fun st => true = false → st.whenFree :=
    .load fun _ _ h => absurd h (by decide)
  have hw : blank.setting.Written true :=
    ⟨fun _ _ hfind => ⟨hreachable.formed.declarations _ _ hfind, hreachable.declared hfind⟩⟩
  have hscope : noneDeferred.scope.Written true :=
    ⟨⟨rfl, fun h => absurd h (by decide)⟩, trivial, trivial⟩
  have hwritten : (ofNone "scale").Written true := ⟨rfl, fun h => absurd h (by decide)⟩
  have hmemory : ∀ name u, blank.memory.cache.find? name = some u → u.Sized (true = true) := by
    intro name u hfind
    rw [blank, memory_load] at hfind
    cases hfind
  obtain ⟨hliteral, ⟨-, hgathered⟩ | ⟨-, hrefused | hrefused⟩⟩ :=
    Expr.lone_item_gathered hw hscope hwritten hmemory ht' (arrayShape_ofNone "scale" 1) hv'
  · exact ⟨μ₁, μ₂, v, ht', hv', hliteral, hshape, hgathered.mpr (by decide)⟩
  · exact absurd hrefused (not_refused_of_ok ht)
  · exact absurd hrefused (not_refused_of_ok hv)

/-- Of the rotation the only item of `[rotation[none]]` is empty but has four components, and the
literal has one.  What the literal answers has four components still, which routing never gives. -/
theorem ofNone_rotation_not_gathered : ∃ μ₁ μ₂ v,
    ((ofNone "rotation").meaning (m := Eval) blank.setting noneDeferred).shape.run.run
        blank.memory = (.ok ⟨0, 4⟩, μ₁) ∧
      arrayShape (noneDeferred.site .none) blank.setting.limits.maxArrayLength
        [⟨noneDeferred.site (ofNone "rotation").span, (ofNone "rotation").makesRun⟩] [⟨0, 4⟩] =
          .ok ⟨0, 1⟩ ∧
      (((ofNone "rotation").meaning (m := Eval) blank.setting noneDeferred).values
        (.at [0])).run.run μ₁ = (.ok v, μ₂) ∧
      (((Expr.array [ofNone "rotation"] .none).meaning (m := Eval) blank.setting
        noneDeferred).values (.at [0])).run.run blank.memory = (.ok v, μ₂) ∧ v.shape = ⟨1, 4⟩ ∧
      ¬ ∃ ν, (gatherSegments (m := Eval) (noneDeferred.site .none) [0] 1 [0] fun _ wanted =>
        ((ofNone "rotation").meaning blank.setting noneDeferred).values (.at wanted)).run.run μ₁ =
          (.ok v, ν) := by
  obtain ⟨μ₁, μ₂, v, ht, hv, hshape⟩ := meaning_ofNone_rotation
  have hd := arrayShape_ofNone "rotation" 4
  refine ⟨μ₁, μ₂, v, ht, hd, hv, Expr.run_singleton_values ht hd hv, hshape, ?_⟩
  rintro ⟨ν, hgather⟩
  have hfour : v.dimension = 4 := congrArg Shape.dimension hshape
  have hone : v.dimension = 1 := dimension_of_gatherSegments hgather
  omega

end Session

end VectorScript
