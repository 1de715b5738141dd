import VectorScript.Proofs.CarefulEvaluation
import VectorScript.Proofs.ForetellingExpressions

/-!
# Unrolling

Evaluation stops at a variable that is open, and at a call that is too deep.  What it would answer
without these two ends is found by unrolling: evaluation to a number of nested expressions that
counts neither calls nor open variables.  It may start with the values of some variables.  What a
variable settles on when more and more is unrolled is the only value that can ever be found for it,
whether variables depend on themselves or not.

* `Recalling`: computations that know the values of some variables.
* `Expr.unrolled`, `Expr.unrolling`: evaluation to a number of nested expressions.
* `Settled`, `settled`: the value that a variable settles on.
* `Expr.foretells_careful`: careful evaluation that knows these values foretells unrolling.
-/

namespace VectorScript

open Filter Meaning

/-! ### Known values -/

/-- Computations that fail or give a value, and know the values of some variables. -/
def Recalling (_known : String → Option Series) : Type → Type := Plain

instance {known : String → Option Series} : Answering (Recalling known) :=
  { (inferInstance : Answering Plain) with
    remembered? := fun name => .ok (known name) }

instance {known : String → Option Series} : LawfulMonad (Recalling known) :=
  inferInstanceAs (LawfulMonad Plain)

theorem Meaning.recalledOr_recalling {known : String → Option Series} (name : String)
    (other : Meaning Plain) :
    recalledOr (m := Recalling known) name other = (known name).elim other .const := by
  have hremembered : (Answering.remembered? name : Recalling known _) = pure (known name) := rfl
  unfold recalledOr
  rw [hremembered]
  cases known name <;> rfl

namespace Expr

/-- One step of evaluation with known values, where `again` answers for what it leads to. -/
def recallingBy (known : String → Option Series) (w : Setting)
    (again : Context → Expr → Meaning Plain) (ctx : Context) (e : Expr) : Meaning Plain :=
  meaningBy (m := Recalling known) w again ctx e

variable {known : String → Option Series} {w : Setting} {again : Context → Expr → Meaning Plain}
  {ctx : Context} {e : Expr}

theorem recallingBy_eq_meaningBy
    (h : ∀ name span, e = identifier name span → ctx.scope.find? name ≠ none) :
    recallingBy known w again ctx e = meaningBy w again ctx e := by
  cases e with
  | identifier name span =>
    obtain ⟨b, hb⟩ := Option.ne_none_iff_exists'.mp (h name span rfl)
    cases b with
    | value v =>
      exact (meaningBy_bound (m := Recalling known) hb).trans (meaningBy_bound (m := Plain) hb).symm
    | deferred arg outer owner =>
      exact (meaningBy_deferred (m := Recalling known) hb).trans
        (meaningBy_deferred (m := Plain) hb).symm
  | _ => rfl

/-- A free name is known or has to be evaluated. -/
theorem recallingBy_free {name : String} (span : Span) (h : ctx.scope.find? name = none) :
    recallingBy known w again ctx (identifier name span) =
      (known name).elim (declaredBy w again ctx name span) .const := by
  exact (meaningBy_free (m := Recalling known) h).trans (recalledOr_recalling name _)

/-! ### Unrolled evaluation -/

end Expr

/-- The same place with no calls around it and no variables open. -/
def Context.fresh (ctx : Context) : Context := { ctx with depth := 0, opened := [] }

theorem Context.Linked.fresh {T : Scope.Terms} {ctx ctx' : Context} (h : ctx.Linked T ctx') :
    ctx.Linked T ctx'.fresh :=
  ⟨h.owner, h.scope⟩

namespace Expr

/-- Evaluation to a number of nested expressions, which counts neither calls nor open variables. -/
def unrolled (known : String → Option Series) (w : Setting) : Nat → Context → Expr → Meaning Plain
  | 0, ctx, e => .fail (ctx.site e.span) (.recursionLimit 0)
  | k + 1, ctx, e => recallingBy known w (unrolled known w k) ctx.fresh e

/-- Unrolled evaluation under growing limits, by `fewer` nested expressions behind the limits. -/
def unrolling (known : String → Option Series) (w : Setting) (fewer : Nat) (ctx : Context)
    (e : Expr) (n : Nat) : Meaning Plain :=
  unrolled known (w.within n) (n - fewer) ctx e

section

variable (known : String → Option Series) (w : Setting) (fewer : Nat)

/-- In the long run, unrolled evaluation takes a step. -/
theorem eventually_unrolling (ctx : Context) (e : Expr) :
    ∀ᶠ n in atTop, unrolling known w fewer ctx e n =
      recallingBy known (w.within n) (fun ctx e => unrolling known w (fewer + 1) ctx e n)
        ctx.fresh e := by
  filter_upwards [eventually_gt_atTop fewer] with n hn
  have hstep : n - fewer = (n - (fewer + 1)) + 1 := by omega
  rw [unrolling, hstep]
  rfl

theorem eventually_unrolling_bound {ctx : Context} {e : Expr}
    (h : ∀ name span, e = identifier name span → ctx.scope.find? name ≠ none) :
    ∀ᶠ n in atTop, meaningBy (w.within n) (fun ctx e => unrolling known w (fewer + 1) ctx e n)
      ctx.fresh e = unrolling known w fewer ctx e n := by
  filter_upwards [eventually_unrolling known w fewer ctx e] with n hn
  have h : ∀ name span, e = identifier name span → ctx.fresh.scope.find? name ≠ none := h
  rw [hn, recallingBy_eq_meaningBy h]

theorem eventually_unrolling_free {ctx : Context} {name : String} (span : Span)
    (h : ctx.scope.find? name = none) :
    ∀ᶠ n in atTop, (known name).elim (declaredBy (w.within n)
      (fun ctx e => unrolling known w (fewer + 1) ctx e n) ctx.fresh name span) .const =
        unrolling known w fewer ctx (identifier name span) n := by
  filter_upwards [eventually_unrolling known w fewer ctx (identifier name span)] with n hn
  have h : ctx.fresh.scope.find? name = none := h
  rw [hn, recallingBy_free span h]

end

end Expr

/-! ### Settled values -/

/-- A variable settles on a value when more and more is unrolled. -/
structure Settled (filters : Bool) (known : String → Option Series) (w : Setting) (name : String)
    (v : Series) : Prop where
  sized : v.Sized (filters = true)
  settles : ∀ fewer (ctx : Context) span, ctx.scope.find? name = none →
    SettlesFully (Expr.unrolling known w fewer ctx (.identifier name span)) v

open Classical in
/-- The value that a variable settles on, if there is one. -/
noncomputable def settled (filters : Bool) (known : String → Option Series) (w : Setting)
    (name : String) : Option Series :=
  if h : ∃ v, Settled filters known w name v then some h.choose else none

section

variable {filters : Bool} {known : String → Option Series} {w : Setting} {name : String}
  {v : Series}

theorem Settled.unique {u : Series} (hu : Settled filters known w name u)
    (hv : Settled filters known w name v) : u = v :=
  eventually_unique (hu.settles 0 .root .none rfl).all (hv.settles 0 .root .none rfl).all

theorem settled_eq_some : settled filters known w name = some v ↔
    Settled filters known w name v := by
  unfold settled
  constructor
  · intro h
    split_ifs at h with hexists
    obtain rfl := Option.some.inj h
    exact hexists.choose_spec
  · intro h
    have hexists : ∃ v, Settled filters known w name v := ⟨v, h⟩
    rw [dif_pos hexists, hexists.choose_spec.unique h]

/-- A known value is the one that the variable settles on. -/
theorem settled_of_known (hsized : v.Sized (filters = true)) (h : known name = some v) :
    settled filters known w name = some v := by
  refine settled_eq_some.mpr ⟨hsized, fun fewer ctx span hfree => ?_⟩
  have hconst : Foretells (filters = true) (.const v)
      (Expr.unrolling known w fewer ctx (.identifier name span)) := by
    refine (Foretells.const hsized).congr ?_
    filter_upwards [Expr.eventually_unrolling_free known w fewer span hfree] with n hn
    rw [← hn, h, Option.elim_some]
  exact (hconst.all rfl).2

end

/-! ### Careful evaluation with known values -/

namespace Expr

/-- Careful evaluation with known values. -/
noncomputable def carefulRecalling (known : String → Option Series) (checks : Bool) (w : Setting)
    (ctx : Context) (e : Expr) : Meaning Plain :=
  careful (m := Recalling known) checks w ctx e

/-- What a part answers in careful evaluation with known values. -/
noncomputable def carefulPart (known : String → Option Series) (checks : Bool) (w : Setting)
    (e : Expr) (ctx : Context) (c : Expr) : Meaning Plain :=
  e.checkedPart checks (carefulRecalling known checks w ctx c)

theorem carefulRecalling_eq {known : String → Option Series} {checks : Bool} {w : Setting}
    (ctx : Context) (e : Expr) : carefulRecalling known checks w ctx e =
      recallingBy known w (carefulPart known checks w e) ctx e :=
  careful_eq (m := Recalling known) ctx e

end Expr

/-- Scopes are linked where arguments are evaluated by unrolling. -/
def Scope.Terms.ofUnrolling (filters : Bool) (known : String → Option Series) (w : Setting) :
    Scope.Terms where
  Value v := v.Sized (filters = true)
  Arg arg := arg.Written filters
  Stands v arg outer owner := v.Sized (filters = true) ∧ ∀ fewer,
    SettlesFully (Expr.unrolling known w fewer ⟨outer, owner, 0, []⟩ arg) v

namespace Expr

variable {filters : Bool} {known : String → Option Series} {w : Setting}

/-- Steps of evaluation lead to written expressions. -/
theorem Leads.written {ctx ctx' ctx₁ : Context} {e e₁ : Expr} (h : Leads w ctx e ctx₁ e₁)
    (hw : w.Written filters) (hctx : ctx.Linked (.ofUnrolling filters known w) ctx')
    (he : e.Written filters) : e₁.Written filters := by
  cases h with
  | part hc => exact he.child (mem_children_of_mem_openParts hc)
  | element hc _ => exact he.child (mem_children_of_mem_boundParts hc)
  | deferred hb =>
    obtain ⟨_, -, hbinding⟩ := hctx.scope.find?_some hb
    cases hbinding with
    | deferred harg _ => exact harg
  | reference _ hfind hkind => exact (hw.declared _ _ hfind).body (by simp [Statement.body?, hkind])
  | applied _ hfind hkind => exact (hw.declared _ _ hfind).body (by simp [Statement.body?, hkind])
  | called _ hfind hkind => exact (hw.declared _ _ hfind).body (by simp [Statement.body?, hkind])

/-- What foretells the unrolling of the body of a variable foretells that of the variable. -/
theorem foretells_reference {m : Meaning Plain} {ctx : Context} {name key : String} {span : Span}
    {st : Statement} {body : Expr} (hfree : ctx.scope.find? name = none)
    (hunknown : known name = none) (hfind : w.declarations.find? name = some st)
    (hkind : st.kind = .variable key body)
    (h : ∀ fewer, Foretells (filters = true) m
      (unrolling known w fewer (Context.root.inVariable name) body)) (fewer : Nat) :
    Foretells (filters = true) m (unrolling known w fewer ctx (identifier name span)) := by
  refine (h (fewer + 1)).congr ?_
  filter_upwards [eventually_unrolling_free known w fewer span hfree] with n hn
  have hfind' : (w.within n).declarations.find? name = some st := hfind
  rw [← hn, hunknown, Option.elim_none,
    declaredBy_variable hfind' hkind (List.not_mem_nil : name ∉ ctx.fresh.opened), ofVariable_plain]
  rfl

/-- What a name means that is neither known nor bound foretells its unrolling, if the bodies of
variables do. -/
theorem foretells_declaredBy {f : Context → Expr → Meaning Plain} {ctx ctx' : Context}
    {name : String} {span : Span} (hfree : ctx'.scope.find? name = none)
    (hunknown : known name = none)
    (hbody : ∀ {st key body}, w.declarations.find? name = some st →
      st.kind = .variable key body → name ∉ ctx.opened → ∀ fewer,
      Foretells (filters = true) (f (ctx.inVariable name) body)
        (unrolling known w fewer (Context.root.inVariable name) body)) (fewer : Nat) :
    Foretells (filters = true) (declaredBy w f ctx name span)
      (unrolling known w fewer ctx' (identifier name span)) := by
  cases hfind : w.declarations.find? name with
  | none =>
    have hfind' : ∀ n, (w.within n).declarations.find? name = none := fun _ => hfind
    rw [declaredBy_undeclared hfind, Meaning.ofUndeclared]
    cases hvalue : Catalog.constant? w.animation name with
    | some v =>
      refine (Foretells.const ((Catalog.wellFormed_of_constant? hvalue).sized _)).congr ?_
      filter_upwards [eventually_unrolling_free known w fewer span hfree] with n hn
      have hvalue' : Catalog.constant? (w.within n).animation name = some v := hvalue
      rw [← hn, hunknown, Option.elim_none, declaredBy_undeclared (hfind' n), Meaning.ofUndeclared,
        hvalue']
    | none =>
      simp only
      split_ifs <;> exact .fail _ _
  | some st =>
    by_cases hvar : st.isVariable
    · obtain ⟨key, body, hkind⟩ := Statement.isVariable_iff.mp hvar
      by_cases hopen : name ∈ ctx.opened
      · rw [declaredBy_open hfind hkind hopen]
        exact .fail _ _
      · rw [declaredBy_variable hfind hkind hopen, ofVariable_plain, delay_plain]
        exact foretells_reference hfree hunknown hfind hkind (hbody hfind hkind hopen) fewer
    · rw [declaredBy_not_variable hfind hvar]
      exact .fail _ _

/-- A step that asks for no free name foretells the same step of unrolled evaluation if what it
leads to foretells. -/
theorem stepForetells_careful {D : String → Option Series} {ctx ctx' : Context} {e : Expr}
    (hctx : ctx.Linked (.ofUnrolling filters known w) ctx') (he : e.Written filters)
    (hbound : ∀ name span, e = identifier name span → ctx.scope.find? name ≠ none)
    (hpart : ∀ {ctx₁ e₁ ctx₁'}, Leads w ctx e ctx₁ e₁ →
      ctx₁.Linked (.ofUnrolling filters known w) ctx₁' → ∀ fewer,
      Foretells (filters = true) (carefulPart D filters w e ctx₁ e₁)
        (unrolling known w fewer ctx₁' e₁)) (fewer : Nat) :
    StepForetells (filters = true) (.ofUnrolling filters known w) w w (carefulPart D filters w e)
      (fun n ctx e => unrolling known w (fewer + 1) ctx e n) ctx ctx'.fresh e where
  linked := hctx.fresh
  value := .rfl
  formed := he.wellFormed
  not_free := hbound
  called _ _ _ _ _ := rfl
  alone item span heq := by
    subst heq
    rcases Bool.eq_false_or_eq_true filters with hfilters | hfilters
    · rw [carefulPart, checkedPart, if_pos (by simp [hfilters, isSingleton])]
      exact standsAlone_alone _
    · exact (hpart (.part List.mem_cons_self) hctx 0).standsAlone (by simp [hfilters])
  filters := by
    rcases Bool.eq_false_or_eq_true filters with hfilters | hfilters
    · exact .inr hfilters
    · exact .inl (everywhere_node (he.whenFree hfilters))
  fixed _ _ _ hfixed _ _ _ := hfixed
  step hleads _ _ hlinked := hpart hleads hlinked (fewer + 1)
  stands hv := ⟨hv.1, hv.2 (fewer + 1)⟩
  arg _ hc := he.child hc
  evaluated arg harg v hv := by
    have hall := fun fewer => (hpart (.part harg) hctx.fresh fewer).all hv
    exact ⟨(hall 0).1, fun fewer => (hall fewer).2⟩

/-- Careful evaluation that knows the settled values foretells unrolling. -/
theorem foretells_careful (hw : w.Written filters)
    (hknown : ∀ name v, known name = some v → v.Sized (filters = true)) (ctx : Context) (e : Expr) :
    ∀ ctx', ctx.Linked (.ofUnrolling filters known w) ctx' → e.Written filters → ∀ fewer,
      Foretells (filters = true) (carefulRecalling (settled filters known w) filters w ctx e)
        (unrolling known w fewer ctx' e) := by
  induction ctx, e using induction_on_steps w with
  | h ctx e ih =>
    intro ctx' hctx he fewer
    have hpart : ∀ {ctx₁ e₁ ctx₁'}, Leads w ctx e ctx₁ e₁ →
        ctx₁.Linked (.ofUnrolling filters known w) ctx₁' → ∀ fewer,
        Foretells (filters = true) (carefulPart (settled filters known w) filters w e ctx₁ e₁)
          (unrolling known w fewer ctx₁' e₁) := by
      intro ctx₁ e₁ ctx₁' hleads hlinked fewer
      exact (ih _ _ hleads ctx₁' hlinked (hleads.written hw hctx he) fewer).checkedPart filters e
    rw [carefulRecalling_eq]
    by_cases hfree : ∃ name span, e = identifier name span ∧ ctx.scope.find? name = none
    · obtain ⟨name, span, rfl, hfree⟩ := hfree
      have hfree' := hctx.scope.find?_none hfree
      rw [recallingBy_free span hfree]
      cases hsettled : settled filters known w name with
      | some v =>
        have hv := settled_eq_some.mp hsettled
        exact .of_settlesFully hv.sized (hv.settles fewer ctx' span hfree')
      | none =>
        have hunknown : known name = none := by
          cases hname : known name with
          | none => rfl
          | some v =>
            have := settled_of_known (w := w) (hknown name v hname) hname
            exact absurd (hsettled.symm.trans this) (by simp)
        exact foretells_declaredBy hfree' hunknown (fun hfind hkind hopen =>
          hpart (.reference hfree hfind hkind hopen) ⟨rfl, .root⟩) fewer
    · have hbound : ∀ name span, e = identifier name span → ctx.scope.find? name ≠ none :=
        fun name span heq hnone => hfree ⟨name, span, heq, hnone⟩
      have hbound' : ∀ name span, e = identifier name span → ctx'.scope.find? name ≠ none :=
        fun name span heq => hctx.scope.find?_ne_none (hbound name span heq)
      rw [recallingBy_eq_meaningBy hbound]
      have hstep := stepForetells_careful hctx he hbound hpart fewer
      exact hstep.meaningBy.congr (eventually_unrolling_bound known w fewer hbound')

end Expr

end VectorScript
