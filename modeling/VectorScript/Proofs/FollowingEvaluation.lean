import VectorScript.Proofs.EvaluationSteps
import VectorScript.Proofs.FollowingNodes
import VectorScript.Proofs.ForetellingExpressions

/-!
# Evaluation with a memory

A memory is coherent if every value that it holds is the value of a variable in the long run.
Evaluation from a coherent memory leaves a coherent memory, and what it answers it answers without
a memory too, unless a limit was reached.

Values of variables that depend on themselves are not spoken of: what such a variable gives may
depend on where its evaluation began.

* `Setting.Coherent`: what is remembered is right.
* `Expr.follows`: evaluation with a memory follows evaluation without one.
-/

namespace VectorScript

open Filter Meaning

/-! ### Remembered values -/

namespace Meaning

/-- What a name means with a memory. -/
def recalled (name : String) (m : Meaning Eval) (μ : Memory) : Meaning Eval :=
  match μ.cache.find? name with
  | some v => const v
  | none => m

theorem run_remembered? (name : String) (μ : Memory) :
    (Answering.remembered? name : Eval (Option Series)).run.run μ =
      (.ok (μ.cache.find? name), μ) := rfl

theorem run_shape_recalledOr (name : String) (m : Meaning Eval) (μ : Memory) :
    (recalledOr name m).shape.run.run μ = (recalled name m μ).shape.run.run μ := by
  show ((Answering.remembered? name >>= _) >>= _ : Eval Shape).run.run μ = _
  rw [run_bind, run_bind, run_remembered?, recalled]
  cases μ.cache.find? name <;> rfl

theorem run_values_recalledOr (name : String) (m : Meaning Eval) (selection : Selection)
    (μ : Memory) : ((recalledOr name m).values selection).run.run μ =
      ((recalled name m μ).values selection).run.run μ := by
  show ((Answering.remembered? name >>= _) >>= _ : Eval Series).run.run μ = _
  rw [run_bind, run_bind, run_remembered?, recalled]
  cases μ.cache.find? name <;> rfl

theorem run_values_ofVariable (name : String) (m : Meaning Eval) (selection : Selection)
    (μ : Memory) : ((ofVariable name m).values selection).run.run μ =
      match (m.values selection).run.run
        { μ with statementEvaluations := μ.statementEvaluations + 1 } with
      | (.ok v, μ') =>
        (.ok v, if selection = .all then { μ' with cache := μ'.cache.insert name v } else μ')
      | (.error e, μ') => (.error e, μ') := by
  have hcount : (Answering.countStatement : Eval Unit).run.run μ =
      (.ok (), { μ with statementEvaluations := μ.statementEvaluations + 1 }) := rfl
  show ((Answering.countStatement >>= fun _ =>
    m.values selection >>= _) : Eval Series).run.run μ = _
  rw [run_bind, hcount]
  simp only [run_bind]
  rcases (m.values selection).run.run _ with ⟨r, μ'⟩
  cases r with
  | error e => rfl
  | ok v => cases selection <;> rfl

/-- The answers of a series that a family settles on last. -/
theorem SettlesFully.lasts {M : Nat → Meaning Plain} {v : Series} (h : SettlesFully M v)
    (selection : Selection) : ∀ᶠ n in atTop, (M n).values selection = .ok (v.select selection) := by
  cases selection with
  | all => exact h.all
  | «at» indices => exact h.elements indices

end Meaning

namespace Meaning.Follows

variable {I : NameTable Series → Prop} {safe : Prop} {name : String} {m : Meaning Eval}
  {M : Nat → Meaning Plain}

/-- Remembered values may be used if the family settles on them. -/
theorem recalledOr (h : Follows I safe m M)
    (hrecall : safe → ∀ cache v, I cache → cache.find? name = some v → SettlesFully M v) :
    Follows I safe (.recalledOr name m) M := by
  refine ⟨⟨fun μ hμ => ?_, fun hs μ hμ => ?_⟩, fun selection => ⟨fun μ hμ => ?_, fun hs μ hμ => ?_⟩⟩
  · rw [run_shape_recalledOr, recalled]
    cases μ.cache.find? name with
    | some v => exact hμ
    | none => exact h.shape.keeps μ hμ
  · rw [run_shape_recalledOr, recalled]
    cases hfind : μ.cache.find? name with
    | some v => exact .inr (hrecall hs μ.cache v hμ hfind).shape
    | none => exact h.shape.lasts hs μ hμ
  · rw [run_values_recalledOr, recalled]
    cases μ.cache.find? name with
    | some v => exact hμ
    | none => exact (h.values selection).keeps μ hμ
  · rw [run_values_recalledOr, recalled]
    cases hfind : μ.cache.find? name with
    | some v => exact .inr ((hrecall hs μ.cache v hμ hfind).lasts selection)
    | none => exact (h.values selection).lasts hs μ hμ

/-- Values may be remembered if they last. -/
theorem ofVariable (h : Follows I safe m M)
    (hremember : ∀ cache v, I cache → (safe → ∀ᶠ n in atTop, (M n).values .all = .ok v) →
      I (cache.insert name v)) :
    Follows I safe (.ofVariable name m) M := by
  refine ⟨h.shape, fun selection => ⟨fun μ hμ => ?_, fun hs μ hμ => ?_⟩⟩
  · rw [run_values_ofVariable]
    have hkeeps := (h.values selection).keeps
      { μ with statementEvaluations := μ.statementEvaluations + 1 } hμ
    have hlasts := fun hs => (h.values selection).lasts hs
      { μ with statementEvaluations := μ.statementEvaluations + 1 } hμ
    rcases hrun : (m.values selection).run.run _ with ⟨r, μ'⟩
    rw [hrun] at hkeeps hlasts
    cases r with
    | error e => exact hkeeps
    | ok v =>
      cases selection with
      | all => exact hremember μ'.cache v hkeeps fun hs => (hlasts hs).eventually_ok
      | «at» indices => exact hkeeps
  · rw [run_values_ofVariable]
    have hlasts := (h.values selection).lasts hs
      { μ with statementEvaluations := μ.statementEvaluations + 1 } hμ
    rcases hrun : (m.values selection).run.run _ with ⟨r, μ'⟩
    rw [hrun] at hlasts
    cases r with
    | error e => exact hlasts
    | ok v => exact hlasts

/-- Under a guard only the variables that may be remembered matter; all values of the others are
refused with a memory and without one. -/
theorem ofGuarded {K : String → Bool} (h : Follows I safe m M)
    (hremember : K name → ∀ cache v, I cache →
      (safe → ∀ᶠ n in atTop, (M n).values .all = .ok v) → I (cache.insert name v)) :
    Follows I safe (.ofGuarded K name m) fun n => .ofGuarded K name (M n) := by
  cases hK : K name with
  | true =>
    simp only [ofGuarded_of_allowed hK, ofVariable_plain]
    exact h.ofVariable (hremember hK)
  | false =>
    have hcount : Eval.Follows I safe (Answering.countStatement : Eval Unit) fun _ =>
        Answering.countStatement := ⟨fun _ hμ => hμ, fun _ _ _ => .refl _⟩
    refine ⟨h.shape, fun selection => hcount.bind fun _ => (h.values selection).bind fun v => ?_⟩
    cases selection with
    | all =>
      show Eval.Follows I safe ((bif K name then _ else _) >>= _) fun _ =>
        (bif K name then _ else _) >>= _
      rw [hK]
      exact .bind (.raise _) fun _ => .pure v
    | «at» indices => exact .pure v

/-- The same answers are refused with a memory and without one. -/
theorem checkedPart (h : Follows I safe m M) (checks : Bool) (e : Expr) :
    Follows I safe (e.checkedPart checks m) fun n => e.checkedPart checks (M n) := by
  unfold Expr.checkedPart
  split_ifs
  · refine ⟨h.shape.bind fun s => ?_, fun selection => ?_⟩
    · split_ifs
      · exact .pure s
      · exact .raise _
    · cases selection with
      | all =>
        refine (h.values .all).bind fun v => ?_
        split_ifs
        · exact .pure v
        · exact .raise _
      | «at» indices => exact h.values (.at indices)
  · exact h

end Meaning.Follows

/-! ### Coherence -/

/-- Every remembered value is the value of a variable in the long run, unless the variable depends
on a variable that depends on itself. -/
def Setting.Coherent (w : Setting) (cache : NameTable Series) : Prop :=
  ∀ name v, cache.find? name = some v → w.declarations.IsVariable name ∧
    (w.declarations.Acyclic name → ∀ᶠ n in atTop,
      ((Session.reference name).meaning (m := Plain) (w.within n) .root).values .all = .ok v)

/-- The same for careful evaluation under a guard: what is remembered is found without any other
variable being remembered. -/
def Setting.CoherentUnder (filters : Bool) (K : String → Bool) (w : Setting)
    (cache : NameTable Series) : Prop :=
  ∀ name v, cache.find? name = some v → w.declarations.IsVariable name ∧
    (w.declarations.Acyclic name → ∀ᶠ n in atTop,
      ((Session.reference name).guarded (m := Plain) filters K (w.within n) .root).values .all =
        .ok v)

theorem Setting.coherentUnder_false {w : Setting} {cache : NameTable Series} :
    w.CoherentUnder false (fun _ => true) cache ↔ w.Coherent cache := by
  simp only [CoherentUnder, Coherent, Expr.guarded_true, Expr.careful_false]

theorem Declarations.Acyclic.avoids {ds : Declarations} {opened : List String} {x : String}
    (h : ds.Acyclic x) (hopen : ds.OpenTo opened x) : ds.Avoids opened x := by
  intro o ho hreach
  obtain ⟨hvar, hox⟩ := hopen o ho
  exact h o hreach hvar (hox.trans_left hreach)

theorem Setting.continuedBy_within {w : Setting} {filters : Bool} (h : w.Written filters)
    (n : Nat) :
    (w.within n).ContinuedBy filters w.declarations.Acyclic w where
  agree := ⟨fun _ _ => rfl, fun _ _ _ => rfl, fun _ hx _ hy => hx.of_reads hy⟩
  contains _ hx := hx
  written x _ := h.declared x
  acyclic x hx := hx x .refl

namespace Expr

variable {filters : Bool} {K : String → Bool} {w : Setting} {name key : String} {st : Statement}
  {body : Expr}

/-- The body of a variable may be evaluated under other open variables. -/
theorem foretells_body (h : w.Written filters) (hfind : w.declarations.find? name = some st)
    (hkind : st.kind = .variable key body) (hacyclic : w.declarations.Acyclic name) (N : Nat)
    (ctx ctx' : Context) (havoids : w.declarations.Avoids ctx'.opened name) :
    Foretells (filters = true) (body.guarded filters K (w.within N) (ctx.inVariable name)) fun n =>
      body.guarded filters K (w.within n) (ctx'.inVariable name) := by
  have hcontinued := Setting.continuedBy_within h N
  have hvar : w.declarations.IsVariable name :=
    ⟨st, hfind, Statement.isVariable_iff.mpr ⟨_, _, hkind⟩⟩
  exact foretells_guarded hcontinued _ _ _ ⟨rfl, .root⟩
    ((h.declared name st hfind).body (by simp [Statement.body?, hkind]))
    (.ofVariable hfind hkind fun y hy => avoids_of_variable hcontinued ⟨hacyclic, havoids⟩ hvar hy)

theorem guarded_reference (hfind : w.declarations.find? name = some st)
    (hkind : st.kind = .variable key body) :
    (Session.reference name).guarded (m := Plain) filters K w .root =
      .ofGuarded K name (body.guarded filters K w (Context.root.inVariable name)) := by
  rw [Session.reference, guarded_free rfl, Meaning.recalledOr_plain,
    declaredGuarded_variable hfind hkind (by simp [Context.root]), Meaning.delay_plain]

/-- A family settles on what is remembered of a variable, whatever variables are open. -/
theorem settlesFully_of_remembered (h : w.Written filters)
    (hfind : w.declarations.find? name = some st) (hkind : st.kind = .variable key body)
    (hacyclic : w.declarations.Acyclic name) {ctx : Context}
    (hopen : w.declarations.OpenTo ctx.opened name) {cache : NameTable Series} {v : Series}
    (hcache : w.CoherentUnder filters K cache) (hv : cache.find? name = some v) :
    SettlesFully (fun n =>
      .ofGuarded K name (body.guarded filters K (w.within n) (ctx.inVariable name))) v := by
  have hfind' : ∀ n, (w.within n).declarations.find? name = some st := fun _ => hfind
  obtain ⟨-, hlasts⟩ := hcache name v hv
  obtain ⟨N, hN⟩ := (hlasts hacyclic).exists
  rw [guarded_reference (hfind' N) hkind] at hN
  have hforetells := foretells_body (K := K) h hfind hkind hacyclic N .root ctx
    (hacyclic.avoids hopen)
  exact ((hforetells.ofGuarded name).all hN).2

/-- A variable is evaluated by its body, and a value that lasts may be remembered. -/
theorem follows_variable (h : w.Written filters)
    (hfind : w.declarations.find? name = some st) (hkind : st.kind = .variable key body)
    {ctx : Context}
    (hbody : Follows (w.CoherentUnder filters K)
      (body.ReadsWithin w.declarations w.declarations.Acyclic .root)
      (body.guarded filters K w (ctx.inVariable name)) fun n =>
      body.guarded filters K (w.within n) (ctx.inVariable name)) :
    Follows (w.CoherentUnder filters K) (w.declarations.Acyclic name)
      (.ofGuarded K name (.delay fun _ => body.guarded filters K w (ctx.inVariable name))) fun n =>
      .ofGuarded K name (body.guarded filters K (w.within n) (ctx.inVariable name)) := by
  have hfind' : ∀ n, (w.within n).declarations.find? name = some st := fun _ => hfind
  have hisvar : w.declarations.IsVariable name :=
    ⟨st, hfind, Statement.isVariable_iff.mpr ⟨_, _, hkind⟩⟩
  have hfollows := Follows.delay (f := fun _ => guarded filters K w (ctx.inVariable name) body)
    (F := fun n _ => guarded filters K (w.within n) (ctx.inVariable name) body)
    (hbody.weaken fun hacyclic : w.declarations.Acyclic name =>
      .ofVariable hfind hkind fun y hy => hacyclic.of_reads hy)
  refine .ofGuarded hfollows fun hK cache v hcache hlasts other u hu => ?_
  rw [NameTable.find?_insert] at hu
  split_ifs at hu with hother
  · cases hu
    subst hother
    refine ⟨hisvar, fun hacyclic => ?_⟩
    simp only [guarded_reference (hfind' _) hkind, ofGuarded_of_allowed hK, ofVariable_plain]
    -- what was found under other open variables is found under none
    obtain ⟨N, hN⟩ := (hlasts hacyclic).exists
    exact ((foretells_body h hfind hkind hacyclic N ctx .root
      (by simp [Declarations.Avoids, Context.root])).all hN).2.all
  · exact hcache other u hu

theorem follows_declared (h : w.Written filters) {ctx : Context} {span : Span}
    (hopen : w.declarations.OpenTo ctx.opened name)
    (hbody : ∀ st key body, w.declarations.find? name = some st → st.kind = .variable key body →
      name ∉ ctx.opened →
      body.ReadsWithin w.declarations (w.declarations.OpenTo (name :: ctx.opened)) .root →
      Follows (w.CoherentUnder filters K)
        (body.ReadsWithin w.declarations w.declarations.Acyclic .root)
        (body.guarded filters K w (ctx.inVariable name)) fun n =>
        body.guarded filters K (w.within n) (ctx.inVariable name)) :
    Follows (w.CoherentUnder filters K) (w.declarations.Acyclic name)
      (.recalledOr name (declaredGuarded filters K w ctx name span)) fun n =>
      declaredGuarded filters K (w.within n) ctx name span := by
  cases hfind : w.declarations.find? name with
  | none =>
    have hfind' : ∀ n, (w.within n).declarations.find? name = none := fun _ => hfind
    simp only [declaredGuarded, declaredBy_undeclared hfind,
      declaredBy_undeclared (hfind' _)]
    refine .recalledOr ?_ fun _ cache v hcache hv => ?_
    · simp only [Meaning.ofUndeclared, Setting.within]
      cases Catalog.constant? w.animation name with
      | some v => exact .const v
      | none =>
        dsimp only
        split_ifs <;> exact .fail _ _
    · obtain ⟨⟨st, hst, -⟩, -⟩ := hcache name v hv
      cases hst.symm.trans hfind
  | some st =>
    have hfind' : ∀ n, (w.within n).declarations.find? name = some st := fun _ => hfind
    by_cases hvar : st.isVariable
    · obtain ⟨key, body, hkind⟩ := Statement.isVariable_iff.mp hvar
      have hisvar : w.declarations.IsVariable name := ⟨st, hfind, hvar⟩
      by_cases hopened : name ∈ ctx.opened
      · -- an open variable that is asked for again depends on itself
        simp only [declaredGuarded, declaredBy_open hfind hkind hopened,
          declaredBy_open (hfind' _) hkind hopened]
        refine .recalledOr (.fail _ _) fun hacyclic => ?_
        exact absurd (hopen name hopened).2 (hacyclic name .refl hisvar)
      · simp only [declaredGuarded_variable hfind hkind hopened,
          declaredGuarded_variable (hfind' _) hkind hopened, Meaning.delay_plain]
        have hreads : ∀ y, w.declarations.Reads name y →
            w.declarations.OpenTo (name :: ctx.opened) y := fun y hy => hopen.inVariable hisvar hy
        have hvariable := follows_variable h hfind hkind
          (hbody st key body hfind hkind hopened (.ofVariable hfind hkind hreads))
        exact .recalledOr hvariable fun hacyclic cache v hcache hv =>
          settlesFully_of_remembered h hfind hkind hacyclic hopen hcache hv
    · simp only [declaredGuarded, declaredBy_not_variable hfind hvar,
        declaredBy_not_variable (hfind' _) hvar]
      refine .recalledOr (.fail _ _) fun _ cache v hcache hv => ?_
      obtain ⟨⟨st', hst', hvar'⟩, -⟩ := hcache name v hv
      cases hst'.symm.trans hfind
      exact absurd hvar' hvar

/-- A call follows if what it leads to follows; a call that is too deep says so. -/
theorem follows_call {I : NameTable Series → Prop} {safe : Prop} {ctx : Context} {args : List Expr}
    {span : Span} {f : Context → Expr → Meaning Eval} {F : Nat → Context → Expr → Meaning Plain}
    (hstep : ∀ {ctx' e'}, Leads w ctx (call name args span) ctx' e' →
      Follows I safe (f ctx' e') fun n => F n ctx' e') :
    Follows I safe (meaningBy w f ctx (call name args span)) fun n =>
      meaningBy (w.within n) (F n) ctx (call name args span) := by
  have hargs : ∀ arg ∈ args, Follows I safe (.delay fun _ => f ctx arg) fun n =>
      .delay fun _ => F n ctx arg := fun arg harg => .delay (hstep (.part harg))
  by_cases hbound : ctx.scope.contains name
  · simp only [meaningBy_call_bound hbound]
    exact .fail _ _
  cases hfind : w.declarations.find? name with
  | none =>
    have hfind' : ∀ n, (w.within n).declarations.find? name = none := fun _ => hfind
    simp only [meaningBy_call_builtin hbound hfind, meaningBy_call_builtin hbound (hfind' _)]
    exact .ofBuiltinCall _ _ hargs
  | some st =>
    have hfind' : ∀ n, (w.within n).declarations.find? name = some st := fun _ => hfind
    by_cases hfunction : st.isFunction
    · obtain ⟨key, params, body, hkind⟩ := Statement.isFunction_iff.mp hfunction
      by_cases hcount : params.length = args.length
      · by_cases hdepth : ctx.depth < w.limits.maxCallDepth
        · rw [meaningBy_call_function hbound hfind hkind hcount hdepth]
          refine Follows.congr (.call hargs (fun values hvalues => ?_) (.delay ?_))
            ((eventually_gt_atTop ctx.depth).mono fun n hn =>
              (meaningBy_call_function (w := w.within n) hbound hfind hkind hcount hn).symm)
          · exact hstep (.applied hbound hfind hkind hcount hdepth hvalues)
          · exact hstep (.called hbound hfind hkind hcount hdepth)
        · rw [meaningBy_call_deep hbound hfind hkind hcount hdepth]
          exact .fail_of_isResource rfl _
      · simp only [meaningBy_call_count hbound hfind hkind hcount,
          meaningBy_call_count hbound (hfind' _) hkind hcount]
        exact .fail _ _
    · simp only [meaningBy_call_not_function hbound hfind hfunction,
        meaningBy_call_not_function hbound (hfind' _) hfunction]
      exact .fail _ _

/-- One step follows if what it leads to follows, unless it asks for a free name. -/
theorem follows_meaningBy {I : NameTable Series → Prop} {safe : Prop} {ctx : Context} {e : Expr}
    {f : Context → Expr → Meaning Eval} {F : Nat → Context → Expr → Meaning Plain}
    (hbound : ∀ name span, e = identifier name span → ctx.scope.find? name ≠ none)
    (hstep : ∀ {ctx' e'}, Leads w ctx e ctx' e' → Follows I safe (f ctx' e') fun n => F n ctx' e') :
    Follows I safe (meaningBy w f ctx e) fun n => meaningBy (w.within n) (F n) ctx e := by
  have hpart : ∀ c ∈ e.openParts, Follows I safe (.delay fun _ => f ctx c) fun n =>
      .delay fun _ => F n ctx c := fun c hc => .delay (hstep (.part hc))
  cases e with
  | constant x span => exact .const _
  | identifier name span =>
    obtain ⟨b, hb⟩ := Option.ne_none_iff_exists'.mp (hbound name span rfl)
    cases b with
    | value v =>
      simp only [meaningBy_bound hb]
      exact .const v
    | deferred arg outer owner =>
      simp only [meaningBy_deferred hb]
      exact .delay (hstep (.deferred hb))
  | vector items span =>
    simp only [meaningBy_vector]
    exact .elementwise _ _ _ hpart
  | array items span =>
    simp only [meaningBy_array]
    exact .arrayLiteral _ _ hpart
  | comprehension body binder source span =>
    exact .comprehension ⟨fun _ => rfl, hpart source List.mem_cons_self,
      fun v => hstep (.element List.mem_cons_self v), fun _ => rfl⟩
  | filtered body binder source condition span =>
    refine .filtered ⟨fun _ => rfl, hpart source List.mem_cons_self, fun v => ?_, fun _ => rfl⟩
      fun v => ?_
    · exact hstep (.element List.mem_cons_self v)
    · exact hstep (.element (List.mem_cons_of_mem _ List.mem_cons_self) v)
  | call name args span => exact follows_call hstep
  | unary op operand span => exact .unary _ _ (hpart _ (by simp [openParts, children]))
  | binary op left right span =>
    exact .binary _ _ (hpart left (by simp [openParts, children]))
      (hpart right (by simp [openParts, children]))
  | range lower upper span =>
    exact .range _ _ _ _ (hpart lower (by simp [openParts, children]))
      (hpart upper (by simp [openParts, children]))
  | index target position span =>
    exact .index _ (hpart target (by simp [openParts, children]))
      (hpart position (by simp [openParts, children]))
  | swizzle target components span =>
    exact .swizzle _ _ (hpart target (by simp [openParts, children]))
  | conditional consequent condition alternative span =>
    exact .conditional _ (hpart consequent (by simp [openParts, children]))
      (hpart condition (by simp [openParts, children]))
      (hpart alternative (by simp [openParts, children]))

/-- Evaluation with a coherent memory follows evaluation without a memory under every guard, as long
as no variable that is read depends on itself. -/
theorem follows_guarded (h : w.Written filters) (ctx : Context) (e : Expr) :
    e.ReadsWithin w.declarations (w.declarations.OpenTo ctx.opened) ctx.scope →
    Follows (w.CoherentUnder filters K)
      (e.ReadsWithin w.declarations w.declarations.Acyclic ctx.scope)
      (e.guarded filters K w ctx) fun n => e.guarded filters K (w.within n) ctx := by
  -- along the evaluation: a part may start from any memory that the parts before it leave
  induction ctx, e using induction_on_steps w with
  | h ctx e ih =>
    intro he
    by_cases hfree : ∃ name span, e = identifier name span ∧ ctx.scope.find? name = none
    · obtain ⟨name, span, rfl, hfree⟩ := hfree
      simp only [guarded_free hfree, Meaning.recalledOr_plain]
      refine (follows_declared h (he.name hfree) fun st key body hfind hkind hopen hbody =>
        ?_).weaken fun hs => hs.name hfree
      exact ih _ _ (.reference hfree hfind hkind hopen) hbody
    · have hbound : ∀ name span, e = identifier name span → ctx.scope.find? name ≠ none :=
        fun name span heq hnone => hfree ⟨name, span, heq, hnone⟩
      simp only [guarded_eq_carefulBy hbound]
      refine follows_meaningBy hbound fun hleads => .checkedPart ?_ filters e
      exact (ih _ _ hleads (he.openTo_of_leads hleads)).weaken fun hs => hs.acyclic_of_leads hleads

/-- The same without a guard, and without conditions in comprehensions. -/
theorem follows (h : w.Written false) (ctx : Context) (e : Expr)
    (he : e.ReadsWithin w.declarations (w.declarations.OpenTo ctx.opened) ctx.scope) :
    Follows w.Coherent (e.ReadsWithin w.declarations w.declarations.Acyclic ctx.scope)
      (e.meaning w ctx) fun n => e.meaning (w.within n) ctx := by
  have hfollows := follows_guarded (K := fun _ => true) h ctx e he
  have hcoherent : w.CoherentUnder false (fun _ => true) = w.Coherent :=
    funext fun _ => propext Setting.coherentUnder_false
  simpa only [guarded_true, careful_false, hcoherent] using hfollows

end Expr

end VectorScript
