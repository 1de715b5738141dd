import VectorScript.Proofs.CarefulEvaluation
import VectorScript.Proofs.EvaluationSteps
import VectorScript.Proofs.SimulationNodes

/-!
# Simulation of evaluation

A whole evaluation keeps a simulation if every step of it does.  For most expressions a step keeps
every simulation.  The simulation itself has to say what follows where a free name is asked for:
where a variable is looked up in the memory, where its value is remembered, and where an open
variable is asked for again.

* `Simulation.matches_meaningBy`: one step keeps a simulation.
* `Simulation.KeptBy`, `Simulation.KeptAlong`: what a simulation has to fulfil along evaluation.
* `Simulation.KeptBy.matches_careful`, `Simulation.KeptAlong.matches`: the answers of every
  expression are related.
* `Simulation.Carries`: the same for simulations that are kept at each of these places by itself.
* `Simulation.SharesMemory`: the memory is used in the same way on both sides.
-/

namespace VectorScript.Simulation

variable {m m' : Type → Type} [Answering m] [Answering m'] [LawfulMonad m] [LawfulMonad m']

/-- The simulation is kept wherever evaluations may come to that `f` and `g` answer.  These places
have the property `Inv`. -/
structure KeptBy (S : Simulation m m') (w : Setting) (f : Context → Expr → Meaning m)
    (g : Context → Expr → Meaning m') (Inv : Context → Expr → Prop) : Prop where
  step : ∀ {ctx ctx' e e'}, Inv ctx e → Expr.Leads w ctx e ctx' e' → Inv ctx' e'
  site : ∀ {ctx e}, Inv ctx e → S.Allows (ctx.site e.span)
  /-- A free name may be asked for if the bodies of variables may be. -/
  free : ∀ {ctx name span}, Inv ctx (.identifier name span) → ctx.scope.find? name = none →
    (∀ {st key body}, w.declarations.find? name = some st → st.kind = .variable key body →
      name ∉ ctx.opened → S.Matches (f (ctx.inVariable name) body) (g (ctx.inVariable name) body)) →
    S.Matches (.recalledOr name (Expr.declaredBy w f ctx name span))
      (.recalledOr name (Expr.declaredBy w g ctx name span))

/-- The simulation is kept where a value is remembered, and where it is used again. -/
structure CarriesBy (S : Simulation m m') (w : Setting) (f : Context → Expr → Meaning m)
    (g : Context → Expr → Meaning m') (Inv : Context → Expr → Prop) : Prop where
  step : ∀ {ctx ctx' e e'}, Inv ctx e → Expr.Leads w ctx e ctx' e' → Inv ctx' e'
  site : ∀ {ctx e}, Inv ctx e → S.Allows (ctx.site e.span)
  /-- An open variable may be asked for again only if that may be said. -/
  reopen : ∀ {ctx name span}, Inv ctx (.identifier name span) → ctx.scope.find? name = none →
    w.declarations.IsVariable name → name ∈ ctx.opened →
    S.may ⟨.cyclicDefinition name, ctx.site span⟩
  /-- The value of a variable may be remembered. -/
  remember : ∀ {ctx name span st key body}, Inv ctx (.identifier name span) →
    ctx.scope.find? name = none → w.declarations.find? name = some st →
    st.kind = .variable key body → name ∉ ctx.opened →
    S.Matches (.delay fun _ => f (ctx.inVariable name) body)
      (.delay fun _ => g (ctx.inVariable name) body) →
    S.Matches (.ofVariable name (.delay fun _ => f (ctx.inVariable name) body))
      (.ofVariable name (.delay fun _ => g (ctx.inVariable name) body))
  /-- What is remembered under a free name may be used. -/
  recalled : ∀ {ctx name span}, Inv ctx (.identifier name span) → ctx.scope.find? name = none →
    S.Matches (Expr.declaredBy w f ctx name span) (Expr.declaredBy w g ctx name span) →
    S.Matches (.recalledOr name (Expr.declaredBy w f ctx name span))
      (.recalledOr name (Expr.declaredBy w g ctx name span))

/-- Evaluation keeps the simulation. -/
abbrev KeptAlong (S : Simulation m m') (w : Setting) (Inv : Context → Expr → Prop) : Prop :=
  S.KeptBy w (Expr.meaning w) (Expr.meaning w) Inv

abbrev Carries (S : Simulation m m') (w : Setting) (Inv : Context → Expr → Prop) : Prop :=
  S.CarriesBy w (Expr.meaning w) (Expr.meaning w) Inv

open VectorScript.Expr

variable {S : Simulation m m'} {w : Setting} {Inv : Context → Expr → Prop}

/-- One step keeps a simulation if what it leads to does, and free names do.  On both sides another
evaluation may answer for what it leads to. -/
theorem matches_meaningBy {f : Context → Expr → Meaning m} {g : Context → Expr → Meaning m'}
    {ctx : Context} {e : Expr} (hsite : S.Allows (ctx.site e.span))
    (hstep : ∀ {ctx' e'}, Leads w ctx e ctx' e' →
      S.Allows (ctx'.site e'.span) ∧ S.Matches (f ctx' e') (g ctx' e'))
    (hfree : ∀ name span, e = identifier name span → ctx.scope.find? name = none →
      S.Matches (.recalledOr name (declaredBy w f ctx name span))
        (.recalledOr name (declaredBy w g ctx name span))) :
    S.Matches (meaningBy w f ctx e) (meaningBy w g ctx e) := by
  have hpart : ∀ c ∈ e.openParts, S.Matches (.delay fun _ => f ctx c) (.delay fun _ => g ctx c) :=
    fun c hc => .delay (hstep (.part hc)).2
  cases e with
  | constant x span => exact .const _
  | identifier name span =>
    cases hbound : ctx.scope.find? name with
    | none =>
      simp only [meaningBy_free hbound]
      exact hfree name span rfl hbound
    | some b =>
      cases b with
      | value v =>
        simp only [meaningBy_bound hbound]
        exact .const v
      | deferred arg outer owner =>
        simp only [meaningBy_deferred hbound]
        exact .delay (hstep (.deferred hbound)).2
  | vector items span =>
    simp only [meaningBy_vector]
    exact .vector hsite hpart
  | array items span =>
    simp only [meaningBy_array]
    exact .arrayLiteral hsite (fun item hitem => (hstep (.part hitem)).1) _ hpart
  | comprehension body binder source span =>
    have hbody : ∀ v, Leads w ctx (comprehension body binder source span)
        (ctx.bind binder v) body := .element List.mem_cons_self
    exact .comprehension ⟨rfl, hsite, (hstep (hbody default)).1, hpart source List.mem_cons_self,
      fun v => (hstep (hbody v)).2, rfl⟩
  | filtered body binder source condition span =>
    have hbody : ∀ v, Leads w ctx (filtered body binder source condition span)
        (ctx.bind binder v) body := .element List.mem_cons_self
    have hcondition : ∀ v, Leads w ctx (filtered body binder source condition span)
        (ctx.bind binder v) condition := .element (List.mem_cons_of_mem _ List.mem_cons_self)
    apply Matches.filtered
    · exact ⟨rfl, hsite, (hstep (hbody default)).1, hpart source List.mem_cons_self,
        fun v => (hstep (hbody v)).2, rfl⟩
    · exact fun v => (hstep (hcondition v)).2
  | call name args span =>
    rcases call_cases w ctx name args with ⟨cause, hcause, hfail⟩ |
      ⟨hbound, st, key, params, body, hfind, hkind, hcount, hdepth⟩ | ⟨hbound, hfind⟩
    · simp only [hfail]
      refine .fail hsite ?_
      cases cause with
      | cyclicDefinition x => exact absurd rfl (hcause x)
      | _ => rfl
    · simp only [meaningBy_call_function hbound hfind hkind hcount hdepth]
      refine .call hpart (fun values hvalues => ?_) (.delay ?_)
      · exact (hstep (.applied hbound hfind hkind hcount hdepth hvalues)).2
      · exact (hstep (.called hbound hfind hkind hcount hdepth)).2
    · simp only [meaningBy_call_builtin hbound hfind]
      exact .ofBuiltinCall hsite _ hpart
  | unary op operand span => exact .unary hsite _ (hpart _ (by simp [openParts, children]))
  | binary op left right span =>
    exact .binary hsite _ (hpart _ (by simp [openParts, children]))
      (hpart _ (by simp [openParts, children]))
  | range lower upper span =>
    exact .range hsite (hstep (.part (by simp [openParts, children]))).1
      (hstep (.part (by simp [openParts, children]))).1 _
      (hpart lower (by simp [openParts, children])) (hpart upper (by simp [openParts, children]))
  | index target position span =>
    exact .index (hstep (.part (by simp [openParts, children]))).1
      (hpart target (by simp [openParts, children]))
      (hpart position (by simp [openParts, children]))
  | swizzle target components span =>
    exact .swizzle hsite _ (hpart _ (by simp [openParts, children]))
  | conditional consequent condition alternative span =>
    exact .conditional hsite (hpart _ (by simp [openParts, children]))
      (hpart _ (by simp [openParts, children])) (hpart _ (by simp [openParts, children]))

/-- The same answers are refused on both sides. -/
theorem Matches.checkedPart {checks : Bool} {a : Meaning m} {b : Meaning m'}
    (hmay : checks → S.may .refusal) (h : S.Matches a b) (e : Expr) :
    S.Matches (e.checkedPart checks a) (e.checkedPart checks b) := by
  unfold Expr.checkedPart
  split_ifs with hcheck
  · have hmay := hmay (Bool.and_eq_true_iff.mp hcheck).1
    refine ⟨S.bind h.shape fun s => ?_, fun selection => ?_⟩
    · split_ifs
      · exact S.pure s
      · exact S.raise hmay
    · cases selection with
      | all =>
        refine S.bind (h.values .all) fun v => ?_
        split_ifs
        · exact S.pure v
        · exact S.raise hmay
      | «at» indices => exact h.values (.at indices)
  · exact h

/-- The answers of every expression are related, where some may be refused. -/
theorem KeptBy.matches_careful {checks : Bool}
    (h : S.KeptBy w (careful checks w) (careful checks w) Inv) (hmay : checks → S.may .refusal)
    (ctx : Context) (e : Expr) :
    Inv ctx e → S.Matches (careful checks w ctx e) (careful checks w ctx e) := by
  -- along the evaluation: `Inv` goes with every step
  induction ctx, e using induction_on_steps w with
  | h ctx e ih =>
    intro hinv
    by_cases hfree : ∃ name span, e = identifier name span ∧ ctx.scope.find? name = none
    · obtain ⟨name, span, rfl, hfree⟩ := hfree
      rw [careful_free hfree, careful_free hfree]
      refine h.free hinv hfree fun hfind hkind hopen => ?_
      have hleads : Leads w ctx (identifier name span) (ctx.inVariable name) _ :=
        .reference hfree hfind hkind hopen
      exact ih _ _ hleads (h.step hinv hleads)
    · rw [careful_eq, careful_eq]
      refine matches_meaningBy (h.site hinv) (fun hleads => ?_) fun name span he hname =>
        absurd ⟨name, span, he, hname⟩ hfree
      have hinv' := h.step hinv hleads
      exact ⟨h.site hinv', (ih _ _ hleads hinv').checkedPart hmay e⟩

/-- The answers of every expression are related. -/
theorem KeptAlong.matches (h : S.KeptAlong w Inv) (ctx : Context) (e : Expr) (hinv : Inv ctx e) :
    S.Matches (e.meaning w ctx) (e.meaning w ctx) := by
  have hcareful : S.KeptBy w (careful false w) (careful false w) Inv := by
    rw [careful_false, careful_false]
    exact h
  have hmatches := hcareful.matches_careful nofun ctx e hinv
  rwa [careful_false, careful_false] at hmatches

/-- Names that are not remembered match if the bodies of variables do. -/
theorem matches_declaredBy {f : Context → Expr → Meaning m} {g : Context → Expr → Meaning m'}
    {ctx : Context} {name : String} {span : Span} (hsite : S.Allows (ctx.site span))
    (hopen : w.declarations.IsVariable name → name ∈ ctx.opened →
      S.may ⟨.cyclicDefinition name, ctx.site span⟩)
    (hbody : ∀ {st key body}, w.declarations.find? name = some st →
      st.kind = .variable key body → name ∉ ctx.opened →
      S.Matches (.ofVariable name (.delay fun _ => f (ctx.inVariable name) body))
        (.ofVariable name (.delay fun _ => g (ctx.inVariable name) body))) :
    S.Matches (declaredBy w f ctx name span) (declaredBy w g ctx name span) := by
  cases hfind : w.declarations.find? name with
  | none =>
    simp only [declaredBy_undeclared hfind]
    exact .ofUndeclared hsite _ _
  | some st =>
    by_cases hvar : st.isVariable
    · obtain ⟨key, body, hkind⟩ := Statement.isVariable_iff.mp hvar
      by_cases hopened : name ∈ ctx.opened
      · have hmay := hopen ⟨st, hfind, hvar⟩ hopened
        simp only [declaredBy_open hfind hkind hopened]
        exact ⟨S.raise hmay, fun _ => S.raise hmay⟩
      · simp only [declaredBy_variable hfind hkind hopened]
        exact hbody hfind hkind hopened
    · simp only [declaredBy_not_variable hfind hvar]
      exact .fail hsite rfl

theorem CarriesBy.keptBy {f : Context → Expr → Meaning m} {g : Context → Expr → Meaning m'}
    (h : S.CarriesBy w f g Inv) : S.KeptBy w f g Inv where
  step := h.step
  site := h.site
  free hinv hfree hbody := h.recalled hinv hfree <|
    matches_declaredBy (h.site hinv) (h.reopen hinv hfree) fun hfind hkind hopen =>
      h.remember hinv hfree hfind hkind hopen (.delay (hbody hfind hkind hopen))

theorem CarriesBy.matches_careful {checks : Bool}
    (h : S.CarriesBy w (careful checks w) (careful checks w) Inv) (hmay : checks → S.may .refusal)
    (ctx : Context) (e : Expr) (hinv : Inv ctx e) :
    S.Matches (careful checks w ctx e) (careful checks w ctx e) :=
  h.keptBy.matches_careful hmay ctx e hinv

theorem Carries.matches (h : S.Carries w Inv) (ctx : Context) (e : Expr) (hinv : Inv ctx e) :
    S.Matches (e.meaning w ctx) (e.meaning w ctx) :=
  KeptAlong.matches h.keptBy ctx e hinv

/-! ### The same memory on both sides -/

/-- The memory is used in the same way on both sides. -/
structure SharesMemory (S : Simulation m m') : Prop where
  countStatement : S.Rel (Answering.countStatement : m Unit) Answering.countStatement
  remember : ∀ name v, S.Rel (Answering.remember name v : m Unit) (Answering.remember name v)
  remembered? : ∀ name, S.Rel (Answering.remembered? name : m (Option Series))
    (Answering.remembered? name)

namespace SharesMemory

variable {a : Meaning m} {b : Meaning m'}

theorem ofVariable (h : S.SharesMemory) (hab : S.Matches a b) (name : String) :
    S.Matches (.ofVariable name a) (.ofVariable name b) := by
  refine ⟨hab.shape, fun selection => ?_⟩
  refine S.bind h.countStatement fun _ => S.bind (hab.values selection) fun v => ?_
  split_ifs
  · exact S.bind (h.remember name v) fun _ => S.pure v
  · exact S.pure v

theorem recalledOr (h : S.SharesMemory) (hab : S.Matches a b) (name : String) :
    S.Matches (.recalledOr name a) (.recalledOr name b) := by
  refine .after (.bind (h.remembered? name) fun found => ?_)
  cases found with
  | none => exact .pure hab
  | some v => exact .pure (.const v)

end SharesMemory

end VectorScript.Simulation
