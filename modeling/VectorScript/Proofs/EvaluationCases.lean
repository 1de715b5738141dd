import VectorScript.Evaluation

/-!
# Cases of evaluation

What an identifier and a call mean, case by case, and the induction that follows evaluation: into
waiting arguments, into the bodies of variables that are not open, and into the bodies of functions
while the depth allows it.

* `Expr.meaningBy`: the answers of an expression by the answers of what its evaluation leads to.
* `Expr.declaredBy`: the same for a free name that is not remembered.
* `Expr.call_cases`: a call fails, or it is one of a declared function, or one of a builtin.
* `Expr.induction_on_evaluation`: induction along evaluation.
-/

namespace VectorScript

/-- A meaning that waits answers as the meaning it waits for. -/
theorem Meaning.delay_eq {m : Type → Type} [Answering m] [LawfulMonad m] (f : Unit → Meaning m) :
    delay f = f () := by
  simp [delay]

namespace Expr

theorem anyShapeMayVary_eq_false {ds : Declarations} {es : List Expr} :
    anyShapeMayVary ds es = false ↔ ∀ e ∈ es, e.shapeMayVary ds = false := by
  induction es with
  | nil => simp [anyShapeMayVary]
  | cons e rest ih => simp [anyShapeMayVary, ih]

variable {m : Type → Type} [Answering m] {w : Setting} {ctx : Context} {name key : String}
  {span : Span} {st : Statement} {body : Expr} {params : List String} {args : List Expr}

/-! ### One step at a time -/

/-- The answers of an expression by some nodes, where `again` answers for what its evaluation leads
to. -/
def stepBy (nodes : Nodes m) (w : Setting) (again : Context → Expr → Meaning m) (ctx : Context)
    (e : Expr) : Meaning m :=
  step (P := fun _ _ => True) (fun ctx' e' _ => again ctx' e') nodes w ctx e fun _ _ _ => trivial

/-- A step asks only for what nests less deep. -/
theorem step_eq_below {P : Context → Expr → Prop} {f : ∀ ctx e, P ctx e → Meaning m}
    {nodes : Nodes m} {e : Expr} {hbelow : ∀ ctx' e', Below w ctx' e' ctx e → P ctx' e'} :
    step f nodes w ctx e hbelow = step (P := fun ctx' e' => Below w ctx' e' ctx e)
      (fun ctx' e' h => f ctx' e' (hbelow ctx' e' h)) nodes w ctx e fun _ _ h => h := by
  cases e <;> rfl

theorem stepBy_eq_below {nodes : Nodes m} {f : Context → Expr → Meaning m} {e : Expr} :
    stepBy nodes w f ctx e = step (P := fun ctx' e' => Below w ctx' e' ctx e)
      (fun ctx' e' _ => f ctx' e') nodes w ctx e fun _ _ h => h :=
  step_eq_below

/-- The answers depend only on answers that nest less deep. -/
theorem stepBy_congr {nodes : Nodes m} {f g : Context → Expr → Meaning m} {e : Expr}
    (h : ∀ ctx' e', nesting w ctx' e' < nesting w ctx e → f ctx' e' = g ctx' e') :
    stepBy nodes w f ctx e = stepBy nodes w g ctx e := by
  rw [stepBy_eq_below, stepBy_eq_below]
  congr
  funext ctx' e' hbelow
  exact h ctx' e' hbelow.lt

/-- The answers of an expression, where `again` answers for what its evaluation leads to. -/
def meaningBy (w : Setting) (again : Context → Expr → Meaning m) (ctx : Context) (e : Expr) :
    Meaning m :=
  stepBy .standard w again ctx e

/-- The answers of an expression are those by the answers of what its evaluation leads to. -/
theorem meaning_eq_meaningBy (ctx : Context) (e : Expr) :
    meaning (m := m) w ctx e = meaningBy w (meaning w) ctx e := by
  rw [meaning, meaningBy, stepBy_eq_below]

theorem meaningBy_congr {f g : Context → Expr → Meaning m} {e : Expr}
    (h : ∀ ctx' e', nesting w ctx' e' < nesting w ctx e → f ctx' e' = g ctx' e') :
    meaningBy w f ctx e = meaningBy w g ctx e :=
  stepBy_congr h

variable {nodes : Nodes m} {again : Context → Expr → Meaning m}

/-! ### Nodes -/

theorem stepBy_vector (items : List Expr) : stepBy nodes w again ctx (vector items span) =
    nodes.vector (ctx.site span) (items.map fun item => .delay fun _ => again ctx item) :=
  congrArg (nodes.vector _)
    (List.attach_map_val (f := fun item => Meaning.delay fun _ => again ctx item))

theorem stepBy_array (items : List Expr) : stepBy nodes w again ctx (array items span) =
    nodes.array (ctx.site span) w.limits.maxArrayLength (items.map fun item =>
      itemOf ctx item (.delay fun _ => again ctx item)) :=
  congrArg (nodes.array _ _)
    (List.attach_map_val (f := fun item => itemOf ctx item (.delay fun _ => again ctx item)))

theorem meaningBy_constant (x : Float32) :
    meaningBy w again ctx (constant x span) = .const (.scalar x) := rfl

theorem meaningBy_vector (items : List Expr) : meaningBy w again ctx (vector items span) =
    .vector (ctx.site span) (items.map fun item => .delay fun _ => again ctx item) :=
  stepBy_vector items

theorem meaningBy_array (items : List Expr) : meaningBy w again ctx (array items span) =
    .arrayLiteral (ctx.site span) w.limits.maxArrayLength (items.map fun item =>
      itemOf ctx item (.delay fun _ => again ctx item)) :=
  stepBy_array items

/-- The parts of a comprehension, where `again` answers for its source and its body. -/
abbrev partsBy (w : Setting) (again : Context → Expr → Meaning m) (ctx : Context) (body : Expr)
    (binder : String) (source : Expr) (span : Span) : Comprehension m :=
  comprehensionOf w ctx body span (.delay fun _ => again ctx source)
    fun v => again (ctx.bind binder v) body

theorem meaningBy_comprehension (body : Expr) (binder : String) (source : Expr) :
    meaningBy w again ctx (comprehension body binder source span) =
      (partsBy w again ctx body binder source span).meaning := rfl

theorem meaningBy_filtered (body : Expr) (binder : String) (source condition : Expr) :
    meaningBy w again ctx (filtered body binder source condition span) =
      (partsBy w again ctx body binder source span).filtered
        fun v => again (ctx.bind binder v) condition := rfl

theorem meaningBy_unary (op : UnaryOp) (operand : Expr) :
    meaningBy w again ctx (unary op operand span) =
      .unary (ctx.site span) op (.delay fun _ => again ctx operand) := rfl

theorem meaningBy_binary (op : BinaryOp) (left right : Expr) :
    meaningBy w again ctx (binary op left right span) =
      .binary (ctx.site span) op (.delay fun _ => again ctx left)
        (.delay fun _ => again ctx right) := rfl

theorem meaningBy_range (lower upper : Expr) : meaningBy w again ctx (range lower upper span) =
    .range (ctx.site span) (ctx.site lower.span) (ctx.site upper.span) w.limits.maxArrayLength
      (.delay fun _ => again ctx lower) (.delay fun _ => again ctx upper) := rfl

theorem meaningBy_index (target position : Expr) :
    meaningBy w again ctx (index target position span) =
      .index (ctx.site position.span) (.delay fun _ => again ctx target)
        (.delay fun _ => again ctx position) := rfl

theorem meaningBy_swizzle (target : Expr) (components : String) :
    meaningBy w again ctx (swizzle target components span) =
      .swizzle (ctx.site span) components (.delay fun _ => again ctx target) := rfl

theorem meaningBy_conditional (consequent condition alternative : Expr) :
    meaningBy w again ctx (conditional consequent condition alternative span) =
      .conditional (ctx.site span) (.delay fun _ => again ctx consequent)
        (.delay fun _ => again ctx condition) (.delay fun _ => again ctx alternative) := rfl

/-! ### Identifiers -/

/-- What a free name means when it is not remembered, where `again` answers for the bodies of
variables. -/
def declaredBy (w : Setting) (again : Context → Expr → Meaning m) (ctx : Context) (name : String)
    (span : Span) : Meaning m :=
  freeStep (P := fun _ _ => True) (fun ctx' e' _ => again ctx' e') w ctx name span
    fun _ _ _ => trivial

theorem stepBy_bound {v : Series} (h : ctx.scope.find? name = some (.value v)) :
    stepBy nodes w again ctx (identifier name span) = .const v := by
  simp only [stepBy, step]
  split <;> simp_all

theorem stepBy_deferred {arg : Expr} {outer : Scope} {owner : Option String}
    (h : ctx.scope.find? name = some (.deferred arg outer owner)) :
    stepBy nodes w again ctx (identifier name span) =
      .delay fun _ => again (ctx.resume outer owner) arg := by
  simp only [stepBy, step]
  split <;> simp_all

theorem stepBy_free (h : ctx.scope.find? name = none) :
    stepBy nodes w again ctx (identifier name span) =
      .recalledOr name (declaredBy w again ctx name span) := by
  simp only [stepBy, step]
  split
  · simp_all
  · simp_all
  · rfl

theorem meaningBy_bound {v : Series} (h : ctx.scope.find? name = some (.value v)) :
    meaningBy w again ctx (identifier name span) = .const v :=
  stepBy_bound h

theorem meaningBy_deferred {arg : Expr} {outer : Scope} {owner : Option String}
    (h : ctx.scope.find? name = some (.deferred arg outer owner)) :
    meaningBy w again ctx (identifier name span) =
      .delay fun _ => again (ctx.resume outer owner) arg :=
  stepBy_deferred h

theorem meaningBy_free (h : ctx.scope.find? name = none) :
    meaningBy w again ctx (identifier name span) =
      .recalledOr name (declaredBy w again ctx name span) :=
  stepBy_free h

theorem meaning_bound {v : Series} (h : ctx.scope.find? name = some (.value v)) :
    meaning (m := m) w ctx (identifier name span) = .const v := by
  rw [meaning_eq_meaningBy, meaningBy_bound h]

theorem meaning_deferred {arg : Expr} {outer : Scope} {owner : Option String}
    (h : ctx.scope.find? name = some (.deferred arg outer owner)) :
    meaning (m := m) w ctx (identifier name span) =
      .delay fun _ => meaning w (ctx.resume outer owner) arg := by
  rw [meaning_eq_meaningBy, meaningBy_deferred h]

theorem meaning_free (h : ctx.scope.find? name = none) :
    meaning (m := m) w ctx (identifier name span) =
      .recalledOr name (declaredBy w (meaning w) ctx name span) := by
  rw [meaning_eq_meaningBy, meaningBy_free h]

theorem declaredBy_variable (hfind : w.declarations.find? name = some st)
    (hkind : st.kind = .variable key body) (hopen : name ∉ ctx.opened) :
    declaredBy w again ctx name span =
      .ofVariable name (.delay fun _ => again (ctx.inVariable name) body) := by
  unfold declaredBy freeStep
  split
  · rename_i st' hfind'
    obtain rfl : st' = st := Option.some.inj (hfind'.symm.trans hfind)
    split
    · rename_i hkind'
      cases hkind'.symm.trans hkind
      rw [dif_neg hopen]
    · rename_i hother
      exact absurd hkind (hother _ _)
  · cases hfind.symm.trans ‹_›

theorem declaredBy_open (hfind : w.declarations.find? name = some st)
    (hkind : st.kind = .variable key body) (hopen : name ∈ ctx.opened) :
    declaredBy w again ctx name span = .fail (ctx.site span) (.cyclicDefinition name) := by
  unfold declaredBy freeStep
  split
  · rename_i st' hfind'
    obtain rfl : st' = st := Option.some.inj (hfind'.symm.trans hfind)
    split
    · rw [dif_pos hopen]
    · rename_i hother
      exact absurd hkind (hother _ _)
  · cases hfind.symm.trans ‹_›

theorem declaredBy_not_variable (hfind : w.declarations.find? name = some st)
    (hkind : ¬ st.isVariable) :
    declaredBy w again ctx name span = .fail (ctx.site span) (.identifierNotVariable name) := by
  unfold declaredBy freeStep
  split
  · rename_i st' hfind'
    obtain rfl : st' = st := Option.some.inj (hfind'.symm.trans hfind)
    split
    · exact absurd (Statement.isVariable_iff.mpr ⟨_, _, ‹_›⟩) hkind
    · rfl
  · cases hfind.symm.trans ‹_›

theorem declaredBy_undeclared (hfind : w.declarations.find? name = none) :
    declaredBy w again ctx name span = .ofUndeclared w.animation (ctx.site span) name := by
  unfold declaredBy freeStep
  split
  · cases hfind.symm.trans ‹_›
  · rfl

/-! ### Calls -/

theorem stepBy_call_bound (h : ctx.scope.contains name) :
    stepBy nodes w again ctx (call name args span) =
      .fail (ctx.site span) (.identifierNotFunction name) := by
  simp only [stepBy, step, callStep, if_pos h]

theorem stepBy_call_declared (h : ¬ ctx.scope.contains name)
    (hfind : w.declarations.find? name = some st) :
    stepBy nodes w again ctx (call name args span) =
      match st.kind with
      | .function _ params body =>
        if params.length ≠ args.length then
          .fail (ctx.site span) (.incorrectParameterCount name params.length args.length)
        else if ctx.depth < w.limits.maxCallDepth then
          .call (args.map fun arg => .delay fun _ => again ctx arg)
            (fun values => again (ctx.inFunction name (.ofValues params values .root)) body)
            (.delay fun _ => again
              (ctx.inFunction name (.ofArgs ctx.scope ctx.owner params args .root)) body)
        else .fail (ctx.site span) (.recursionLimit w.limits.maxCallDepth)
      | _ => .fail (ctx.site span) (.identifierNotFunction name) := by
  have hargs : (args.attach.map fun x => Meaning.delay fun _ => again ctx x.val) =
      args.map fun arg => .delay fun _ => again ctx arg :=
    List.attach_map_val (f := fun arg => Meaning.delay fun _ => again ctx arg)
  simp only [stepBy, step, callStep, if_neg h, hargs]
  split
  · rename_i st' hfind'
    obtain rfl : st' = st := Option.some.inj (hfind'.symm.trans hfind)
    split
    · rename_i hkind
      simp only [hkind, dite_eq_ite]
    · rename_i hkind
      split
      · exact absurd ‹_› (hkind _ _ _)
      · rfl
  · cases hfind.symm.trans ‹_›

theorem stepBy_call_builtin (h : ¬ ctx.scope.contains name)
    (hfind : w.declarations.find? name = none) :
    stepBy nodes w again ctx (call name args span) =
      nodes.builtinCall (ctx.site span) name
        (args.map fun arg => .delay fun _ => again ctx arg) := by
  simp only [stepBy, step, callStep, if_neg h]
  split
  · cases hfind.symm.trans ‹_›
  · exact congrArg (nodes.builtinCall _ name)
      (List.attach_map_val (f := fun arg => Meaning.delay fun _ => again ctx arg))

theorem meaningBy_call_bound (h : ctx.scope.contains name) :
    meaningBy w again ctx (call name args span) =
      .fail (ctx.site span) (.identifierNotFunction name) :=
  stepBy_call_bound h

theorem meaningBy_call_count (h : ¬ ctx.scope.contains name)
    (hfind : w.declarations.find? name = some st) (hkind : st.kind = .function key params body)
    (hcount : params.length ≠ args.length) :
    meaningBy w again ctx (call name args span) =
      .fail (ctx.site span) (.incorrectParameterCount name params.length args.length) := by
  rw [meaningBy, stepBy_call_declared h hfind]
  simp only [hkind]
  rw [if_pos hcount]

theorem meaningBy_call_function (h : ¬ ctx.scope.contains name)
    (hfind : w.declarations.find? name = some st) (hkind : st.kind = .function key params body)
    (hcount : params.length = args.length) (hdepth : ctx.depth < w.limits.maxCallDepth) :
    meaningBy w again ctx (call name args span) =
      .call (args.map fun arg => .delay fun _ => again ctx arg)
        (fun values => again (ctx.inFunction name (.ofValues params values .root)) body)
        (.delay fun _ => again
          (ctx.inFunction name (.ofArgs ctx.scope ctx.owner params args .root)) body) := by
  rw [meaningBy, stepBy_call_declared h hfind]
  simp only [hkind]
  rw [if_neg (not_not_intro hcount), if_pos hdepth]

theorem meaningBy_call_deep (h : ¬ ctx.scope.contains name)
    (hfind : w.declarations.find? name = some st) (hkind : st.kind = .function key params body)
    (hcount : params.length = args.length) (hdepth : ¬ ctx.depth < w.limits.maxCallDepth) :
    meaningBy w again ctx (call name args span) =
      .fail (ctx.site span) (.recursionLimit w.limits.maxCallDepth) := by
  rw [meaningBy, stepBy_call_declared h hfind]
  simp only [hkind]
  rw [if_neg (not_not_intro hcount), if_neg hdepth]

theorem meaningBy_call_not_function (h : ¬ ctx.scope.contains name)
    (hfind : w.declarations.find? name = some st) (hkind : ¬ st.isFunction) :
    meaningBy w again ctx (call name args span) =
      .fail (ctx.site span) (.identifierNotFunction name) := by
  rw [meaningBy, stepBy_call_declared h hfind]
  cases hst : st.kind with
  | function => simp [Statement.isFunction, hst] at hkind
  | _ => rfl

theorem meaningBy_call_builtin (h : ¬ ctx.scope.contains name)
    (hfind : w.declarations.find? name = none) :
    meaningBy w again ctx (call name args span) =
      .ofBuiltinCall (ctx.site span) name (args.map fun arg => .delay fun _ => again ctx arg) :=
  stepBy_call_builtin h hfind

/-- A call fails at once, and not because of a cycle, or it is one of a declared function that may
be evaluated, or one of a builtin. -/
theorem call_cases (w : Setting) (ctx : Context) (name : String) (args : List Expr) :
    (∃ cause : EvalError.Cause, (∀ x, cause ≠ .cyclicDefinition x) ∧
      ∀ (m : Type → Type) [Answering m] (again : Context → Expr → Meaning m) (span : Span),
        meaningBy w again ctx (call name args span) = .fail (ctx.site span) cause) ∨
    (¬ ctx.scope.contains name ∧ ∃ st key params body, w.declarations.find? name = some st ∧
      st.kind = .function key params body ∧ params.length = args.length ∧
      ctx.depth < w.limits.maxCallDepth) ∨
    (¬ ctx.scope.contains name ∧ w.declarations.find? name = none) := by
  by_cases hbound : ctx.scope.contains name
  · exact .inl ⟨.identifierNotFunction name, by simp, fun _ _ _ _ => meaningBy_call_bound hbound⟩
  cases hfind : w.declarations.find? name with
  | none => exact .inr (.inr ⟨hbound, rfl⟩)
  | some st =>
    cases hkind : st.kind with
    | function key params body =>
      by_cases hcount : params.length = args.length
      · by_cases hdepth : ctx.depth < w.limits.maxCallDepth
        · exact .inr (.inl ⟨hbound, st, key, params, body, rfl, hkind, hcount, hdepth⟩)
        · exact .inl ⟨.recursionLimit w.limits.maxCallDepth, by simp, fun _ _ _ _ =>
            meaningBy_call_deep hbound hfind hkind hcount hdepth⟩
      · exact .inl ⟨.incorrectParameterCount name params.length args.length, by simp,
          fun _ _ _ _ => meaningBy_call_count hbound hfind hkind hcount⟩
    | _ =>
      have hfun : ¬ st.isFunction := by simp [Statement.isFunction, hkind]
      exact .inl ⟨.identifierNotFunction name, by simp, fun _ _ _ _ =>
        meaningBy_call_not_function hbound hfind hfun⟩

theorem meaning_call_bound (h : ctx.scope.contains name) :
    meaning (m := m) w ctx (call name args span) =
      .fail (ctx.site span) (.identifierNotFunction name) := by
  rw [meaning_eq_meaningBy, meaningBy_call_bound h]

theorem meaning_call_count (h : ¬ ctx.scope.contains name)
    (hfind : w.declarations.find? name = some st) (hkind : st.kind = .function key params body)
    (hcount : params.length ≠ args.length) :
    meaning (m := m) w ctx (call name args span) =
      .fail (ctx.site span) (.incorrectParameterCount name params.length args.length) := by
  rw [meaning_eq_meaningBy, meaningBy_call_count h hfind hkind hcount]

theorem meaning_call_function (h : ¬ ctx.scope.contains name)
    (hfind : w.declarations.find? name = some st) (hkind : st.kind = .function key params body)
    (hcount : params.length = args.length) (hdepth : ctx.depth < w.limits.maxCallDepth) :
    meaning (m := m) w ctx (call name args span) =
      .call (args.map fun arg => .delay fun _ => meaning w ctx arg)
        (fun values => meaning w (ctx.inFunction name (.ofValues params values .root)) body)
        (.delay fun _ => meaning w
          (ctx.inFunction name (.ofArgs ctx.scope ctx.owner params args .root)) body) := by
  rw [meaning_eq_meaningBy, meaningBy_call_function h hfind hkind hcount hdepth]

theorem meaning_call_deep (h : ¬ ctx.scope.contains name)
    (hfind : w.declarations.find? name = some st) (hkind : st.kind = .function key params body)
    (hcount : params.length = args.length) (hdepth : ¬ ctx.depth < w.limits.maxCallDepth) :
    meaning (m := m) w ctx (call name args span) =
      .fail (ctx.site span) (.recursionLimit w.limits.maxCallDepth) := by
  rw [meaning_eq_meaningBy, meaningBy_call_deep h hfind hkind hcount hdepth]

theorem meaning_call_not_function (h : ¬ ctx.scope.contains name)
    (hfind : w.declarations.find? name = some st) (hkind : ¬ st.isFunction) :
    meaning (m := m) w ctx (call name args span) =
      .fail (ctx.site span) (.identifierNotFunction name) := by
  rw [meaning_eq_meaningBy, meaningBy_call_not_function h hfind hkind]

theorem meaning_call_builtin (h : ¬ ctx.scope.contains name)
    (hfind : w.declarations.find? name = none) :
    meaning (m := m) w ctx (call name args span) =
      .ofBuiltinCall (ctx.site span) name
        (args.map fun arg => .delay fun _ => meaning w ctx arg) := by
  rw [meaning_eq_meaningBy, meaningBy_call_builtin h hfind]

/-! ### Induction -/

/-- Induction along evaluation, with the cases by what an identifier or a call finds. -/
@[elab_as_elim]
theorem induction_on_evaluation {motive : Context → Expr → Prop} (w : Setting)
    (constant : ∀ ctx x span, motive ctx (.constant x span))
    (bound : ∀ ctx name span v, ctx.scope.find? name = some (.value v) →
      motive ctx (.identifier name span))
    (deferred : ∀ ctx name span arg outer owner,
      ctx.scope.find? name = some (.deferred arg outer owner) →
      motive (ctx.resume outer owner) arg → motive ctx (.identifier name span))
    (free : ∀ ctx name span, ctx.scope.find? name = none →
      (∀ st key body, w.declarations.find? name = some st → st.kind = .variable key body →
        name ∉ ctx.opened → motive (ctx.inVariable name) body) → motive ctx (.identifier name span))
    (vector : ∀ ctx items span, (∀ item ∈ items, motive ctx item) →
      motive ctx (.vector items span))
    (array : ∀ ctx items span, (∀ item ∈ items, motive ctx item) → motive ctx (.array items span))
    (comprehension : ∀ ctx body binder source span, motive ctx source →
      (∀ v, motive (ctx.bind binder v) body) → motive ctx (.comprehension body binder source span))
    (filtered : ∀ ctx body binder source condition span, motive ctx source →
      (∀ v, motive (ctx.bind binder v) body) → (∀ v, motive (ctx.bind binder v) condition) →
      motive ctx (.filtered body binder source condition span))
    (failing : ∀ ctx name args span,
      (ctx.scope.contains name ∨ ∃ st, w.declarations.find? name = some st ∧
        (st.isFunction → ∃ key params body, st.kind = .function key params body ∧
          (params.length ≠ args.length ∨ ¬ ctx.depth < w.limits.maxCallDepth))) →
      motive ctx (.call name args span))
    (function : ∀ ctx name args span, ¬ ctx.scope.contains name → ∀ st,
      w.declarations.find? name = some st → ∀ key params body,
      st.kind = .function key params body → params.length = args.length →
      ctx.depth < w.limits.maxCallDepth → (∀ arg ∈ args, motive ctx arg) →
      (∀ values, motive (ctx.inFunction name (.ofValues params values .root)) body) →
      motive (ctx.inFunction name (.ofArgs ctx.scope ctx.owner params args .root)) body →
      motive ctx (.call name args span))
    (builtin : ∀ ctx name args span, ¬ ctx.scope.contains name →
      w.declarations.find? name = none → (∀ arg ∈ args, motive ctx arg) →
      motive ctx (.call name args span))
    (unary : ∀ ctx op operand span, motive ctx operand → motive ctx (.unary op operand span))
    (binary : ∀ ctx op left right span, motive ctx left → motive ctx right →
      motive ctx (.binary op left right span))
    (range : ∀ ctx lower upper span, motive ctx lower → motive ctx upper →
      motive ctx (.range lower upper span))
    (index : ∀ ctx target position span, motive ctx target → motive ctx position →
      motive ctx (.index target position span))
    (swizzle : ∀ ctx target components span, motive ctx target →
      motive ctx (.swizzle target components span))
    (conditional : ∀ ctx consequent condition alternative span, motive ctx consequent →
      motive ctx condition → motive ctx alternative →
      motive ctx (.conditional consequent condition alternative span))
    (ctx : Context) (e : Expr) : motive ctx e := by
  induction hn : nesting w ctx e using Nat.strongRecOn generalizing ctx e with
  | ind n ih =>
    subst hn
    have hdeeper : ∀ {ctx' e'}, nesting w ctx' e' < nesting w ctx e → motive ctx' e' :=
      fun hlt => ih _ hlt _ _ rfl
    have hpart : ∀ c ∈ e.children, motive ctx c := fun c hc => hdeeper (nesting_child hc)
    have helement : ∀ c ∈ e.children, ∀ binder v, motive (ctx.bind binder v) c :=
      fun c hc binder v => hdeeper (nesting_element binder v hc)
    cases e with
    | constant x span => exact constant ctx x span
    | identifier name span =>
      cases hbound : ctx.scope.find? name with
      | none =>
        exact free ctx name span hbound fun st key body hfind hkind hopen =>
          hdeeper (nesting_reference hfind hkind hopen)
      | some binding =>
        cases binding with
        | value v => exact bound ctx name span v hbound
        | deferred arg outer owner =>
          exact deferred ctx name span arg outer owner hbound (hdeeper (nesting_deferred hbound))
    | call name args span =>
      by_cases hbound : ctx.scope.contains name
      · exact failing ctx name args span (.inl hbound)
      cases hfind : w.declarations.find? name with
      | none => exact builtin ctx name args span hbound hfind hpart
      | some st =>
        cases hkind : st.kind with
        | function key params body =>
          by_cases hcount : params.length = args.length
          · by_cases hdepth : ctx.depth < w.limits.maxCallDepth
            · exact function ctx name args span hbound st hfind key params body hkind hcount hdepth
                hpart (fun values => hdeeper (nesting_applied values hfind hkind hdepth))
                (hdeeper (nesting_called hfind hkind hdepth))
            · exact failing ctx name args span
                (.inr ⟨st, hfind, fun _ => ⟨key, params, body, hkind, .inr hdepth⟩⟩)
          · exact failing ctx name args span
              (.inr ⟨st, hfind, fun _ => ⟨key, params, body, hkind, .inl hcount⟩⟩)
        | _ =>
          exact failing ctx name args span
            (.inr ⟨st, hfind, fun hfun => by simp [Statement.isFunction, hkind] at hfun⟩)
    | vector items span => exact vector ctx items span hpart
    | array items span => exact array ctx items span hpart
    | comprehension body binder source span =>
      exact comprehension ctx body binder source span (hpart source (by simp [children]))
        (helement body (by simp [children]) binder)
    | filtered body binder source condition span =>
      exact filtered ctx body binder source condition span (hpart source (by simp [children]))
        (helement body (by simp [children]) binder) (helement condition (by simp [children]) binder)
    | unary op operand span => exact unary ctx op operand span (hpart operand (by simp [children]))
    | binary op left right span =>
      exact binary ctx op left right span (hpart left (by simp [children]))
        (hpart right (by simp [children]))
    | range lower upper span =>
      exact range ctx lower upper span (hpart lower (by simp [children]))
        (hpart upper (by simp [children]))
    | index target position span =>
      exact index ctx target position span (hpart target (by simp [children]))
        (hpart position (by simp [children]))
    | swizzle target components span =>
      exact swizzle ctx target components span (hpart target (by simp [children]))
    | conditional consequent condition alternative span =>
      exact conditional ctx consequent condition alternative span
        (hpart consequent (by simp [children])) (hpart condition (by simp [children]))
        (hpart alternative (by simp [children]))

end Expr

end VectorScript
