import VectorScript.Proofs.CheckedCollections
import VectorScript.Proofs.SessionTables

/-!
# Checked evaluation

Evaluation in which every node checks what it reads and what it answers.  It does not stop at a
check: from every session of a run it answers all requests for written expressions as evaluation
does without checks.  So every series that comes up has one to four channels that are as long as the
series, every place that is read by broadcasting or spreading exists, and a request for some
elements gets as many as it asks for.

* `Expr.checkedWithin`: evaluation with checks, to a depth of nesting.
* `Expr.passes_of_nesting_lt`: deep enough it answers as evaluation does.
* `Session.Formed`: what holds along every run.
* `Session.evaluation_within_bounds`: evaluation with checks along every run.
-/

namespace VectorScript

/-! ### Scopes -/

/-- Bound values are formed, and arguments that wait for evaluation are well formed. -/
def Scope.Formed : Scope → Prop
  | .root => True
  | .bind _ v rest => v.Formed ∧ rest.Formed
  | .defer _ arg outer _ rest => arg.wellFormed ∧ outer.Formed ∧ rest.Formed

instance Scope.decidableFormed : (s : Scope) → Decidable s.Formed
  | .root => isTrue trivial
  | .bind _ v rest =>
    have := decidableFormed rest
    inferInstanceAs (Decidable (v.Formed ∧ rest.Formed))
  | .defer _ arg outer _ rest =>
    have := decidableFormed outer
    have := decidableFormed rest
    inferInstanceAs (Decidable (arg.wellFormed ∧ outer.Formed ∧ rest.Formed))

namespace Scope

variable {s outer : Scope} {name : String}

theorem Formed.rest (name : String) (rest : Scope) (b : Binding) (h : (push name rest b).Formed) :
    rest.Formed := by
  cases b with
  | value v => exact h.2
  | deferred arg outer owner => exact h.2.2

theorem Formed.value {v : Series} (h : s.Formed) (hfind : s.find? name = some (.value v)) :
    v.Formed := by
  obtain ⟨_, hv, -⟩ := exists_push_of_find? Formed.rest h hfind
  exact hv

theorem Formed.deferred {arg : Expr} {owner : Option String} (h : s.Formed)
    (hfind : s.find? name = some (.deferred arg outer owner)) : arg.wellFormed ∧ outer.Formed := by
  obtain ⟨_, harg, houter, -⟩ := exists_push_of_find? Formed.rest h hfind
  exact ⟨harg, houter⟩

theorem formed_ofValues {params : List String} {values : List Series}
    (hvalues : ∀ v ∈ values, v.Formed) (h : s.Formed) : (ofValues params values s).Formed :=
  ofValues_induction (fun _ v _ hmem hrest => ⟨hvalues v (List.of_mem_zip hmem).2, hrest⟩) h

theorem formed_ofArgs {owner : Option String} {params : List String} {args : List Expr}
    (houter : outer.Formed) (hargs : ∀ arg ∈ args, arg.wellFormed) (h : s.Formed) :
    (ofArgs outer owner params args s).Formed :=
  ofArgs_induction (fun _ arg _ hmem hrest => ⟨hargs arg (List.of_mem_zip hmem).2, houter, hrest⟩) h

end Scope

/-- All declared bodies are well formed. -/
def Declarations.WellFormed (ds : Declarations) : Prop :=
  ∀ name st, ds.find? name = some st → st.wellFormed

theorem Declarations.WellFormed.body {ds : Declarations} (h : ds.WellFormed) {name : String}
    {st : Statement} {body : Expr} (hfind : ds.find? name = some st)
    (hbody : st.body? = some body) : body.wellFormed := by
  have hst := h name st hfind
  simpa [Statement.wellFormed, hbody] using hst

theorem Declarations.WellFormed.insert {ds : Declarations} (h : ds.WellFormed) (name : String)
    {st : Statement} (hst : st.wellFormed) : Declarations.WellFormed (ds.insert name st) :=
  NameTable.forall_insert h name hst

namespace Expr

variable {w : Setting} {ctx ctx' : Context} {e e' : Expr}

/-- Steps of evaluation lead to well-formed expressions. -/
theorem Leads.wellFormed (h : Leads w ctx e ctx' e') (hw : w.declarations.WellFormed)
    (hscope : ctx.scope.Formed) (he : e.wellFormed) : e'.wellFormed := by
  cases h with
  | part hc => exact everywhere_child he (mem_children_of_mem_openParts hc)
  | element hc v => exact everywhere_child he (mem_children_of_mem_boundParts hc)
  | deferred hbound => exact (hscope.deferred hbound).1
  | reference _ hfind hkind _ => exact hw.body hfind (by simp [Statement.body?, hkind])
  | applied _ hfind hkind _ _ _ => exact hw.body hfind (by simp [Statement.body?, hkind])
  | called _ hfind hkind _ _ => exact hw.body hfind (by simp [Statement.body?, hkind])

/-! ### Evaluation with checks -/

/-- The nodes of evaluation, where those that read by broadcasting or spreading check what they
read. -/
def checkedNodes : Nodes Unending :=
  { Nodes.standard with
    vector := .checkedVector
    comprehension := Comprehension.checkedMeaning
    filtered := Comprehension.checkedFiltered
    builtinCall := .checkedBuiltinCall
    unary := .checkedUnary
    binary := .checkedBinary
    conditional := .checkedConditional }

/-- Evaluation with checks, in which nothing answers that is nested deeper than a depth.  All that
an expression answers is checked, and all that is bound around it. -/
def checkedWithin (w : Setting) : Nat → Context → Expr → Meaning Unending
  | 0, _, _ => .endless
  | depth + 1, ctx, e =>
    if ctx.scope.Formed then (stepBy checkedNodes w (checkedWithin w depth) ctx e).watched
    else .endless

section

variable {again : Context → Expr → Meaning Unending} {name : String} {span : Span}

theorem passes_declaredBy (hfree : ctx.scope.find? name = none)
    (hagain : ∀ {ctx' e'}, Leads w ctx (identifier name span) ctx' e' → ctx'.scope.Formed →
      (again ctx' e').Passes (e'.meaning w ctx')) :
    (declaredBy w again ctx name span).Passes (declaredBy w (meaning w) ctx name span) := by
  cases hfind : w.declarations.find? name with
  | none =>
    simp only [declaredBy_undeclared hfind]
    exact .ofUndeclared _ _
  | some st =>
    by_cases hvar : st.isVariable
    · obtain ⟨key, body, hkind⟩ := Statement.isVariable_iff.mp hvar
      by_cases hopen : name ∈ ctx.opened
      · simp only [declaredBy_open hfind hkind hopen]
        exact .fail _
      · simp only [declaredBy_variable hfind hkind hopen]
        exact .ofVariable name (.delay (hagain (.reference hfree hfind hkind hopen) trivial))
    · simp only [declaredBy_not_variable hfind hvar]
      exact .fail _

theorem passes_identifier (hscope : ctx.scope.Formed)
    (hagain : ∀ {ctx' e'}, Leads w ctx (identifier name span) ctx' e' → ctx'.scope.Formed →
      (again ctx' e').Passes (e'.meaning w ctx')) :
    (stepBy checkedNodes w again ctx (identifier name span)).Passes
      (meaningBy w (meaning w) ctx (identifier name span)) := by
  cases hbound : ctx.scope.find? name with
  | some binding =>
    cases binding with
    | value v =>
      rw [stepBy_bound hbound, meaningBy_bound hbound]
      exact .const (hscope.value hbound)
    | deferred arg outer owner =>
      rw [stepBy_deferred hbound, meaningBy_deferred hbound]
      exact .delay (hagain (.deferred hbound) (hscope.deferred hbound).2)
  | none =>
    rw [stepBy_free hbound, meaningBy_free hbound]
    exact .recalledOr name (passes_declaredBy hbound hagain)

theorem passes_call {args : List Expr} (hscope : ctx.scope.Formed)
    (he : (call name args span).wellFormed)
    (hagain : ∀ {ctx' e'}, Leads w ctx (call name args span) ctx' e' → ctx'.scope.Formed →
      (again ctx' e').Passes (e'.meaning w ctx')) :
    (stepBy checkedNodes w again ctx (call name args span)).Passes
      (meaningBy w (meaning w) ctx (call name args span)) := by
  have hargs : ∀ arg ∈ args, (Meaning.delay fun _ => again ctx arg).Passes
      (.delay fun _ => arg.meaning w ctx) :=
    fun arg harg => .delay (hagain (.part harg) hscope)
  by_cases hbound : ctx.scope.contains name
  · rw [stepBy_call_bound hbound, meaningBy_call_bound hbound]
    exact .fail _
  cases hfind : w.declarations.find? name with
  | none =>
    rw [stepBy_call_builtin hbound hfind, meaningBy_call_builtin hbound hfind]
    exact .ofBuiltinCall name hargs
  | some st =>
    rw [meaningBy, stepBy_call_declared hbound hfind, stepBy_call_declared hbound hfind]
    cases hkind : st.kind with
    | function key params body =>
      dsimp only
      split_ifs with hcount hdepth
      · exact .fail _
      · have hcount : params.length = args.length := not_not.mp hcount
        refine .call hargs (fun vs hlength hvs => ?_) (.delay ?_)
        · exact hagain (.applied hbound hfind hkind hcount hdepth hlength)
            (Scope.formed_ofValues (s := .root) hvs trivial)
        · refine hagain (.called hbound hfind hkind hcount hdepth) ?_
          exact Scope.formed_ofArgs (s := .root) hscope (fun arg harg => everywhere_child he harg)
            trivial
      · exact .fail _
    | _ => exact .fail _

end

/-- An expression with checks answers as it does without them, if what its evaluation leads to
does. -/
theorem passes_stepBy {again : Context → Expr → Meaning Unending} (hscope : ctx.scope.Formed)
    (he : e.wellFormed)
    (hagain : ∀ {ctx' e'}, Leads w ctx e ctx' e' → ctx'.scope.Formed →
      (again ctx' e').Passes (e'.meaning w ctx')) :
    (stepBy checkedNodes w again ctx e).Passes (e.meaning w ctx) := by
  have hnode := everywhere_node he
  have hpart : ∀ c ∈ e.openParts, (Meaning.delay fun _ => again ctx c).Passes
      (.delay fun _ => c.meaning w ctx) :=
    fun c hc => .delay (hagain (.part hc) hscope)
  have helement : ∀ {binder c}, (binder, c) ∈ e.boundParts → ∀ v : Series, v.Formed →
      (again (ctx.bind binder v) c).Passes (c.meaning w (ctx.bind binder v)) :=
    fun hc v hv => hagain (.element hc v) ⟨hv, hscope⟩
  rw [meaning_eq_meaningBy]
  cases e with
  | constant x span => exact .const (Series.formed_scalar x)
  | identifier name span => exact passes_identifier hscope hagain
  | call name args span => exact passes_call hscope he hagain
  | vector items span =>
    simp only [isFormed, Bool.and_eq_true, decide_eq_true_eq] at hnode
    rw [stepBy_vector, meaningBy_vector]
    exact .vector hpart (by omega) hnode.1.2
  | array items span =>
    rw [stepBy_array, meaningBy_array]
    exact .arrayLiteral _ hpart
  | comprehension body binder source span =>
    refine Comprehension.Passes.meaning ⟨rfl, ?_, helement (by simp [boundParts]), rfl⟩
    exact hpart source (by simp [openParts])
  | filtered body binder source condition span =>
    refine Comprehension.Passes.filtered ⟨rfl, ?_, helement (by simp [boundParts]), rfl⟩
      (helement (by simp [boundParts]))
    exact hpart source (by simp [openParts])
  | unary op operand span => exact .unary op (hpart operand (by simp [openParts, children]))
  | binary op left right span =>
    exact .binary op (hpart left (by simp [openParts, children]))
      (hpart right (by simp [openParts, children]))
  | range lower upper span =>
    exact .range _ (hpart lower (by simp [openParts, children]))
      (hpart upper (by simp [openParts, children]))
  | index target position span =>
    exact .index (hpart target (by simp [openParts, children]))
      (hpart position (by simp [openParts, children]))
  | swizzle target components span =>
    simp only [isFormed, isSwizzle, Bool.and_eq_true, decide_eq_true_eq] at hnode
    exact .swizzle (by omega) hnode.2.1.2 (hpart target (by simp [openParts, children]))
  | conditional consequent condition alternative span =>
    exact .conditional (hpart consequent (by simp [openParts, children]))
      (hpart condition (by simp [openParts, children]))
      (hpart alternative (by simp [openParts, children]))

/-- Below the bound on nesting no check fails. -/
theorem passes_of_nesting_lt (hw : w.declarations.WellFormed) {depth : Nat}
    (hdepth : nesting w ctx e < depth) (hscope : ctx.scope.Formed) (he : e.wellFormed) :
    (checkedWithin w depth ctx e).Passes (e.meaning w ctx) := by
  -- by the depth: a step lowers the bound, so it leads to something that the rest of it covers
  induction depth generalizing ctx e with
  | zero => omega
  | succ depth ih =>
    rw [checkedWithin, if_pos hscope]
    refine Meaning.Passes.watched (passes_stepBy hscope he fun hleads hscope' => ?_)
    have hlower := nesting_lt_of_leads hleads
    exact ih (by omega) hscope' (hleads.wellFormed hw hscope he)

/-- The numbers among the time and the scale that are not zero. -/
def nonzero : Expr :=
  .filtered (.identifier "x" .none) "x"
    (.array [.identifier "time" .none, .identifier "scale" .none] .none) (.identifier "x" .none)
    .none

-- one number is left; asked for three elements, the pair of it with itself answers with three
example : ((((vector [nonzero, nonzero] .none).checkedWithin Session.empty.setting 4 .root).values
    (.at [0, 1, -1])).run.run ⟨.empty, 0, 0⟩).map (fun r => r.1.toOption.map Series.shape) =
      some (some ⟨3, 2⟩) := by
  decide +kernel

-- a tree that is not well formed is stopped
example : ((((vector (.replicate 5 nonzero) .none).checkedWithin Session.empty.setting 4
    .root).values .all).run.run ⟨.empty, 0, 0⟩).isNone := by
  decide +kernel

/-- Evaluation remembers formed series, also when the expression that was asked for is not well
formed: values are remembered of declared variables only. -/
theorem carries_formedCache (hw : w.declarations.WellFormed) :
    (Simulation.withMemory Checked.FormedCache (.failsOnly fun _ => True)).Carries w
      fun _ _ => True where
  step _ _ := trivial
  site _ _ _ := trivial
  reopen _ _ _ _ := trivial
  remember {ctx name _ _ _ body} _ _ hfind hkind _ hbody := by
    refine hbody.ofVariable fun selection μ hμ => ?_
    have hformed : body.wellFormed := hw.body hfind (by simp [Statement.body?, hkind])
    have hpasses : (checkedWithin w (nesting w (ctx.inVariable name) body + 1)
        (ctx.inVariable name) body).Passes (body.meaning w (ctx.inVariable name)) :=
      passes_of_nesting_lt hw (Nat.lt_succ_self _) trivial hformed
    have hdelayed : (Meaning.delay fun _ => checkedWithin w
        (nesting w (ctx.inVariable name) body + 1) (ctx.inVariable name) body).Passes
        (.delay fun _ => body.meaning w (ctx.inVariable name)) := .delay hpasses
    exact ((hdelayed.ofVariable name).values selection μ hμ).2.1
  recalled _ _ hdeclared := hdeclared.recalledOr fun _ _ _ _ => ⟨.ok _, fun _ => .ok _⟩

end Expr

/-! ### Along runs -/

theorem Checked.FormedCache.foldl_erase {cache : NameTable Series} (h : FormedCache cache)
    (names : List String) : FormedCache (names.foldl NameTable.erase cache) := by
  intro x v hx
  rw [NameTable.find?_foldl_erase] at hx
  split_ifs at hx
  exact h x v hx

namespace Session

variable {s : Session}

/-- Declared bodies are well formed, and remembered series are formed. -/
structure Formed (s : Session) : Prop where
  declarations : s.declarations.WellFormed
  cache : Checked.FormedCache s.memory.cache

theorem Formed.update (h : s.Formed) (hindexed : s.Indexed) {st : Statement}
    (hst : st.wellFormed) : (s.update st).2.Formed := by
  rcases hindexed.update_cases st with ⟨e, hupdate, -⟩ | ⟨-, hupdate⟩ | ⟨name, -, hupdate⟩ <;>
    rw [hupdate]
  · exact h
  · exact ⟨h.declarations, h.cache⟩
  · exact ⟨h.declarations.insert name hst, h.cache.foldl_erase _⟩

/-- One step of a run. -/
theorem Formed.perform (h : s.Formed) (hindexed : s.Indexed) (op : Operation)
    (hdefine : ∀ st, op = .define st → st.wellFormed) : (s.perform op).Formed := by
  cases op with
  | define st => exact h.update hindexed (hdefine st rfl)
  | setLimits | setAnimation => exact ⟨h.declarations, Checked.formedCache_empty⟩
  | setTime | advanceTime | setPosition | setScale | setRotation | invalidate =>
    exact ⟨h.declarations, h.cache.foldl_erase _⟩
  | values e selection =>
    have hcarries := Expr.carries_formedCache (w := s.setting) h.declarations
    exact ⟨h.declarations, ((hcarries.matches .root e trivial).values selection s.memory h.cache).1⟩
  | shape e =>
    have hcarries := Expr.carries_formedCache (w := s.setting) h.declarations
    exact ⟨h.declarations, ((hcarries.matches .root e trivial).shape s.memory h.cache).1⟩

theorem formed_load (source : String) : (load source).1.Formed where
  declarations _ _ hfind :=
    Statement.wellFormed_of_mem_parseScript (mem_parseScript_of_find? hfind)
  cache := by
    rw [memory_load]
    exact Checked.formedCache_empty

theorem Reachable.formed {p : Statement → Prop} (h : s.Reachable p) : s.Formed := by
  induction h with
  | load => exact formed_load _
  | perform h op hdefine ih => exact ih.perform h.indexed op fun st hst => (hdefine st hst).1

/-- Evaluation stays within bounds along every run.  Remembered series are formed.  A request for an
expression that was read from a text (see `wellFormed_of_readExpr`) is answered with checks as it is
without them: no check fails, neither of a place that is read nor of a series that comes up.  An
answer has one to four components, and one element for each that was asked for. -/
theorem evaluation_within_bounds (h : s.Reachable fun _ => True) :
    Checked.FormedCache s.memory.cache ∧
    ∀ e : Expr, e.wellFormed → ∃ enough, ∀ depth, enough ≤ depth →
      let checked := e.checkedWithin s.setting depth .root
      (checked.shape.run.run s.memory = some ((s.meaning e).shape.run.run s.memory) ∧
        ∀ t, (s.exprShape e).1 = .ok t → t.Formed) ∧
      ∀ selection,
        (checked.values selection).run.run s.memory =
          some (((s.meaning e).values selection).run.run s.memory) ∧
        ∀ v, (s.evaluateExpr e selection).1 = .ok v → v.Answers selection := by
  refine ⟨h.formed.cache, fun e he => ⟨e.nesting s.setting .root + 1, fun depth hdepth => ?_⟩⟩
  have hpasses : (e.checkedWithin s.setting depth .root).Passes (s.meaning e) :=
    Expr.passes_of_nesting_lt h.formed.declarations hdepth trivial he
  obtain ⟨hshape, -, hformed⟩ := hpasses.shape s.memory h.formed.cache
  refine ⟨⟨hshape, hformed⟩, fun selection => ?_⟩
  obtain ⟨hvalues, -, hanswers⟩ := hpasses.values selection s.memory h.formed.cache
  exact ⟨hvalues, hanswers⟩

/-- A condition leaves some numbers out, maybe all of them, and pairs are made of the others. -/
def sieveSource : String := "kept = [x for x = [time, scale] when x]; pairs = (kept, kept)"

/-- The session in which the pairs were asked for at another time. -/
def sieve : Session :=
  ((load sieveSource).1.perform (.values (reference "pairs") .all)).perform (.setTime 5)

theorem sieve_reachable : sieve.Reachable fun _ => True :=
  .perform (.perform (.load fun _ _ => trivial) (.values (reference "pairs") .all) nofun)
    (.setTime 5) nofun

theorem sieve_within_bounds :
    sieve.Reachable (fun _ => True) ∧ Checked.FormedCache sieve.memory.cache ∧
      ∃ enough, ∀ depth, enough ≤ depth →
        ((((reference "pairs").checkedWithin sieve.setting depth .root).values
          (.at [1, 0, -1])).run.run sieve.memory).map Prod.fst =
            some (sieve.evaluate "pairs" (.at [1, 0, -1])).1 ∧
        ∀ v, (sieve.evaluate "pairs" (.at [1, 0, -1])).1 = .ok v → v.Formed ∧ v.length = 3 := by
  obtain ⟨hcache, hrequests⟩ := evaluation_within_bounds sieve_reachable
  obtain ⟨enough, hdepth⟩ := hrequests (reference "pairs") rfl
  refine ⟨sieve_reachable, hcache, enough, fun depth hd => ?_⟩
  obtain ⟨hrun, hanswers⟩ := (hdepth depth hd).2 (.at [1, 0, -1])
  refine ⟨?_, hanswers⟩
  rw [hrun]
  rfl

end Session

end VectorScript
