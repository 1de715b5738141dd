import VectorScript.Proofs.SimulationMemory

/-!
# Sites of errors

An error names a statement and a span.  The statement changes when evaluation enters the body of a
variable or of a function, and changes back in the middle of a body when an argument is read that
waits for evaluation.  At every step the expression that is evaluated is a node of the statement
that is named, or of the expression that was asked for if none is named; and so is every argument
that waits in the scope.

* `Declarations.Holds`: an expression is a node of what a site names.
* `Expr.Placed`: an expression and the arguments of its scope are nodes of what their sites name.
* `Session.errors_located`: errors of requests point to such nodes.
-/

namespace VectorScript

/-- The expression `e` is a node of the body that is declared as `owner`, or of `request` where no
owner is named. -/
def Declarations.Holds (ds : Declarations) (request : Expr) (owner : Option String) (e : Expr) :
    Prop :=
  match owner with
  | some name => ∃ st body, ds.find? name = some st ∧ st.body? = some body ∧ e ∈ body.nodes
  | none => e ∈ request.nodes

/-- Every argument that waits in a scope is a node of what its owner names. -/
def Scope.Placed (ds : Declarations) (request : Expr) : Scope → Prop
  | .root => True
  | .bind _ _ rest => rest.Placed ds request
  | .defer _ arg outer owner rest =>
    ds.Holds request owner arg ∧ outer.Placed ds request ∧ rest.Placed ds request

section

variable {ds : Declarations} {request : Expr}

theorem Declarations.Holds.child {owner : Option String} {e c : Expr}
    (h : ds.Holds request owner e) (hc : c ∈ e.children) : ds.Holds request owner c := by
  cases owner with
  | none => exact Expr.mem_nodes_of_mem_children h hc
  | some name =>
    obtain ⟨st, body, hfind, hbody, he⟩ := h
    exact ⟨st, body, hfind, hbody, Expr.mem_nodes_of_mem_children he hc⟩

theorem Declarations.holds_body {name : String} {st : Statement} {body : Expr}
    (hfind : ds.find? name = some st) (hbody : st.body? = some body) :
    ds.Holds request (some name) body :=
  ⟨st, body, hfind, hbody, Expr.self_mem_nodes body⟩

namespace Scope

theorem Placed.rest (name : String) (rest : Scope) (b : Binding)
    (h : (push name rest b).Placed ds request) : rest.Placed ds request := by
  cases b with
  | value v => exact h
  | deferred arg outer owner => exact h.2.2

theorem Placed.of_deferred {s outer : Scope} {name : String} {arg : Expr} {owner : Option String}
    (h : s.Placed ds request) (hfind : s.find? name = some (.deferred arg outer owner)) :
    ds.Holds request owner arg ∧ outer.Placed ds request := by
  obtain ⟨_, harg, houter, -⟩ := exists_push_of_find? Placed.rest h hfind
  exact ⟨harg, houter⟩

theorem placed_ofValues {params : List String} {values : List Series} {s : Scope}
    (h : s.Placed ds request) : (ofValues params values s).Placed ds request :=
  ofValues_induction (fun _ _ _ _ hrest => hrest) h

theorem placed_ofArgs {outer : Scope} {owner : Option String} {params : List String}
    {args : List Expr} {s : Scope} (houter : outer.Placed ds request)
    (hargs : ∀ arg ∈ args, ds.Holds request owner arg) (h : s.Placed ds request) :
    (ofArgs outer owner params args s).Placed ds request :=
  ofArgs_induction (fun _ arg _ hmem hrest => ⟨hargs arg (List.of_mem_zip hmem).2, houter, hrest⟩) h

end Scope

end

namespace Expr

/-- An expression in a context is a node of what its sites name, and so is every argument that waits
in its scope. -/
structure Placed (ds : Declarations) (ctx : Context) (e request : Expr) : Prop where
  node : ds.Holds request ctx.owner e
  scope : ctx.scope.Placed ds request

/-- Steps of evaluation lead to nodes of what their sites name. -/
theorem Placed.of_leads {w : Setting} {request : Expr} {ctx ctx' : Context} {e e' : Expr}
    (h : e.Placed w.declarations ctx request) (hleads : Leads w ctx e ctx' e') :
    e'.Placed w.declarations ctx' request := by
  cases hleads with
  | part hc => exact ⟨h.node.child (mem_children_of_mem_openParts hc), h.scope⟩
  | element hc v => exact ⟨h.node.child (mem_children_of_mem_boundParts hc), h.scope⟩
  | deferred hbound =>
    obtain ⟨harg, houter⟩ := h.scope.of_deferred hbound
    exact ⟨harg, houter⟩
  | @reference _ _ _ st _ _ hfind hkind _ =>
    have hbody : st.body? = some e' := by simp [Statement.body?, hkind]
    exact ⟨Declarations.holds_body hfind hbody, trivial⟩
  | @applied _ _ _ _ st _ _ _ _ hfind hkind _ _ _ =>
    have hbody : st.body? = some e' := by simp [Statement.body?, hkind]
    exact ⟨Declarations.holds_body hfind hbody, Scope.placed_ofValues (s := .root) trivial⟩
  | @called _ _ args _ st _ _ _ hfind hkind _ _ =>
    have hbody : st.body? = some e' := by simp [Statement.body?, hkind]
    have hargs : ∀ arg ∈ args, w.declarations.Holds request ctx.owner arg := fun arg harg =>
      h.node.child harg
    exact ⟨Declarations.holds_body hfind hbody,
      Scope.placed_ofArgs (s := .root) h.scope hargs trivial⟩

end Expr

/-- A site points to a node of what it names. -/
def Declarations.Locates (ds : Declarations) (request : Expr) (site : Site) : Prop :=
  ∃ node, ds.Holds request site.statement node ∧ node.span = site.span

/-- Whatever is remembered, errors are raised at the sites of nodes. -/
theorem Expr.carries_locates (w : Setting) (request : Expr) :
    (Simulation.withMemory (fun _ => True)
      (.failsOnly fun err => w.declarations.Locates request err.site)).Carries w
      fun ctx e => e.Placed w.declarations ctx request where
  step he hleads := he.of_leads hleads
  site he _ _ := ⟨_, he.node, rfl⟩
  reopen he _ _ _ := ⟨_, he.node, rfl⟩
  remember _ _ _ _ _ hbody := hbody.ofVariable_of_insert fun _ _ _ _ => trivial
  recalled _ _ hdeclared := hdeclared.recalledOr fun _ _ _ _ => ⟨.ok _, fun _ => .ok _⟩

namespace Session

/-- The span lies in the body of a declared statement if the site names one; if not, it fulfils
`otherwise`. -/
def PointsInto (s : Session) (otherwise : Span → Prop) (site : Site) : Prop :=
  match site.statement with
  | some name => ∃ st body, s.declarations.find? name = some st ∧ st.body? = some body ∧
      ∃ node ∈ body.nodes, node.span = site.span
  | none => otherwise site.span

/-- The span of a node of an expression. -/
def SpanOf (e : Expr) (span : Span) : Prop := ∃ node ∈ e.nodes, node.span = span

variable {s : Session} {e : Expr}

theorem matches_locates (s : Session) (e : Expr) :
    (Simulation.withMemory (fun _ => True)
      (.failsOnly fun err => s.declarations.Locates e err.site)).Matches (s.meaning e)
      (e.meaning s.setting .root) :=
  (Expr.carries_locates s.setting e).matches .root e ⟨Expr.self_mem_nodes e, trivial⟩

theorem pointsInto_of_locates {site : Site} (h : s.declarations.Locates e site) :
    s.PointsInto (SpanOf e) site := by
  obtain ⟨node, hholds, hspan⟩ := h
  unfold PointsInto
  unfold Declarations.Holds at hholds
  split at hholds
  · obtain ⟨st, body, hfind, hbody, hnode⟩ := hholds
    exact ⟨st, body, hfind, hbody, node, hnode, hspan⟩
  · exact ⟨node, hholds, hspan⟩

theorem PointsInto.mono {p q : Span → Prop} {site : Site} (h : s.PointsInto p site)
    (hpq : ∀ span, p span → q span) : s.PointsInto q site := by
  unfold PointsInto at h ⊢
  split at h
  · exact h
  · exact hpq _ h

/-- A name on its own has one node, which has no span. -/
theorem eq_none_of_spanOf_reference {name : String} {span : Span}
    (h : SpanOf (reference name) span) : span = .none := by
  obtain ⟨node, hnode, rfl⟩ := h
  obtain rfl : node = reference name := List.mem_singleton.mp hnode
  rfl

/-- Every error of a request names a declared statement and the span of a node of its body, or no
statement and a span of the expression that was asked for.  A name that was asked for has no span.
This holds for requests of every kind, whatever is remembered and whatever the limits are. -/
theorem errors_located (s : Session) :
    (∀ e selection, FailsOnly (fun err => s.PointsInto (SpanOf e) err.site)
      (s.evaluateExpr e selection).1) ∧
    (∀ e, FailsOnly (fun err => s.PointsInto (SpanOf e) err.site) (s.exprShape e).1) ∧
    (∀ name selection, FailsOnly (fun err => s.PointsInto (· = .none) err.site)
      (s.evaluate name selection).1) ∧
    (∀ name, FailsOnly (fun err => s.PointsInto (· = .none) err.site) (s.shape name).1) ∧
    (∀ index selection r, s.evaluateRender index selection = some r →
      ∃ st body, s.renders[index]? = some st ∧ st.body? = some body ∧
        FailsOnly (fun err => s.PointsInto (SpanOf body) err.site) r.1) ∧
    ∀ source err, (s.evaluateSource source).1 = .error (.evaluation err) →
      ∃ e, readExpr source = .ok e ∧ s.PointsInto (SpanOf e) err.site := by
  have hvalues : ∀ e selection, FailsOnly (fun err => s.PointsInto (SpanOf e) err.site)
      (s.evaluateExpr e selection).1 := fun e selection =>
    ((matches_locates s e).values selection s.memory trivial).2.mono fun _ => pointsInto_of_locates
  have hshape : ∀ e, FailsOnly (fun err => s.PointsInto (SpanOf e) err.site)
      (s.exprShape e).1 := fun e =>
    ((matches_locates s e).shape s.memory trivial).2.mono fun _ => pointsInto_of_locates
  refine ⟨hvalues, hshape, ?_, ?_, ?_, ?_⟩
  · intro name selection
    exact (hvalues _ selection).mono fun _ herr => herr.mono fun _ => eq_none_of_spanOf_reference
  · intro name
    exact (hshape _).mono fun _ herr => herr.mono fun _ => eq_none_of_spanOf_reference
  · intro index selection r hr
    obtain ⟨st, hst, hr⟩ := Option.bind_eq_some_iff.mp hr
    obtain ⟨body, hbody, hr⟩ := Option.bind_eq_some_iff.mp hr
    cases hr
    exact ⟨st, body, hst, hbody, hvalues body selection⟩
  · intro source err herr
    cases hread : readExpr source with
    | error e =>
      simp only [evaluateSource, hread] at herr
      cases herr
    | ok e =>
      refine ⟨e, rfl, hvalues e .all err ?_⟩
      simp only [evaluateSource, hread] at herr
      cases hanswer : (s.evaluateExpr e .all).1 with
      | ok v =>
        rw [hanswer] at herr
        cases herr
      | error err' =>
        rw [hanswer] at herr
        cases herr
        rfl

-- an argument is evaluated in the body of the function, but it stands in the caller
set_option maxRecDepth 4000 in
example : ((load "f(p) = -p; a = f(b)").1.shape "a").1 =
    .error ⟨.undefinedIdentifier "b", some "a", ⟨4, 5⟩⟩ := by
  cbv

end Session

end VectorScript
