import VectorScript.Proofs.EvaluationCases
import VectorScript.Proofs.FreeNames

/-!
# Steps of evaluation

Where evaluation may go from an expression in a context: into its parts, into an argument that
waits for evaluation, into the body of a variable that is not open, or into the body of a function.
Every step lowers the bound on nesting, so what one step keeps, a whole evaluation keeps.

* `Expr.Leads`: one step of evaluation.
* `Expr.nesting_lt_of_leads`: every step lowers the bound on nesting.
* `Expr.induction_on_steps`: induction along the steps of evaluation.
* `Expr.ReadsWithin.of_leads`: steps keep within the names that may be read.
* `Declarations.OpenTo`: all open variables lead to a name.
-/

namespace VectorScript

namespace Expr

/-- The parts that are evaluated in the scope of the expression. -/
def openParts : Expr → List Expr
  | comprehension _ _ source _ | filtered _ _ source _ _ => [source]
  | e => e.children

/-- The parts that are evaluated once for each element, with the name that the element has. -/
def boundParts : Expr → List (String × Expr)
  | comprehension body binder _ _ => [(binder, body)]
  | filtered body binder _ condition _ => [(binder, body), (binder, condition)]
  | _ => []

theorem mem_children_of_mem_openParts {e c : Expr} (h : c ∈ e.openParts) : c ∈ e.children := by
  cases e with
  | comprehension | filtered =>
    simp only [openParts, List.mem_singleton] at h
    simp [children, h]
  | _ => exact h

theorem mem_children_of_mem_boundParts {e c : Expr} {binder : String}
    (h : (binder, c) ∈ e.boundParts) : c ∈ e.children := by
  cases e with
  | comprehension body binder' source span =>
    simp only [boundParts, List.mem_singleton, Prod.mk.injEq] at h
    simp [children, h.2]
  | filtered body binder' source condition span =>
    simp only [boundParts, List.mem_cons, Prod.mk.injEq, List.not_mem_nil, or_false] at h
    rcases h with ⟨-, rfl⟩ | ⟨-, rfl⟩ <;> simp [children]
  | _ => cases h

/-- Evaluation of an expression in a context may evaluate another expression in another context. -/
inductive Leads (w : Setting) : Context → Expr → Context → Expr → Prop
  | part {ctx : Context} {e c : Expr} (h : c ∈ e.openParts) : Leads w ctx e ctx c
  | element {ctx : Context} {e c : Expr} {binder : String} (h : (binder, c) ∈ e.boundParts)
    (v : Series) : Leads w ctx e (ctx.bind binder v) c
  | deferred {ctx : Context} {name : String} {span : Span} {arg : Expr} {outer : Scope}
    {owner : Option String} (h : ctx.scope.find? name = some (.deferred arg outer owner)) :
    Leads w ctx (identifier name span) (ctx.resume outer owner) arg
  | reference {ctx : Context} {name key : String} {span : Span} {st : Statement} {body : Expr}
    (hfree : ctx.scope.find? name = none) (hfind : w.declarations.find? name = some st)
    (hkind : st.kind = .variable key body) (hopen : name ∉ ctx.opened) :
    Leads w ctx (identifier name span) (ctx.inVariable name) body
  /-- All values of a call are asked of its body with the values of the arguments. -/
  | applied {ctx : Context} {name key : String} {args : List Expr} {span : Span} {st : Statement}
    {params : List String} {body : Expr} {values : List Series}
    (hfree : ¬ ctx.scope.contains name) (hfind : w.declarations.find? name = some st)
    (hkind : st.kind = .function key params body) (hcount : params.length = args.length)
    (hdepth : ctx.depth < w.limits.maxCallDepth) (hvalues : values.length = args.length) :
    Leads w ctx (call name args span) (ctx.inFunction name (.ofValues params values .root)) body
  /-- Other requests are asked of the body with the arguments themselves. -/
  | called {ctx : Context} {name key : String} {args : List Expr} {span : Span} {st : Statement}
    {params : List String} {body : Expr}
    (hfree : ¬ ctx.scope.contains name) (hfind : w.declarations.find? name = some st)
    (hkind : st.kind = .function key params body) (hcount : params.length = args.length)
    (hdepth : ctx.depth < w.limits.maxCallDepth) :
    Leads w ctx (call name args span)
      (ctx.inFunction name (.ofArgs ctx.scope ctx.owner params args .root)) body

/-- Every step of evaluation lowers the bound on nesting. -/
theorem nesting_lt_of_leads {w : Setting} {ctx ctx' : Context} {e e' : Expr}
    (h : Leads w ctx e ctx' e') : nesting w ctx' e' < nesting w ctx e := by
  cases h with
  | part hc => exact nesting_child (mem_children_of_mem_openParts hc)
  | element hc v => exact nesting_element _ v (mem_children_of_mem_boundParts hc)
  | deferred hbound => exact nesting_deferred hbound
  | reference _ hfind hkind hopen => exact nesting_reference hfind hkind hopen
  | applied _ hfind hkind _ hdepth _ => exact nesting_applied _ hfind hkind hdepth
  | called _ hfind hkind _ hdepth => exact nesting_called hfind hkind hdepth

/-- Induction along the steps of evaluation. -/
theorem induction_on_steps (w : Setting) {motive : Context → Expr → Prop}
    (h : ∀ ctx e, (∀ ctx' e', Leads w ctx e ctx' e' → motive ctx' e') → motive ctx e)
    (ctx : Context) (e : Expr) : motive ctx e :=
  h ctx e fun ctx' e' hleads =>
    have := nesting_lt_of_leads hleads
    induction_on_steps w h ctx' e'
termination_by nesting w ctx e

/-! ### Reading -/

section

variable {ds : Declarations} {R : String → Prop} {s : Scope} {e c : Expr}

theorem ReadsWithin.part (h : e.ReadsWithin ds R s) (hc : c ∈ e.openParts) :
    c.ReadsWithin ds R s := by
  cases e with
  | constant | identifier => cases hc
  | vector items span => exact h.vectorItem c hc
  | array items span => exact h.arrayItem c hc
  | call name args span => exact h.arg c hc
  | comprehension body binder source span =>
    obtain rfl : c = source := List.mem_singleton.mp hc
    exact h.source
  | filtered body binder source condition span =>
    obtain rfl : c = source := List.mem_singleton.mp hc
    exact h.filteredParts.1
  | unary op operand span =>
    obtain rfl : c = operand := List.mem_singleton.mp hc
    exact h.operand
  | swizzle target components span =>
    obtain rfl : c = target := List.mem_singleton.mp hc
    exact h.target
  | binary op left right span =>
    simp only [openParts, children, List.mem_cons, List.not_mem_nil, or_false] at hc
    rcases hc with rfl | rfl
    · exact h.binaryParts.1
    · exact h.binaryParts.2
  | range lower upper span =>
    simp only [openParts, children, List.mem_cons, List.not_mem_nil, or_false] at hc
    rcases hc with rfl | rfl
    · exact h.rangeParts.1
    · exact h.rangeParts.2
  | index target position span =>
    simp only [openParts, children, List.mem_cons, List.not_mem_nil, or_false] at hc
    rcases hc with rfl | rfl
    · exact h.indexParts.1
    · exact h.indexParts.2
  | conditional consequent condition alternative span =>
    simp only [openParts, children, List.mem_cons, List.not_mem_nil, or_false] at hc
    rcases hc with rfl | rfl | rfl
    · exact h.conditionalParts.1
    · exact h.conditionalParts.2.1
    · exact h.conditionalParts.2.2

theorem ReadsWithin.element {binder : String} (h : e.ReadsWithin ds R s)
    (hc : (binder, c) ∈ e.boundParts) (v : Series) : c.ReadsWithin ds R (.bind binder v s) := by
  cases e with
  | comprehension body binder' source span =>
    obtain ⟨rfl, rfl⟩ : binder = binder' ∧ c = body := by simpa [boundParts] using hc
    exact h.body v
  | filtered body binder' source condition span =>
    simp only [boundParts, List.mem_cons, Prod.mk.injEq, List.not_mem_nil, or_false] at hc
    rcases hc with ⟨rfl, rfl⟩ | ⟨rfl, rfl⟩
    · exact (h.filteredParts.2 v).1
    · exact (h.filteredParts.2 v).2
  | _ => cases hc

end

variable {w : Setting} {ctx ctx' : Context} {e e' : Expr}

/-- Steps keep within the names that may be read, if reading a declaration does not leave them.  The
names may depend on the open variables. -/
theorem ReadsWithin.of_leads {Q : List String → String → Prop}
    (hfunction : ∀ {opened x y}, Q opened x → w.declarations.Reads x y → Q opened y)
    (hvariable : ∀ {opened x y}, Q opened x → w.declarations.IsVariable x →
      w.declarations.Reads x y → Q (x :: opened) y)
    (h : Leads w ctx e ctx' e')
    (he : e.ReadsWithin w.declarations (Q ctx.opened) ctx.scope) :
    e'.ReadsWithin w.declarations (Q ctx'.opened) ctx'.scope := by
  cases h with
  | part hc => exact he.part hc
  | element hc v => exact he.element hc v
  | deferred hbound => exact he.2.of_deferred hbound
  | @reference _ _ _ st body hfree hfind hkind hopen =>
    have hvar : st.isVariable := Statement.isVariable_iff.mpr ⟨_, _, hkind⟩
    refine .ofVariable hfind hkind fun y hy => ?_
    exact hvariable (he.name hfree) ⟨st, hfind, hvar⟩ hy
  | @applied name _ args _ st params body values hfree hfind hkind hcount _ hvalues =>
    have hname := he.called hfree (NameTable.contains_iff.mpr ⟨st, hfind⟩)
    have hnames : ∀ x, x ∈ (Scope.ofValues params values .root).names ↔ x ∈ params := by
      intro x
      rw [Scope.mem_names_ofValues (hcount.trans hvalues.symm)]
      simp [Scope.names]
    exact .ofFunction hfind hkind (fun y hy => hfunction hname hy)
      (Scope.readsWithin_ofValues (s := .root) trivial) hnames
  | @called name _ args _ st params body hfree hfind hkind hcount _ =>
    have hname := he.called hfree (NameTable.contains_iff.mpr ⟨st, hfind⟩)
    have hnames : ∀ x, x ∈ (Scope.ofArgs ctx.scope ctx.owner params args .root).names ↔
        x ∈ params := by
      intro x
      rw [Scope.mem_names_ofArgs hcount]
      simp [Scope.names]
    refine .ofFunction hfind hkind (fun y hy => hfunction hname hy) ?_ hnames
    exact Scope.readsWithin_ofArgs (s := .root) he.2 (fun arg harg => (he.arg arg harg).1) trivial

end Expr

/-! ### Open variables -/

namespace Declarations

variable {ds : Declarations} {opened : List String} {x y : String}

/-- All open variables lead to `x`. -/
def OpenTo (ds : Declarations) (opened : List String) (x : String) : Prop :=
  ∀ o ∈ opened, ds.IsVariable o ∧ ds.Reaches o x

theorem openTo_nil : ds.OpenTo [] x := fun _ ho => absurd ho List.not_mem_nil

theorem OpenTo.of_reads (h : ds.OpenTo opened x) (hxy : ds.Reads x y) : ds.OpenTo opened y :=
  fun o ho => ⟨(h o ho).1, (h o ho).2.tail hxy⟩

theorem OpenTo.inVariable (h : ds.OpenTo opened x) (hx : ds.IsVariable x) (hxy : ds.Reads x y) :
    ds.OpenTo (x :: opened) y := by
  intro o ho
  rcases List.mem_cons.mp ho with rfl | ho
  · exact ⟨hx, .single hxy⟩
  · exact h.of_reads hxy o ho

end Declarations

/-- Along every evaluation all open variables lead to everything that may be read. -/
theorem Expr.ReadsWithin.openTo_of_leads {w : Setting} {ctx ctx' : Context} {e e' : Expr}
    (h : Expr.Leads w ctx e ctx' e')
    (he : e.ReadsWithin w.declarations (w.declarations.OpenTo ctx.opened) ctx.scope) :
    e'.ReadsWithin w.declarations (w.declarations.OpenTo ctx'.opened) ctx'.scope :=
  of_leads (fun hx hxy => hx.of_reads hxy) (fun hx hvar hxy => hx.inVariable hvar hxy) h he

/-- If all that may be read depends on no variable that depends on itself, this stays so. -/
theorem Expr.ReadsWithin.acyclic_of_leads {w : Setting} {ctx ctx' : Context} {e e' : Expr}
    (h : Expr.Leads w ctx e ctx' e')
    (he : e.ReadsWithin w.declarations w.declarations.Acyclic ctx.scope) :
    e'.ReadsWithin w.declarations w.declarations.Acyclic ctx'.scope :=
  of_leads (Q := fun _ => w.declarations.Acyclic) (fun hx hxy => hx.of_reads hxy)
    (fun hx _ hxy => hx.of_reads hxy) h he

end VectorScript
