import VectorScript.Evaluation
import VectorScript.Proofs.FreeNames

/-!
# Linked scopes

Two evaluations of one expression need not stand in the same scope.  Where one of them has bound a
parameter to a value, the other may have bound it to an argument that waits for evaluation and will
have that value.

* `Scope.Terms`: what may be bound, and which values stand for waiting arguments.
* `Scope.Linked`: two scopes that bind the same names on such terms.
* `Context.Linked`: two contexts with such scopes.
-/

namespace VectorScript

namespace Scope

/-- On which terms two scopes are linked. -/
structure Terms where
  /-- The values that may be bound. -/
  Value : Series → Prop
  /-- The arguments that may wait for evaluation. -/
  Arg : Expr → Prop
  /-- A value stands for an argument that waits in a scope, within a statement. -/
  Stands : Series → Expr → Scope → Option String → Prop

/-- Both scopes bind the same names: to the same values, to the same arguments in linked scopes, or
the first one to a value that stands for the argument of the second one. -/
inductive Linked (T : Terms) : Scope → Scope → Prop
  | root : Linked T root root
  | value {s t : Scope} {name : String} {v : Series} (hv : T.Value v) (h : Linked T s t) :
    Linked T (bind name v s) (bind name v t)
  | deferred {s t outer outer' : Scope} {name : String} {arg : Expr} {owner : Option String}
    (harg : T.Arg arg) (houter : Linked T outer outer') (h : Linked T s t) :
    Linked T (defer name arg outer owner s) (defer name arg outer' owner t)
  | evaluated {s t outer : Scope} {name : String} {v : Series} {arg : Expr} {owner : Option String}
    (hv : T.Stands v arg outer owner) (h : Linked T s t) :
    Linked T (bind name v s) (defer name arg outer owner t)

variable {T : Terms} {s t : Scope}

theorem Linked.names (h : Linked T s t) : s.names = t.names := by
  induction h with
  | root => rfl
  | value _ _ ih => rw [Scope.names, Scope.names, ih]
  | deferred _ _ _ _ ih => rw [Scope.names, Scope.names, ih]
  | evaluated _ _ ih => rw [Scope.names, Scope.names, ih]

theorem Linked.find?_none (h : Linked T s t) {x : String} (hx : s.find? x = none) :
    t.find? x = none := by
  rw [find?_eq_none] at hx ⊢
  rwa [← h.names]

theorem Linked.find?_ne_none (h : Linked T s t) {x : String} (hx : s.find? x ≠ none) :
    t.find? x ≠ none := by
  rw [ne_eq, find?_eq_none] at hx ⊢
  rwa [← h.names]

theorem Linked.not_contains (h : Linked T s t) {x : String} (hx : ¬ s.contains x) :
    ¬ t.contains x := by
  rw [contains_iff] at hx ⊢
  rwa [← h.names]

/-- What a name is bound to in two linked scopes. -/
inductive LinkedBinding (T : Terms) : Binding → Binding → Prop
  | value {v : Series} (hv : T.Value v) : LinkedBinding T (.value v) (.value v)
  | deferred {arg : Expr} {outer outer' : Scope} {owner : Option String} (harg : T.Arg arg)
    (houter : Linked T outer outer') :
    LinkedBinding T (.deferred arg outer owner) (.deferred arg outer' owner)
  | evaluated {v : Series} {arg : Expr} {outer : Scope} {owner : Option String}
    (hv : T.Stands v arg outer owner) : LinkedBinding T (.value v) (.deferred arg outer owner)

theorem Linked.find?_some (h : Linked T s t) {x : String} {b : Binding}
    (hx : s.find? x = some b) : ∃ b', t.find? x = some b' ∧ LinkedBinding T b b' := by
  induction h with
  | root => cases hx
  | @value s t name v hv _ ih =>
    simp only [find?] at hx ⊢
    by_cases hname : name = x
    · rw [if_pos hname] at hx ⊢
      cases hx
      exact ⟨_, rfl, .value hv⟩
    · rw [if_neg hname] at hx ⊢
      exact ih hx
  | @deferred s t outer outer' name arg owner harg houter _ _ ih =>
    simp only [find?] at hx ⊢
    by_cases hname : name = x
    · rw [if_pos hname] at hx ⊢
      cases hx
      exact ⟨_, rfl, .deferred harg houter⟩
    · rw [if_neg hname] at hx ⊢
      exact ih hx
  | @evaluated s t outer name v arg owner hv _ ih =>
    simp only [find?] at hx ⊢
    by_cases hname : name = x
    · rw [if_pos hname] at hx ⊢
      cases hx
      exact ⟨_, rfl, .evaluated hv⟩
    · rw [if_neg hname] at hx ⊢
      exact ih hx

/-! ### Parameters -/

theorem Linked.ofValues : ∀ (params : List String) {values : List Series} {s t : Scope},
    (∀ v ∈ values, T.Value v) → Linked T s t →
    Linked T (ofValues params values s) (ofValues params values t)
  | [], _, _, _, _, h => h
  | _ :: _, [], _, _, _, h => h
  | _ :: params, v :: _, _, _, hvalues, h =>
    Linked.ofValues params (fun u hu => hvalues u (List.mem_cons_of_mem _ hu))
      (.value (hvalues v List.mem_cons_self) h)

theorem Linked.ofArgs {outer outer' : Scope} {owner : Option String}
    (houter : Linked T outer outer') :
    ∀ (params : List String) {args : List Expr} {s t : Scope}, (∀ arg ∈ args, T.Arg arg) →
      Linked T s t → Linked T (ofArgs outer owner params args s) (ofArgs outer' owner params args t)
  | [], _, _, _, _, h => h
  | _ :: _, [], _, _, _, h => h
  | _ :: params, arg :: _, _, _, hargs, h =>
    Linked.ofArgs houter params (fun a ha => hargs a (List.mem_cons_of_mem _ ha))
      (.deferred (hargs arg List.mem_cons_self) houter h)

/-- Values of arguments stand for the arguments. -/
theorem Linked.ofEvaluated {outer : Scope} {owner : Option String} {v : Expr → Series} :
    ∀ (params : List String) {args : List Expr} {s t : Scope},
      (∀ arg ∈ args, T.Stands (v arg) arg outer owner) → Linked T s t →
      Linked T (Scope.ofValues params (args.map v) s) (Scope.ofArgs outer owner params args t)
  | [], _, _, _, _, h => h
  | _ :: _, [], _, _, _, h => h
  | _ :: params, arg :: _, _, _, hargs, h =>
    Linked.ofEvaluated params (fun a ha => hargs a (List.mem_cons_of_mem _ ha))
      (.evaluated (hargs arg List.mem_cons_self) h)

end Scope

/-- Two contexts in one statement, with linked scopes. -/
structure Context.Linked (T : Scope.Terms) (ctx ctx' : Context) : Prop where
  owner : ctx'.owner = ctx.owner
  scope : Scope.Linked T ctx.scope ctx'.scope

theorem Context.Linked.site {T : Scope.Terms} {ctx ctx' : Context} (h : ctx.Linked T ctx')
    (span : Span) : ctx'.site span = ctx.site span := by
  rw [Context.site, Context.site, h.owner]

end VectorScript
