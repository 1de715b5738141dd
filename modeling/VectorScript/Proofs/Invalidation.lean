import VectorScript.Proofs.Redefinition
import VectorScript.Proofs.SessionRuns
import VectorScript.Proofs.SimulationMemory

/-!
# Invalidation

A change of a name makes a session forget the value of the name and of every variable that reaches
it, and nothing else.  A variable from which the search for dependencies met a cycle is not in the
graph, and its value stays; such a variable may have a value, since a conditional evaluates one of
its branches only.

* `Session.Orderly`: order and graph are those of the declarations, and values belong to variables.
* `Operation.changed?`: the name that an operation changes.
* `Session.Forgets`: the names whose values a change takes away.
* `Session.find?_cache_of_change`: exactly these are forgotten.
-/

namespace VectorScript

/-! ### Values belong to variables -/

/-- Nothing is asked of answers. -/
def AnswerRelation.any : AnswerRelation where
  Rel _ _ := True
  may _ := True
  ok _ := trivial
  error _ := trivial
  stop _ := trivial
  go _ _ := trivial

/-- Only variables have remembered values. -/
def Declarations.Keeps (ds : Declarations) (cache : NameTable Series) : Prop :=
  ∀ x v, cache.find? x = some v → ds.IsVariable x

theorem Declarations.keeps_empty (ds : Declarations) : ds.Keeps .empty := by
  intro x v hx
  cases hx

theorem Declarations.Keeps.insert {ds : Declarations} {cache : NameTable Series} {name : String}
    (h : ds.Keeps cache) (hname : ds.IsVariable name) (v : Series) :
    ds.Keeps (cache.insert name v) := by
  intro x u hx
  rw [NameTable.find?_insert] at hx
  split_ifs at hx with heq
  · subst heq
    exact hname
  · exact h x u hx

/-- Whatever is evaluated, only variables have remembered values afterwards. -/
theorem Expr.carries_keeps (w : Setting) :
    (Simulation.withMemory w.declarations.Keeps .any).Carries w fun _ _ => True where
  step _ _ := trivial
  site _ _ _ := trivial
  reopen _ _ _ _ := trivial
  recalled _ _ hdeclared := hdeclared.recalledOr fun _ _ _ _ => ⟨trivial, fun _ => trivial⟩
  remember := by
    intro ctx name span st key body _ _ hfind hkind _ hbody
    have hvar : w.declarations.IsVariable name :=
      ⟨st, hfind, Statement.isVariable_iff.mpr ⟨_, _, hkind⟩⟩
    exact hbody.ofVariable_of_insert fun cache v hcache _ => hcache.insert hvar v

/-! ### Changes -/

/-- The name that an operation changes: that of a declaration, of a constant, or one that is to be
forgotten. -/
def Operation.changed? : Operation → Option String
  | define st => st.name?
  | setTime _ | advanceTime _ => some "time"
  | setPosition _ => some "position"
  | setScale _ => some "scale"
  | setRotation _ => some "rotation"
  | invalidate name => some name
  | setLimits _ | setAnimation _ | values _ _ | shape _ => none

namespace Session

/-- Whether an operation is taken up; only definitions may be refused. -/
def accepts (s : Session) : Operation → Bool
  | .define st => (s.define st).isOk
  | _ => true

/-- In `t` something else may stand under the name `u`, and nothing is forgotten yet. -/
structure ChangedAt (s t : Session) (u : String) : Prop where
  memory : t.memory = s.memory
  indexed : t.Indexed
  find : ∀ x, x ≠ u → t.declarations.find? x = s.declarations.find? x

/-- Order and graph are those of the declarations, and only variables have remembered values. -/
structure Orderly (s : Session) : Prop where
  indexed : s.Indexed
  keeps : s.declarations.Keeps s.memory.cache

variable {s t : Session} {u x : String}

/-- Every operation that changes a name forgets what the new graph notes under the name. -/
theorem Orderly.perform_eq_invalidate (h : s.Orderly) {op : Operation}
    (hchanged : op.changed? = some u) (haccepted : s.accepts op) :
    ∃ t, s.perform op = t.invalidate u ∧ s.ChangedAt t u := by
  cases op with
  | define st =>
    rcases h.indexed.update_cases st with ⟨e, hupdate, -⟩ | ⟨hname, -⟩ | ⟨v, hname, hupdate⟩
    · simp [accepts, define, hupdate, Except.isOk, Except.toBool] at haccepted
    · cases hname.symm.trans hchanged
    · obtain rfl : v = u := Option.some.inj (hname.symm.trans hchanged)
      refine ⟨s.replace v st, by simp only [Session.perform, hupdate], rfl,
        h.indexed.rebuild_insert v st, fun x hx => ?_⟩
      exact (NameTable.find?_insert _ _ _ _).trans (if_neg hx)
  | setTime | advanceTime | setPosition | setScale | setRotation | invalidate =>
    cases hchanged
    exact ⟨_, rfl, rfl, h.indexed, fun _ _ => rfl⟩
  | setLimits | setAnimation | values | shape => cases hchanged

/-! ### Runs -/

theorem ChangedAt.orderly_invalidate (hchange : s.ChangedAt t u) (h : s.Orderly) :
    (t.invalidate u).Orderly := by
  refine ⟨hchange.indexed, fun x v hx => ?_⟩
  by_cases hforget : x = u ∨ DependencyGraph.Notes t.graph.dependents x u
  · rw [find?_invalidate_of_mem hforget] at hx
    cases hx
  · obtain ⟨hne, hnotes⟩ := not_or.mp hforget
    rw [find?_invalidate_of_not_mem hne hnotes, hchange.memory] at hx
    obtain ⟨st, hfind, hvar⟩ := h.keeps x v hx
    exact ⟨st, (hchange.find x hne).trans hfind, hvar⟩

theorem Orderly.values (h : s.Orderly) (e : Expr) (selection : Selection) :
    (s.evaluateExpr e selection).2.Orderly :=
  ⟨h.indexed, (((Expr.carries_keeps s.setting).matches .root e trivial).values selection s.memory
    h.keeps).1⟩

theorem Orderly.shape (h : s.Orderly) (e : Expr) : (s.exprShape e).2.Orderly :=
  ⟨h.indexed, (((Expr.carries_keeps s.setting).matches .root e trivial).shape s.memory h.keeps).1⟩

/-- One step of a run. -/
theorem Orderly.perform (h : s.Orderly) (op : Operation) : (s.perform op).Orderly := by
  have hchange : ∀ {u}, op.changed? = some u → s.accepts op → (s.perform op).Orderly := by
    intro u hchanged haccepted
    obtain ⟨t, heq, hchange⟩ := h.perform_eq_invalidate hchanged haccepted
    rw [heq]
    exact hchange.orderly_invalidate h
  cases op with
  | define st =>
    rcases h.indexed.update_cases st with ⟨e, hupdate, -⟩ | ⟨-, hupdate⟩ | ⟨u, hname, hupdate⟩
    · simpa only [Session.perform, hupdate] using h
    · simpa only [Session.perform, hupdate] using ⟨h.indexed, h.keeps⟩
    · exact hchange hname (by simp [accepts, define, hupdate, Except.isOk, Except.toBool])
  | setLimits | setAnimation => exact ⟨h.indexed, Declarations.keeps_empty _⟩
  | setTime | advanceTime | setPosition | setScale | setRotation | invalidate =>
    exact hchange rfl rfl
  | values e selection => exact h.values e selection
  | shape e => exact h.shape e

/-- The session after a script was loaded and some operations were performed. -/
def afterRun (source : String) (ops : List Operation) : Session :=
  ops.foldl perform (load source).1

/-- What holds after loading and is kept by every operation holds after every run. -/
theorem afterRun_induction {P : Session → Prop} {source : String} (hload : P (load source).1)
    (hperform : ∀ {s : Session}, P s → ∀ op, P (s.perform op)) (ops : List Operation) :
    P (afterRun source ops) := by
  induction ops using List.reverseRecOn with
  | nil => exact hload
  | append_singleton ops op ih =>
    rw [afterRun, List.foldl_append]
    exact hperform ih op

theorem orderly_afterRun (source : String) (ops : List Operation) :
    (afterRun source ops).Orderly := by
  refine afterRun_induction ⟨indexed_load source, ?_⟩ (fun h op => h.perform op) ops
  rw [memory_load]
  exact Declarations.keeps_empty _

/-! ### What is forgotten -/

/-- The names whose values go when `u` has changed: `u`, and the variables that reach `u` and whose
dependencies are known. -/
def Forgets (s : Session) (u x : String) : Prop :=
  x = u ∨ s.declarations.IsVariable x ∧ s.declarations.Reaches x u ∧
    s.graph.dependencies.contains x

/-- After every run, an operation that changes a name and is taken up takes away exactly the values
of that name and of the variables that reach it in the declarations afterwards, as far as their
dependencies are known.  All other values stay. -/
theorem find?_cache_of_change (source : String) (ops : List Operation) (op : Operation)
    (hchanged : op.changed? = some u) (haccepted : (afterRun source ops).accepts op) (x : String) :
    let s := afterRun source ops
    let s' := s.perform op
    (s'.Forgets u x → s'.memory.cache.find? x = none) ∧
      (¬ s'.Forgets u x → s'.memory.cache.find? x = s.memory.cache.find? x) := by
  intro s s'
  have horderly : s.Orderly := orderly_afterRun source ops
  obtain ⟨t, heq, hchange⟩ := horderly.perform_eq_invalidate hchanged haccepted
  have hs' : s' = t.invalidate u := heq
  rw [hs']
  refine ⟨fun hforgets => find?_invalidate_of_mem ?_, fun hkept => ?_⟩
  · exact hforgets.imp_right fun ⟨_, hreaches, hknown⟩ =>
      hchange.indexed.notes_iff.mpr ⟨hreaches, hknown⟩
  · obtain ⟨hne, hreader⟩ := not_or.mp hkept
    by_cases hnotes : DependencyGraph.Notes t.graph.dependents x u
    · -- a function may be noted too, but it had no value
      rw [find?_invalidate_of_mem (.inr hnotes)]
      refine (Option.eq_none_iff_forall_not_mem.mpr fun v hv => hreader ?_).symm
      obtain ⟨st, hfind, hvar⟩ := horderly.keeps x v hv
      exact ⟨⟨st, (hchange.find x hne).trans hfind, hvar⟩, hchange.indexed.notes_iff.mp hnotes⟩
    · rw [find?_invalidate_of_not_mem hne hnotes, hchange.memory]

/-- The session after its frame was drawn. -/
def drawn : Session := afterRun outlineSource [.values (reference "frame") .all]

theorem drawn_rescaled_forgets : (drawn.perform (.setScale 2)).Forgets "scale" "frame" := by
  obtain ⟨ts, us, vs, hparse⟩ := parse_outline
  have hframe : (outline.declarations.find? "frame").any fun st =>
      st.isVariable && decide ("scale" ∈ st.reads outline.declarations) := by
    rw [outline, load, hparse]
    cbv
  simp only [Option.any_eq_true, Bool.and_eq_true, decide_eq_true_eq] at hframe
  obtain ⟨st, hfind, hvar, hreads⟩ := hframe
  refine .inr ⟨⟨st, hfind, hvar⟩, .single ⟨st, hfind, hreads⟩, ?_⟩
  exact outline_dependenciesKnown "frame" (NameTable.contains_iff.mpr ⟨st, hfind⟩)

theorem drawn_rescaled_not_forgets : ¬ (drawn.perform (.setScale 2)).Forgets "scale" "edge" := by
  obtain ⟨ts, us, vs, hparse⟩ := parse_outline
  have hsearch : Dependency.ofDeclaration outline.declarations "edge" = .ok ["rotation"] := by
    rw [outline, load, hparse]
    cbv
  rintro (heq | ⟨-, hreaches, -⟩)
  · simp at heq
  · simpa using (Dependency.mem_ofDeclaration_iff hsearch).mpr hreaches

theorem cache_drawn :
    drawn.memory.cache.contains "frame" ∧ drawn.memory.cache.find? "edge" = some (.scalar 1) := by
  obtain ⟨ts, us, vs, hparse⟩ := parse_outline
  rw [drawn, afterRun, load, hparse]
  constructor <;> cbv

/-- When the scale changes, the frame is forgotten, and the edge is not. -/
theorem cache_of_drawn_rescaled :
    let s := drawn.perform (.setScale 2)
    (drawn.memory.cache.contains "frame" ∧ s.Forgets "scale" "frame" ∧
        s.memory.cache.find? "frame" = none) ∧
      ¬ s.Forgets "scale" "edge" ∧ s.memory.cache.find? "edge" = some (.scalar 1) := by
  intro s
  have hchange := find?_cache_of_change outlineSource [.values (reference "frame") .all]
    (.setScale 2) rfl rfl
  have hframe := (hchange "frame").1 drawn_rescaled_forgets
  have hedge := (hchange "edge").2 drawn_rescaled_not_forgets
  exact ⟨⟨cache_drawn.1, drawn_rescaled_forgets, hframe⟩, drawn_rescaled_not_forgets,
    hedge.trans cache_drawn.2⟩

/-! ### A value that stays -/

/-- A variable that is not remembered is evaluated by its body, and then remembered. -/
theorem run_values_reference {name key : String} {st : Statement} {body : Expr}
    (hfind : s.declarations.find? name = some st) (hkind : st.kind = .variable key body)
    (hnone : s.memory.cache.find? name = none) :
    ((s.meaning (reference name)).values .all).run.run s.memory =
      match ((body.meaning (m := Eval) s.setting (Context.root.inVariable name)).values
        .all).run.run
        { s.memory with statementEvaluations := s.memory.statementEvaluations + 1 } with
      | (.ok v, μ) => (.ok v, { μ with cache := μ.cache.insert name v })
      | (.error e, μ) => (.error e, μ) := by
  rw [Session.meaning, reference, Expr.meaning_free rfl, Meaning.run_values_recalledOr,
    Meaning.recalled, hnone]
  dsimp only
  rw [Expr.declaredBy_variable hfind hkind (by simp [Context.root]),
    Meaning.run_values_ofVariable]
  rfl

/-- A single condition that holds picks the first branch; the second one is not asked. -/
theorem run_values_conditional {site : Site} {a c b : Meaning Eval} {μ : Memory} {v : Series}
    (hshape : c.shape.run.run μ = (.ok .scalar, μ))
    (hvalue : (c.values .all).run.run μ = (.ok v, μ)) (hnan : v.first.isNaN = false)
    (hne : (v.first != 0) = true) (selection : Selection) :
    ((Meaning.conditional site a c b).values selection).run.run μ =
      (a.values selection).run.run μ := by
  show ((c.shape >>= _ : Eval (Meaning Eval)) >>= _ : Eval Series).run.run μ = _
  rw [run_bind, run_bind, hshape]
  simp only [↓reduceIte]
  rw [run_bind, hvalue]
  simp only [hnan, hne, Bool.false_eq_true, ↓reduceIte]
  rfl

/-- What is shown depends on itself through the branch that is not taken. -/
def blinkSource : String := "shown = time if scale else hidden; hidden = shown"

def shownBody : Expr :=
  .conditional (.identifier "time" ⟨2, 3⟩) (.identifier "scale" ⟨4, 5⟩)
    (.identifier "hidden" ⟨6, 7⟩) ⟨2, 7⟩

set_option maxRecDepth 4000 in
theorem parse_blink : ∃ ts us, parseScript blinkSource = [⟨.variable "shown" shownBody, ts⟩,
    ⟨.variable "hidden" (.identifier "shown" ⟨2, 3⟩), us⟩] :=
  ⟨_, _, by cbv⟩

theorem run_shownBody :
    ((shownBody.meaning (m := Eval) (load blinkSource).1.setting
      (Context.root.inVariable "shown")).values .all).run.run ⟨.empty, 0, 1⟩ =
      (.ok (.scalar 0), ⟨.empty, 0, 1⟩) := by
  obtain ⟨ts, us, hparse⟩ := parse_blink
  rw [load, hparse, shownBody, Expr.meaning_eq_meaningBy, Expr.meaningBy_conditional,
    run_values_conditional (v := .scalar 1) (by cbv) (by cbv) (by decide +kernel)
      (by decide +kernel)]
  cbv

/-- When the time changes, the value of a variable that reads the time stays, since the search from
the variable meets a cycle. -/
theorem shown_of_blink_stays :
    let s := afterRun blinkSource [.values (reference "shown") .all]
    let s' := s.perform (.setTime 5)
    s'.declarations.IsVariable "shown" ∧ s'.declarations.Reaches "shown" "time" ∧
      s'.memory.cache.find? "shown" = some (.scalar 0) := by
  intro s s'
  obtain ⟨ts, us, hparse⟩ := parse_blink
  obtain ⟨st, hfind, hkind⟩ : ∃ st, (load blinkSource).1.declarations.find? "shown" = some st ∧
      st.kind = .variable "shown" shownBody := by
    rw [load, hparse]
    exact ⟨_, rfl, rfl⟩
  have hvar : st.isVariable := Statement.isVariable_iff.mpr ⟨_, _, hkind⟩
  have hreads : "time" ∈ st.reads s'.declarations := by
    simp [Statement.reads, hkind, shownBody, Expr.reads]
  have hcache : s.memory.cache = ⟨[("shown", .scalar 0)]⟩ := by
    show (((load blinkSource).1.meaning (reference "shown")).values .all).run.run
      (load blinkSource).1.memory |>.2.cache = _
    have hμ : { (load blinkSource).1.memory with
        statementEvaluations := (load blinkSource).1.memory.statementEvaluations + 1 } =
          (⟨.empty, 0, 1⟩ : Memory) := by rw [memory_load]; rfl
    rw [run_values_reference hfind hkind (by rw [memory_load]; rfl), hμ, run_shownBody]
    rfl
  have hdependents : ((load blinkSource).1.graph.dependents.find? "time").getD [] = [] := by
    rw [load, hparse]
    cbv
  refine ⟨⟨st, hfind, hvar⟩, .single ⟨st, hfind, hreads⟩, ?_⟩
  have hstays : s'.memory.cache.find? "shown" = s.memory.cache.find? "shown" := by
    refine find?_invalidate_of_not_mem (by simp) fun hnotes => ?_
    have hmem : "shown" ∈ ((load blinkSource).1.graph.dependents.find? "time").getD [] := hnotes
    rw [hdependents] at hmem
    cases hmem
  rw [hstays, hcache]
  rfl

end Session

end VectorScript
