import VectorScript.Proofs.GuardedMemory
import VectorScript.Proofs.SessionRuns

/-!
# Earlier requests

What was asked before may only help.  An evaluation that starts with more remembered finds at once
what it would have to evaluate else, and there it may reach a limit; but whatever it answers from
less, it answers from more.  The memory that it starts from has to be closed: otherwise the
evaluation that is skipped could have remembered a variable that is not remembered at all.

In scripts with conditions in comprehensions this holds of careful evaluation only, so there no
request may be one that careful evaluation refuses.

* `Setting.Warmer`: a closed memory that holds all that another one holds.
* `Simulation.warmer`: from a warmer memory the same is answered, unless a limit was reached.
* `Session.RefusesOneOf`: careful evaluation refuses one of some requests in its turn.
* `Session.evaluate_after_requests`: what is answered at once is answered after all requests.
-/

namespace VectorScript

open Filter Meaning

/-- The answer says that a limit was reached. -/
def Limited {α : Type} (x : Plain α) : Prop := ∃ e, x = .error e ∧ e.isResource

/-! ### Two memories -/

/-- One memory holds what another one holds, and it is closed. -/
structure Setting.Warmer (filters : Bool) (w : Setting) (cold warm : NameTable Series) : Prop where
  closed : w.Closed filters warm
  finds : ∀ name v, cold.find? name = some v → warm.find? name = some v

namespace Setting.Warmer

variable {filters : Bool} {w : Setting} {cold warm : NameTable Series}

/-- The guard that lets all pass that is remembered. -/
theorem coherentUnder (h : w.Warmer filters cold warm) :
    w.CoherentUnder filters warm.contains warm :=
  h.closed warm.contains fun _ hname => hname

theorem coherentUnder_cold (h : w.Warmer filters cold warm) :
    w.CoherentUnder filters warm.contains cold :=
  fun name v hv => h.coherentUnder name v (h.finds name v hv)

theorem within (h : w.Warmer filters cold warm) : cold.Within warm.contains := by
  intro name hname
  obtain ⟨v, hv⟩ := Option.isSome_iff_exists.mp hname
  exact Option.isSome_iff_exists.mpr ⟨v, h.finds name v hv⟩

/-- Another memory is colder too if it has values for some of the same variables only. -/
theorem of_within (h : w.Warmer filters cold warm) (hacyclic : ∀ x, w.declarations.Acyclic x)
    {cold' : NameTable Series} (hcoherent : w.CoherentUnder filters warm.contains cold')
    (hwithin : cold'.Within warm.contains) : w.Warmer filters cold' warm := by
  refine ⟨h.closed, fun name v hv => ?_⟩
  have hname : warm.contains name := hwithin name (Option.isSome_iff_exists.mpr ⟨v, hv⟩)
  obtain ⟨u, hu⟩ := Option.isSome_iff_exists.mp hname
  obtain ⟨-, hlasts⟩ := hcoherent name v hv
  obtain ⟨-, hlasts'⟩ := h.coherentUnder name u hu
  rw [hu, eventually_unique (hlasts (hacyclic name)) (hlasts' (hacyclic name))]

/-- What is remembered by the warmer memory is the answer from the colder one, and nothing is
remembered there that is not known to the warmer one. -/
theorem request (h : w.Warmer filters cold warm) (hacyclic : ∀ x, w.declarations.Acyclic x)
    {α : Type} {x y : Eval α} {Y : Nat → Plain α} {a : α} {safe : Prop}
    (hguard : (Simulation.guard warm.contains).Rel x y)
    (hfollows : Eval.Follows (w.CoherentUnder filters warm.contains) safe y Y) (hsafe : safe)
    (hY : ∀ᶠ n in atTop, Y n = .ok a) {μ : Memory} (hμ : μ.cache = cold) :
    Limited (x.run.run μ).1 ∨
      (x.run.run μ).1 = .ok a ∧ w.Warmer filters (x.run.run μ).2.cache warm := by
  subst hμ
  have hlasts := hfollows.lasts hsafe μ h.coherentUnder_cold
  have hkeeps := hfollows.keeps μ h.coherentUnder_cold
  have hgives := hlasts.givesUnlessLimited hY
  obtain ⟨-, ⟨hsame, hwithin⟩ | ⟨hrefused, -⟩⟩ := hguard μ
  · rw [hsame] at hgives hkeeps
    rcases hgives with hok | hlimited
    · exact .inr ⟨hok, h.of_within hacyclic hkeeps (hwithin h.within)⟩
    · exact .inl hlimited
  · -- a refusal is no value and no limit
    rw [hrefused] at hgives
    rcases hgives with hok | ⟨e, he, hresource⟩
    · cases hok
    · cases he
      cases hresource

end Setting.Warmer

/-- From a warmer memory the answer is the same and leaves a warmer memory, unless a limit was
reached from the colder one. -/
def Simulation.warmer (filters : Bool) (w : Setting) : Simulation Eval Eval where
  Rel x y := ∀ μ μ' : Memory, w.Warmer filters μ.cache μ'.cache →
    Limited (x.run.run μ).1 ∨ (y.run.run μ').1 = (x.run.run μ).1 ∧
      w.Warmer filters (x.run.run μ).2.cache (y.run.run μ').2.cache
  may _ := True
  pure _ _ _ h := .inr ⟨rfl, h⟩
  raise _ _ _ h := .inr ⟨rfl, h⟩
  overflow _ _ _ _ h := .inr ⟨rfl, h⟩
  countBuiltin _ _ h := .inr ⟨rfl, h⟩
  bind := by
    intro α β x y f g h hf μ μ' hwarmer
    simp only [run_bind]
    have hrun := h μ μ' hwarmer
    rcases hx : x.run.run μ with ⟨r, ν⟩
    rcases hy : y.run.run μ' with ⟨r', ν'⟩
    rw [hx, hy] at hrun
    rcases hrun with ⟨e, he, hresource⟩ | ⟨hsame, hwarmer'⟩
    · cases he
      exact .inl ⟨e, rfl, hresource⟩
    · cases hsame
      cases r with
      | ok a => exact hf a ν ν' hwarmer'
      | error e => exact .inr ⟨rfl, hwarmer'⟩

/-- Both memories remember the same value of a variable, if the warmer one stays closed. -/
theorem Simulation.warmer_ofVariable {filters : Bool} {w : Setting} {name : String}
    {a : Meaning Eval} (h : (warmer filters w).Matches a a)
    (hclosed : ∀ selection (μ : Memory), w.Closed filters μ.cache →
      w.Closed filters (((ofVariable name a).values selection).run.run μ).2.cache) :
    (warmer filters w).Matches (.ofVariable name a) (.ofVariable name a) := by
  refine ⟨h.shape, fun selection μ μ' hwarmer => ?_⟩
  have hend := hclosed selection μ' hwarmer.closed
  have hrun := h.values selection
    { μ with statementEvaluations := μ.statementEvaluations + 1 }
    { μ' with statementEvaluations := μ'.statementEvaluations + 1 } hwarmer
  rw [run_values_ofVariable] at hend
  simp only [run_values_ofVariable]
  rcases hx : (a.values selection).run.run
    { μ with statementEvaluations := μ.statementEvaluations + 1 } with ⟨r, ν⟩
  rcases hy : (a.values selection).run.run
    { μ' with statementEvaluations := μ'.statementEvaluations + 1 } with ⟨r', ν'⟩
  rw [hx, hy] at hrun
  rw [hy] at hend
  rcases hrun with ⟨e, he, hresource⟩ | ⟨hsame, hwarmer'⟩
  · cases he
    exact .inl ⟨e, rfl, hresource⟩
  · cases hsame
    cases r with
    | error e => exact .inr ⟨rfl, hwarmer'⟩
    | ok v =>
      cases selection with
      | «at» indices => exact .inr ⟨rfl, hwarmer'⟩
      | all =>
        refine .inr ⟨rfl, hend, fun other u hu => ?_⟩
        have hu : (ν.cache.insert name v).find? other = some u := hu
        show (ν'.cache.insert name v).find? other = some u
        rw [NameTable.find?_insert] at hu ⊢
        split_ifs at hu ⊢
        · exact hu
        · exact hwarmer'.finds other u hu

/-! ### Evaluation from a warmer memory -/

namespace Expr

variable {filters : Bool} {w : Setting} {ctx : Context} {name key : String} {span : Span}
  {st : Statement} {body : Expr}

/-- What the warmer memory holds of a variable, evaluation under its guard settles on. -/
theorem settlesFully_of_warmer (h : w.Written filters)
    (hacyclic : ∀ x, w.declarations.Acyclic x) {cold warm : NameTable Series}
    (hwarmer : w.Warmer filters cold warm) (hopen : w.declarations.OpenTo ctx.opened name)
    (span : Span) {v : Series} (hv : warm.find? name = some v) :
    SettlesFully (fun n => declaredGuarded filters warm.contains (w.within n) ctx name span) v := by
  obtain ⟨⟨st, hfind, hvar⟩, -⟩ := hwarmer.coherentUnder name v hv
  obtain ⟨key, body, hkind⟩ := Statement.isVariable_iff.mp hvar
  have hfind' : ∀ n, (w.within n).declarations.find? name = some st := fun _ => hfind
  have hopened : name ∉ ctx.opened := fun hmem =>
    hacyclic name name .refl ⟨st, hfind, hvar⟩ (hopen name hmem).2
  simp only [declaredGuarded_variable (hfind' _) hkind hopened, delay_plain]
  exact settlesFully_of_remembered h hfind hkind (hacyclic name) hopen hwarmer.coherentUnder hv

/-- A free name may be looked up: what only the warmer memory holds is found by evaluation from the
colder one, unless a limit is reached. -/
theorem warmer_recalledOr (h : w.Written filters) (hacyclic : ∀ x, w.declarations.Acyclic x)
    (hfree : ctx.scope.find? name = none) (hopen : w.declarations.OpenTo ctx.opened name)
    (hdeclared : (Simulation.warmer filters w).Matches
      (declaredBy w (careful filters w) ctx name span)
      (declaredBy w (careful filters w) ctx name span)) :
    (Simulation.warmer filters w).Matches
      (.recalledOr name (declaredBy w (careful filters w) ctx name span))
      (.recalledOr name (declaredBy w (careful filters w) ctx name span)) := by
  have hguard : ∀ K, (Simulation.guard K).Matches
      (.recalledOr name (declaredBy w (careful filters w) ctx name span))
      (.recalledOr (m := Eval) name (declaredGuarded filters K w ctx name span)) := by
    intro K
    have hmatches := Simulation.guard_matches filters K w ctx (identifier name span)
    rwa [careful_free hfree, guarded_free hfree] at hmatches
  have hfollows : ∀ K, Follows (w.CoherentUnder filters K) (w.declarations.Acyclic name)
      (.recalledOr name (declaredGuarded filters K w ctx name span)) fun n =>
      declaredGuarded filters K (w.within n) ctx name span := fun K =>
    follows_declared h hopen fun _ _ body _ _ _ hbody =>
      follows_guarded h (ctx.inVariable name) body hbody
  have hcold : ∀ {μ μ' : Memory}, w.Warmer filters μ.cache μ'.cache → μ'.cache.find? name = none →
      μ.cache.find? name = none := by
    intro μ μ' hwarmer hwarm
    cases hcold : μ.cache.find? name with
    | none => rfl
    | some v => cases (hwarmer.finds name v hcold).symm.trans hwarm
  refine ⟨fun μ μ' hwarmer => ?_, fun selection μ μ' hwarmer => ?_⟩
  · rw [run_shape_recalledOr _ _ μ', recalled]
    cases hwarm : μ'.cache.find? name with
    | some v =>
      have hsettles := settlesFully_of_warmer h hacyclic hwarmer hopen span hwarm
      rcases hwarmer.request hacyclic (hguard _).shape (hfollows _).shape (hacyclic name)
        hsettles.shape rfl with hlimited | ⟨hok, hwarmer'⟩
      · exact .inl hlimited
      · exact .inr ⟨hok.symm, hwarmer'⟩
    | none =>
      rw [run_shape_recalledOr, recalled, hcold hwarmer hwarm]
      exact hdeclared.shape μ μ' hwarmer
  · rw [run_values_recalledOr _ _ _ μ', recalled]
    cases hwarm : μ'.cache.find? name with
    | some v =>
      have hsettles := settlesFully_of_warmer h hacyclic hwarmer hopen span hwarm
      rcases hwarmer.request hacyclic ((hguard _).values selection) ((hfollows _).values selection)
        (hacyclic name) (hsettles.lasts selection) rfl with hlimited | ⟨hok, hwarmer'⟩
      · exact .inl hlimited
      · exact .inr ⟨hok.symm, hwarmer'⟩
    | none =>
      rw [run_values_recalledOr, recalled, hcold hwarmer hwarm]
      exact hdeclared.values selection μ μ' hwarmer

/-- Evaluation from a warmer memory gives the same answers. -/
theorem carries_warmer (h : w.Written filters) (hacyclic : ∀ x, w.declarations.Acyclic x) :
    (Simulation.warmer filters w).CarriesBy w (careful filters w) (careful filters w) fun ctx e =>
      e.ReadsWithin w.declarations (w.declarations.OpenTo ctx.opened) ctx.scope where
  step he hleads := he.openTo_of_leads hleads
  site _ _ _ := trivial
  reopen _ _ _ _ := trivial
  recalled he hfree hdeclared := warmer_recalledOr h hacyclic hfree (he.name hfree) hdeclared
  remember := by
    intro ctx name span st key body he hfree hfind hkind hopen hbody
    have hreads := he.openTo_of_leads (.reference hfree hfind hkind hopen)
    refine Simulation.warmer_ofVariable hbody fun selection μ hclosed => ?_
    have hguard := fun K =>
      Simulation.guard_matches_variable filters K w (ctx.inVariable name) name body
    have hfollows := fun K => follows_variable h hfind hkind
      (follows_guarded (K := K) h (ctx.inVariable name) body hreads)
    exact .run (fun K => (hguard K).values selection) (fun K => (hfollows K).values selection)
      hclosed

end Expr

/-! ### Sessions -/

/-- Whether an operation only asks for something. -/
def Operation.isRequest : Operation → Bool
  | values .. | shape .. => true
  | _ => false

namespace Session

variable {filters : Bool} {s : Session} {op : Operation} {ops : List Operation}

/-- The session after some operations. -/
def performAll (s : Session) (ops : List Operation) : Session := ops.foldl perform s

/-- Careful evaluation refuses one of some requests, each in its turn. -/
def RefusesOneOf (s : Session) : List Operation → Prop
  | [] => False
  | op :: ops => s.RefusesRequest op ∨ (s.perform op).RefusesOneOf ops

/-- A request that is not refused changes nothing but the memory.  It forgets nothing and leaves the
memory closed. -/
theorem Sound.perform_request (h : s.Sound filters)
    (hclosed : s.setting.Closed filters s.memory.cache) (hop : op.isRequest)
    (hrefuses : filters = true → ¬ s.RefusesRequest op) :
    (s.perform op).setting = s.setting ∧ (s.perform op).Sound filters ∧
      s.setting.Closed filters (s.perform op).memory.cache ∧
      ∀ name, s.memory.cache.contains name → (s.perform op).memory.cache.contains name := by
  have hopen : ∀ e : Expr, e.ReadsWithin s.declarations (s.declarations.OpenTo []) .root :=
    fun _ => ⟨fun _ _ => Declarations.openTo_nil, trivial⟩
  have hguard := fun e K => Simulation.guard_matches filters K s.setting .root e
  have hfollows := fun e K => Expr.follows_guarded (K := K) h.written .root e (hopen e)
  have hrequest : ∀ (e : Expr) {α : Type} (q : Question α),
      (filters = true → ¬ s.RefusesAnswer e q) → (s.answer e q).2.Sound filters ∧
        s.setting.Closed filters (s.answer e q).2.memory.cache ∧
        ∀ name, s.memory.cache.contains name → (s.answer e q).2.memory.cache.contains name := by
    intro e α q hrefuses
    refine ⟨h.answer hrefuses, ?_⟩
    rw [← run_careful hrefuses]
    exact ⟨hclosed.run (fun K => (hguard e K).ask q) fun K => (hfollows e K).ask q,
      ((hguard e fun _ => true).ask q s.memory).1⟩
  cases op with
  | values e selection => exact ⟨rfl, hrequest e (.values selection) hrefuses⟩
  | shape e => exact ⟨rfl, hrequest e .shape hrefuses⟩
  | _ => cases hop

/-- What one request keeps, all requests keep. -/
theorem Sound.performAll_requests (h : s.Sound filters)
    (hclosed : s.setting.Closed filters s.memory.cache) (hops : ∀ op ∈ ops, op.isRequest)
    (hrefuses : filters = true → ¬ s.RefusesOneOf ops) :
    (s.performAll ops).setting = s.setting ∧
      s.setting.Closed filters (s.performAll ops).memory.cache ∧
      ∀ name, s.memory.cache.contains name → (s.performAll ops).memory.cache.contains name := by
  induction ops generalizing s with
  | nil => exact ⟨rfl, hclosed, fun _ hname => hname⟩
  | cons op ops ih =>
    obtain ⟨hsetting, hsound, hclosed', hgrows⟩ := h.perform_request hclosed
      (hops op List.mem_cons_self) fun hfilters hrefused => hrefuses hfilters (.inl hrefused)
    have hrest := ih hsound (hsetting ▸ hclosed')
      (fun op hop => hops op (List.mem_cons_of_mem _ hop))
      fun hfilters hrefused => hrefuses hfilters (.inr hrefused)
    rw [hsetting] at hrest
    exact ⟨hrest.1, hrest.2.1, fun name hname => hrest.2.2 name (hgrows name hname)⟩

/-- After requests the memory is warmer. -/
theorem Sound.warmer_performAll (h : s.Sound filters) (hknown : s.DependenciesKnown)
    (hclosed : s.setting.Closed filters s.memory.cache) (hops : ∀ op ∈ ops, op.isRequest)
    (hrefuses : filters = true → ¬ s.RefusesOneOf ops) :
    s.setting.Warmer filters s.memory.cache (s.performAll ops).memory.cache := by
  obtain ⟨-, hwarm, hgrows⟩ := h.performAll_requests hclosed hops hrefuses
  have hempty : s.setting.Warmer filters .empty (s.performAll ops).memory.cache := ⟨hwarm, nofun⟩
  exact hempty.of_within (h.acyclic hknown) (hclosed _ hgrows) hgrows

/-- Whatever a session answers without a refusal, it answers after all requests, unless it says that
a limit was reached. -/
theorem Sound.answer_performAll (h : s.Sound filters) (hknown : s.DependenciesKnown)
    (hclosed : s.setting.Closed filters s.memory.cache) (hops : ∀ op ∈ ops, op.isRequest)
    (hrefuses : filters = true → ¬ s.RefusesOneOf ops) {e : Expr} {α : Type} {q : Question α}
    (hrequest : filters = true → ¬ s.RefusesAnswer e q) :
    Limited (s.answer e q).1 ∨ ((s.performAll ops).answer e q).1 = (s.answer e q).1 := by
  obtain ⟨hsetting, -⟩ := h.performAll_requests hclosed hops hrefuses
  have hcarries := Expr.carries_warmer h.written (h.acyclic hknown)
  have hmatches := hcarries.matches_careful (fun _ => trivial) .root e
    ⟨fun _ _ => Declarations.openTo_nil, trivial⟩
  have hrun := hmatches.ask q s.memory (s.performAll ops).memory
    (h.warmer_performAll hknown hclosed hops hrefuses)
  have hcold := run_careful hrequest
  refine hrun.imp (fun hlimited => ?_) fun ⟨hsame, _⟩ => ?_
  · rw [← hcold]
    exact hlimited
  · -- what is refused after the requests would be refused before them
    have hwarm : filters = true → ¬ (s.performAll ops).RefusesAnswer e q := by
      rintro rfl hrefused
      rw [RefusesAnswer, hsetting] at hrefused
      exact hrequest rfl (hrefused.of_same_answer hsame)
    rw [← hcold, ← run_careful hwarm, hsetting]
    exact hsame

/-- In a script where all dependencies are known, what a variable gives at once it gives after all
requests: the same values or shape, or the same error.  Only an error that says that a limit was
reached may go away.  There is an exception only where comprehensions have conditions: the request,
or one of those before it, finds that the only item of a literal is empty but has several
components, which careful evaluation refuses. -/
theorem evaluate_after_requests {filters : Bool} {source : String}
    (hfilters : ∀ st ∈ parseScript source, filters = false → st.whenFree)
    (hknown : (load source).1.DependenciesKnown) (limits : Limits) (requests : List Operation)
    (hrequests : ∀ op ∈ requests, op.isRequest) (name : String) :
    let fresh := (load source).1.setLimits limits
    let warm := fresh.performAll requests
    filters = true ∧ fresh.RefusesOneOf requests ∨
      (∀ selection, Limited (fresh.evaluate name selection).1 ∨
        (warm.evaluate name selection).1 = (fresh.evaluate name selection).1 ∨
        filters = true ∧ fresh.RefusesRequest (.values (reference name) selection)) ∧
      (Limited (fresh.shape name).1 ∨ (warm.shape name).1 = (fresh.shape name).1 ∨
        filters = true ∧ fresh.RefusesRequest (.shape (reference name))) := by
  intro fresh warm
  have hsound : fresh.Sound filters :=
    (sound_load hfilters).perform (.setLimits limits) nofun fun _ => id
  by_cases hrefused : filters = true ∧ fresh.RefusesOneOf requests
  · exact .inl hrefused
  have hanswer : ∀ {α : Type} (q : Question α), Limited (fresh.answer (reference name) q).1 ∨
      (warm.answer (reference name) q).1 = (fresh.answer (reference name) q).1 ∨
      filters = true ∧ fresh.RefusesAnswer (reference name) q := by
    intro α q
    by_cases hrequest : filters = true ∧ fresh.RefusesAnswer (reference name) q
    · exact .inr (.inr hrequest)
    · exact (hsound.answer_performAll hknown (Setting.closed_empty filters _) hrequests
        (not_and.mp hrefused) (not_and.mp hrequest)).imp_right .inl
  exact .inr ⟨fun selection => hanswer (.values selection), hanswer .shape⟩

/-- A needle, the needle as the only item of a literal, and a comprehension with a condition. -/
def framedSource : String :=
  "needle = rotation.wx; frame = [needle]; marks = [p for p = frame when scale]"

set_option maxRecDepth 4000 in
theorem parse_framed : ∃ ts us vs, parseScript framedSource =
    [⟨.variable "needle" (.swizzle (.identifier "rotation" ⟨2, 3⟩) "wx" ⟨2, 5⟩), ts⟩,
      ⟨.variable "frame" (.array [.identifier "needle" ⟨3, 4⟩] ⟨2, 5⟩), us⟩,
      ⟨.variable "marks" (.array [.filtered (.identifier "p" ⟨3, 4⟩) "p"
        (.identifier "frame" ⟨7, 8⟩) (.identifier "scale" ⟨9, 10⟩) ⟨3, 10⟩] ⟨2, 11⟩), vs⟩] :=
  ⟨_, _, _, by cbv⟩

def framed : Session := (load framedSource).1.setLimits ⟨8, 2⟩

/-- A shape, an element, and a name that is not known. -/
def firstRequests : List Operation :=
  [.shape (reference "frame"), .values (reference "needle") (.at [0]),
    .values (reference "hand") .all]

theorem framed_dependenciesKnown : (load framedSource).1.DependenciesKnown := by
  refine dependenciesKnown_of_all (indexed_load framedSource) ?_
  obtain ⟨ts, us, vs, hparse⟩ := parse_framed
  rw [load, hparse]
  cbv

/-- The careful answer to a question. -/
noncomputable def carefully {α : Type} (s : Session) (name : String) (q : Question α) :
    Except EvalError α :=
  ((q.ask ((reference name).careful true s.setting .root) : Eval α).run.run s.memory).1

theorem carefully_frame : framed.carefully "frame" (.values .all) = .ok ⟨1, [#[1], #[0]]⟩ ∧
    framed.carefully "frame" .shape = .ok ⟨1, 2⟩ := by
  obtain ⟨ts, us, vs, hparse⟩ := parse_framed
  rw [carefully, carefully, framed, load, hparse, Expr.careful_eq_iterate 6]
  constructor <;> cbv

theorem carefully_needle :
    (framed.performAll (firstRequests.take 1)).carefully "needle" (.values (.at [0])) =
      .ok ⟨1, [#[1], #[0]]⟩ := by
  obtain ⟨ts, us, vs, hparse⟩ := parse_framed
  rw [carefully, framed, load, hparse, Expr.careful_eq_iterate 6]
  cbv

theorem carefully_hand :
    (framed.performAll (firstRequests.take 2)).carefully "hand" (.values .all) =
      .error ⟨.undefinedIdentifier "hand", ⟨none, .none⟩⟩ := by
  obtain ⟨ts, us, vs, hparse⟩ := parse_framed
  rw [carefully, framed, load, hparse, Expr.careful_eq_iterate 6]
  cbv

theorem framed_refuses_none : ¬ framed.RefusesOneOf firstRequests := by
  rintro (hrefused | hrefused | hrefused | ⟨⟨⟩⟩)
  · exact not_refused_of_answer carefully_frame.2 nofun hrefused
  · exact not_refused_of_answer carefully_needle nofun hrefused
  · exact not_refused_of_answer carefully_hand (by simp [EvalError.refusal]) hrefused

/-- After the requests the frame is as it is at once. -/
theorem frame_after_partial_requests :
    ((framed.performAll firstRequests).evaluate "frame" .all).1 = .ok ⟨1, [#[1], #[0]]⟩ ∧
      ((framed.performAll firstRequests).shape "frame").1 = .ok ⟨1, 2⟩ := by
  have hfilters : ∀ st ∈ parseScript framedSource, true = false → st.whenFree :=
    fun _ _ h => nomatch h
  obtain ⟨hasked, hvalue⟩ := answer_of_careful carefully_frame.1 nofun
  obtain ⟨hasked', hshape⟩ := answer_of_careful carefully_frame.2 nofun
  rcases evaluate_after_requests hfilters framed_dependenciesKnown ⟨8, 2⟩ firstRequests (by decide)
    "frame" with ⟨-, hrefused⟩ | ⟨hvalues, hshapes⟩
  · exact absurd hrefused framed_refuses_none
  constructor
  · rcases hvalues .all with ⟨e, he, -⟩ | hsame | ⟨-, hrefused⟩
    · cases hvalue.symm.trans he
    · exact hsame.trans hvalue
    · exact absurd hrefused hasked
  · rcases hshapes with ⟨e, he, -⟩ | hsame | ⟨-, hrefused⟩
    · cases hshape.symm.trans he
    · exact hsame.trans hshape
    · exact absurd hrefused hasked'

/-- A dial that shows a needle through a call, where the needle is turned by a call. -/
def relaySource : String :=
  "dial = shown(rotation); shown(p) = needle; needle = turned(rotation); turned(p) = p.wx"

set_option maxRecDepth 4000 in
theorem parse_relay : ∃ ts us vs ws, parseScript relaySource =
    [⟨.variable "dial" (.call "shown" [.identifier "rotation" ⟨4, 5⟩] ⟨2, 6⟩), ts⟩,
      ⟨.function "shown" ["p"] (.identifier "needle" ⟨5, 6⟩), us⟩,
      ⟨.variable "needle" (.call "turned" [.identifier "rotation" ⟨4, 5⟩] ⟨2, 6⟩), vs⟩,
      ⟨.function "turned" ["p"] (.swizzle (.identifier "p" ⟨5, 6⟩) "wx" ⟨5, 8⟩), ws⟩] :=
  ⟨_, _, _, _, by cbv⟩

/-- Calls may not be nested. -/
def relay : Session := (load relaySource).1.setLimits ⟨8, 1⟩

/-- If calls may not be nested, the dial has no value at once, but it has one after the needle was
asked for. -/
theorem dial_after_needle :
    relay.DependenciesKnown ∧
      (relay.evaluate "dial" .all).1 = .error ⟨.recursionLimit 1, ⟨some "needle", ⟨2, 6⟩⟩⟩ ∧
      ((relay.performAll [.values (reference "needle") .all]).evaluate "dial" .all).1 =
        .ok ⟨1, [#[1], #[0]]⟩ := by
  have hknown : (load relaySource).1.DependenciesKnown := by
    refine dependenciesKnown_of_all (indexed_load relaySource) ?_
    obtain ⟨ts, us, vs, ws, hparse⟩ := parse_relay
    rw [load, hparse]
    cbv
  refine ⟨hknown, ?_⟩
  obtain ⟨ts, us, vs, ws, hparse⟩ := parse_relay
  rw [relay, load, hparse]
  constructor <;> cbv

end Session

end VectorScript
