import VectorScript.Proofs.FollowingEvaluation
import VectorScript.Proofs.ParserForms
import VectorScript.Proofs.Refusals
import VectorScript.Proofs.SessionUpdates

/-!
# Runs of sessions

A run loads a script and then performs operations: definitions, changes of limits and constants, and
requests of any kind, in any order.  Whatever a session remembers along a run stays right, since a
change of a name forgets all variables that reach the name.

* `Operation`, `Session.perform`: one step of a run.
* `Session.Reachable`: the sessions of all runs whose statements have a property.
* `Question`: what may be asked of a meaning.
* `Session.RefusesAnswer`, `Session.ReachedCarefully`: runs without requests that careful evaluation
  refuses.
* `Session.Sound`: what holds all along a run.
-/

namespace VectorScript

open Filter Meaning

/-! ### Operations -/

/-- What may be done with a session.  A name, a render statement and a text are requested by their
expressions. -/
inductive Operation where
  | define (st : Statement)
  | setLimits (limits : Limits)
  | setAnimation (animation : Animation)
  | setTime (time : Float32)
  | advanceTime (step : Float32)
  | setPosition (position : Vector Float32 3)
  | setScale (scale : Float32)
  | setRotation (rotation : Vector Float32 4)
  | invalidate (name : String)
  | values (e : Expr) (selection : Selection)
  | shape (e : Expr)

namespace Session

/-- The session after an operation, whether it succeeds or fails. -/
def perform (s : Session) : Operation → Session
  | .define st => (s.update st).2
  | .setLimits limits => s.setLimits limits
  | .setAnimation animation => s.setAnimation animation
  | .setTime time => s.setTime time
  | .advanceTime step => s.advanceTime step
  | .setPosition position => s.setPosition position
  | .setScale scale => s.setScale scale
  | .setRotation rotation => s.setRotation rotation
  | .invalidate name => s.invalidate name
  | .values e selection => (s.evaluateExpr e selection).2
  | .shape e => (s.exprShape e).2

/-- The sessions that come up when a script is loaded and operations follow, where all statements
that are loaded or defined have the property `p`.  Statements are defined in the form in which the
parser gives them; see `Statement.wellFormed_of_mem_parseScript`. -/
inductive Reachable (p : Statement → Prop) : Session → Prop
  | load {source : String} (h : ∀ st ∈ parseScript source, p st) : Reachable p (load source).1
  | perform {s : Session} (h : Reachable p s) (op : Operation)
    (hdefine : ∀ st, op = .define st → st.wellFormed ∧ p st) : Reachable p (s.perform op)

/-- Order and graph stay those of the declarations. -/
theorem Indexed.perform {s : Session} (h : s.Indexed) (op : Operation) :
    (s.perform op).Indexed := by
  cases op with
  | define st =>
    show (s.update st).2.Indexed
    rcases h.update_cases st with ⟨e, hupdate, -⟩ | ⟨-, hupdate⟩ | ⟨name, -, hupdate⟩ <;>
      rw [hupdate]
    · exact h
    · exact h
    · exact h.rebuild_insert name st
  | _ => exact h

theorem Reachable.indexed {p : Statement → Prop} {s : Session} (h : s.Reachable p) :
    s.Indexed := by
  induction h with
  | load => exact indexed_load _
  | perform _ op _ ih => exact ih.perform op

/-- The dependencies of every declared name were found, so that no variable depends on itself. -/
def DependenciesKnown (s : Session) : Prop :=
  ∀ name, s.declarations.contains name → s.graph.dependencies.contains name

end Session

/-! ### A change of one name -/

section Change

variable {ds ds' : Declarations} {u : String}

/-- The names that depend on no variable that depends on itself, and do not reach `u`. -/
def Declarations.Apart (ds : Declarations) (u x : String) : Prop :=
  ds.Acyclic x ∧ ¬ Relation.ReflTransGen ds.Reads x u

theorem Declarations.Apart.of_reads {x y : String} (h : ds.Apart u x) (hxy : ds.Reads x y) :
    ds.Apart u y :=
  ⟨h.1.of_reads hxy, fun hreach => h.2 (hreach.head hxy)⟩

theorem Declarations.Apart.ne {x : String} (h : ds.Apart u x) : x ≠ u := by
  rintro rfl
  exact h.2 .refl

/-- Names apart from the one that changed read no less than before. -/
theorem Declarations.Apart.reads_of_reads {x y : String} (h : ds'.Apart u x)
    (hfind : ∀ x, x ≠ u → ds'.find? x = ds.find? x)
    (hcontains : ∀ x, ds.contains x → ds'.contains x) (hxy : ds.Reads x y) : ds'.Reads x y := by
  obtain ⟨st, hst, hy⟩ := hxy
  exact ⟨st, (hfind x h.ne).trans hst, Statement.reads_mono (hcontains y) hy⟩

theorem Declarations.Apart.acyclic {x : String} (h : ds'.Apart u x)
    (hfind : ∀ x, x ≠ u → ds'.find? x = ds.find? x)
    (hcontains : ∀ x, ds.contains x → ds'.contains x) : ds.Acyclic x := by
  have hapart : ∀ y, Relation.ReflTransGen ds.Reads x y → ds'.Apart u y := by
    intro y hxy
    induction hxy with
    | refl => exact h
    | tail _ hyz ih => exact ih.of_reads (ih.reads_of_reads hfind hcontains hyz)
  intro y hxy hvar hreaches
  have hy := hapart y hxy
  -- a way from `y` back to itself would lead back to it after the change too
  have hreaches' : ∀ z, ds.Reaches y z → ds'.Reaches y z ∧ ds'.Apart u z := by
    intro z hyz
    induction hyz with
    | single hyz =>
      have hyz := hy.reads_of_reads hfind hcontains hyz
      exact ⟨.single hyz, hy.of_reads hyz⟩
    | tail _ hzt ih =>
      have hzt := ih.2.reads_of_reads hfind hcontains hzt
      exact ⟨ih.1.tail hzt, ih.2.of_reads hzt⟩
  obtain ⟨st, hst, hisvar⟩ := hvar
  exact hy.1 y .refl ⟨st, (hfind y hy.ne).trans hst, hisvar⟩ (hreaches' y hreaches).1

end Change

/-- What stays remembered stays right when one name changes: another declaration is put in its
place, or the constant of that name takes another value. -/
theorem Setting.CoherentUnder.change {filters : Bool} {K : String → Bool} {w w' : Setting}
    {cache cache' : NameTable Series} {u : String} (hcoherent : w.CoherentUnder filters K cache)
    (hfind : ∀ x, x ≠ u → w'.declarations.find? x = w.declarations.find? x)
    (hcontains : ∀ x, w.declarations.contains x → w'.declarations.contains x)
    (hconstant : ∀ x, x ≠ u →
      Catalog.constant? w'.animation x = Catalog.constant? w.animation x)
    (hwritten : w'.Written filters)
    (hcache : ∀ x v, cache'.find? x = some v → cache.find? x = some v ∧ x ≠ u ∧
      (w'.declarations.contains x → w'.declarations.Acyclic x → ¬ w'.declarations.Reaches x u)) :
    w'.CoherentUnder filters K cache' := by
  intro x v hx
  obtain ⟨hold, hne, havoids⟩ := hcache x v hx
  obtain ⟨⟨st, hst, hvar⟩, hlasts⟩ := hcoherent x v hold
  have hst' : w'.declarations.find? x = some st := (hfind x hne).trans hst
  refine ⟨⟨st, hst', hvar⟩, fun hacyclic => ?_⟩
  have hapart : w'.declarations.Apart u x := by
    refine ⟨hacyclic, fun hreach => ?_⟩
    rcases Relation.reflTransGen_iff_eq_or_transGen.mp hreach with rfl | hreach
    · exact hne rfl
    · exact havoids (NameTable.contains_iff.mpr ⟨st, hst'⟩) hacyclic hreach
  -- all that `x` reads is as it was, so the old evaluation foretells the new one
  have hcontinued : ∀ n, (w.within n).ContinuedBy filters (w'.declarations.Apart u) w' := fun n =>
    { agree := ⟨fun y hy => hfind y hy.ne, fun y hy _ => hconstant y hy.ne,
        fun y hy z hyz => hy.of_reads hyz⟩
      contains := hcontains
      written := fun y _ => hwritten.declared y
      acyclic := fun y hy => hy.1 y .refl }
  obtain ⟨n, hn⟩ := (hlasts (hapart.acyclic hfind hcontains)).exists
  exact ((Expr.foretells_guarded (hcontinued n) .root (Session.reference x) .root ⟨rfl, .root⟩
    ⟨rfl, fun _ => rfl⟩ (.ofName ⟨hapart, by simp [Declarations.Avoids, Context.root]⟩)).all
      hn).2.all

theorem Setting.CoherentUnder.mono {filters : Bool} {K : String → Bool} {w : Setting}
    {cache cache' : NameTable Series} (h : w.CoherentUnder filters K cache)
    (hcache : ∀ x v, cache'.find? x = some v → cache.find? x = some v) :
    w.CoherentUnder filters K cache' :=
  fun x v hx => h x v (hcache x v hx)

theorem Setting.coherentUnder_empty (filters : Bool) (K : String → Bool) (w : Setting) :
    w.CoherentUnder filters K .empty := nofun

/-! ### Careful requests -/

/-- What may be asked of a meaning. -/
inductive Question : Type → Type
  | shape : Question Shape
  | values (selection : Selection) : Question Series

namespace Question

variable {α : Type}

/-- The answer of a meaning. -/
def ask {m : Type → Type} : Question α → Meaning m → m α
  | shape, a => a.shape
  | values selection, a => a.values selection

/-- The answer of a series. -/
def of : Question α → Series → α
  | shape, v => v.shape
  | values selection, v => v.select selection

end Question

theorem Simulation.Matches.ask {m m' : Type → Type} [Answering m] [Answering m'] [LawfulMonad m]
    [LawfulMonad m'] {S : Simulation m m'} {a : Meaning m} {b : Meaning m'} {α : Type}
    (h : S.Matches a b) (q : Question α) : S.Rel (q.ask a) (q.ask b) := by
  cases q with
  | shape => exact h.shape
  | values selection => exact h.values selection

theorem Meaning.Follows.ask {I : NameTable Series → Prop} {safe : Prop} {a : Meaning Eval}
    {M : Nat → Meaning Plain} {α : Type} (h : Follows I safe a M) (q : Question α) :
    Eval.Follows I safe (q.ask a) fun n => q.ask (M n) := by
  cases q with
  | shape => exact h.shape
  | values selection => exact h.values selection

theorem Meaning.SettlesFully.ask {M : Nat → Meaning Plain} {v : Series} {α : Type}
    (h : SettlesFully M v) (q : Question α) : ∀ᶠ n in atTop, q.ask (M n) = .ok (q.of v) := by
  cases q with
  | shape => exact h.shape
  | values selection => exact h.lasts selection

namespace Session

variable {filters : Bool} {s : Session} {e : Expr} {α : Type} {q : Question α}

/-- The answer to a question, and the session afterwards. -/
def answer (s : Session) (e : Expr) (q : Question α) : Except EvalError α × Session :=
  s.run (q.ask (s.meaning e))

/-- Careful evaluation refuses to answer a question. -/
def RefusesAnswer (s : Session) (e : Expr) (q : Question α) : Prop :=
  Refused (q.ask (e.careful true s.setting .root)) s.memory

/-- Careful evaluation refuses a request. -/
def RefusesRequest (s : Session) : Operation → Prop
  | .values e selection => s.RefusesAnswer e (.values selection)
  | .shape e => s.RefusesAnswer e .shape
  | _ => False

/-- What is not refused is the same request. -/
theorem run_of_not_refused {x y : Eval α} (h : SameUnless (· = .refusal) x y)
    (hx : ¬ Refused x s.memory) : s.run x = s.run y := by
  unfold run
  rw [h.of_not_refused hx]

theorem run_careful (h : filters = true → ¬ s.RefusesAnswer e q) :
    s.run (q.ask (e.careful filters s.setting .root)) = s.answer e q := by
  cases filters with
  | false =>
    rw [Expr.careful_false]
    rfl
  | true => exact run_of_not_refused ((Expr.careful_or_refused .root e).ask q) (h rfl)

/-- What careful evaluation answers is answered, unless it is a refusal. -/
theorem answer_of_careful {r : Except EvalError α}
    (h : ((q.ask (e.careful true s.setting .root) : Eval α).run.run s.memory).1 = r)
    (hr : r ≠ .error .refusal) : ¬ s.RefusesAnswer e q ∧ (s.answer e q).1 = r := by
  have hrefuses : ¬ s.RefusesAnswer e q := not_refused_of_answer h hr
  refine ⟨hrefuses, ?_⟩
  rw [← run_careful fun _ => hrefuses]
  exact h

/-- The sessions of all runs in which comprehensions have no conditions, or in which careful
evaluation refuses no request if `filters` is set. -/
inductive ReachedCarefully (filters : Bool) : Session → Prop
  | load {source : String} (h : ∀ st ∈ parseScript source, filters = false → st.whenFree) :
    ReachedCarefully filters (load source).1
  | perform {s : Session} (h : ReachedCarefully filters s) (op : Operation)
    (hdefine : ∀ st, op = .define st → st.wellFormed ∧ (filters = false → st.whenFree))
    (hrefuses : filters = true → ¬ s.RefusesRequest op) : ReachedCarefully filters (s.perform op)

/-- Without conditions nothing needs to be refused. -/
theorem Reachable.carefully (h : s.Reachable fun st => st.whenFree) :
    s.ReachedCarefully false := by
  induction h with
  | load h => exact .load fun st hst _ => h st hst
  | perform _ op hdefine ih =>
    exact .perform ih op (fun st hst => ⟨(hdefine st hst).1, fun _ => (hdefine st hst).2⟩) nofun

end Session

/-! ### What holds along a run -/

namespace Session

/-- Order and graph are those of the declarations, these are written ones, and what is remembered is
right. -/
structure Sound (filters : Bool) (s : Session) : Prop where
  indexed : s.Indexed
  written : s.setting.Written filters
  coherent : s.setting.CoherentUnder filters (fun _ => true) s.memory.cache

variable {filters : Bool} {s : Session}

theorem Sound.forgetAll (h : s.Sound filters) : s.forgetAll.Sound filters :=
  ⟨h.indexed, h.written, Setting.coherentUnder_empty _ _ _⟩

theorem Sound.invalidate (h : s.Sound filters) (name : String) :
    (s.invalidate name).Sound filters :=
  ⟨h.indexed, h.written, h.coherent.mono fun _ _ hx => (h.indexed.of_find?_invalidate hx).1⟩

/-- A request remembers what is right. -/
theorem Sound.run {α : Type} (h : s.Sound filters) {x : Eval α} {y : Nat → Plain α} {safe : Prop}
    (hx : Eval.Follows (s.setting.CoherentUnder filters fun _ => true) safe x y) :
    (s.run x).2.Sound filters :=
  ⟨h.indexed, h.written, hx.keeps s.memory h.coherent⟩

/-- Careful evaluation on its own follows careful evaluation without a memory. -/
theorem Sound.follows (h : s.Sound filters) (e : Expr) :
    Meaning.Follows (s.setting.CoherentUnder filters fun _ => true)
      (e.ReadsWithin s.declarations s.declarations.Acyclic .root)
      (e.careful filters s.setting .root) fun n => e.careful filters (s.setting.within n) .root :=
  Expr.follows_guarded h.written .root e ⟨fun _ _ _ ho => absurd ho List.not_mem_nil, trivial⟩

theorem Sound.answer (h : s.Sound filters) {e : Expr} {α : Type} {q : Question α}
    (hrefuses : filters = true → ¬ s.RefusesAnswer e q) : (s.answer e q).2.Sound filters := by
  rw [← run_careful hrefuses]
  exact h.run ((h.follows e).ask q)

/-- The constant of one name changes. -/
theorem Sound.setConstant (h : s.Sound filters) {animation : Animation} {u : String}
    (hanimation : s.animation.AgreeOn (· ≠ u) animation) :
    ({ s with animation := animation }.invalidate u).Sound filters := by
  have hindexed : { s with animation := animation }.Indexed := h.indexed
  exact ⟨hindexed, ⟨h.written.declared⟩, h.coherent.change (fun _ _ => rfl) (fun _ hx => hx)
    (fun _ hx => (hanimation.constant? hx).symm) ⟨h.written.declared⟩ fun _ _ hx =>
      hindexed.of_find?_invalidate hx⟩

/-- Another declaration stands under a name. -/
theorem Sound.replace (h : s.Sound filters) {st : Statement} (hst : st.Written filters)
    (name : String) :
    ((s.replace name st).invalidate name).Sound filters := by
  have hindexed : (s.replace name st).Indexed := h.indexed.rebuild_insert name st
  have hwritten : (s.replace name st).setting.Written filters :=
    ⟨NameTable.forall_insert h.written.declared name hst⟩
  -- the graph is rebuilt first, so what reaches the name only now is forgotten too
  refine ⟨hindexed, hwritten, h.coherent.change (u := name) (fun x hx => ?_) (fun x hx => ?_)
    (fun _ _ => rfl) hwritten fun _ _ hx => hindexed.of_find?_invalidate hx⟩
  · exact (NameTable.find?_insert _ _ _ _).trans (if_neg hx)
  · exact NameTable.contains_insert_of_contains hx

theorem Sound.update (h : s.Sound filters) {st : Statement} (hst : st.Written filters) :
    (s.update st).2.Sound filters := by
  rcases h.indexed.update_cases st with ⟨e, hupdate, -⟩ | ⟨-, hupdate⟩ | ⟨name, -, hupdate⟩ <;>
    rw [hupdate]
  · exact h
  · exact ⟨h.indexed, h.written, h.coherent⟩
  · exact h.replace hst name

/-- One step of a run. -/
theorem Sound.perform (h : s.Sound filters) (op : Operation)
    (hdefine : ∀ st, op = .define st → st.Written filters)
    (hrefuses : filters = true → ¬ s.RefusesRequest op) : (s.perform op).Sound filters := by
  cases op with
  | define st => exact h.update (hdefine st rfl)
  | setLimits limits =>
    exact ⟨h.indexed, ⟨h.written.declared⟩, Setting.coherentUnder_empty _ _ _⟩
  | setAnimation animation =>
    exact ⟨h.indexed, ⟨h.written.declared⟩, Setting.coherentUnder_empty _ _ _⟩
  | setTime time =>
    exact h.setConstant ⟨fun hne => absurd rfl hne, fun _ => rfl, fun _ => rfl, fun _ => rfl⟩
  | advanceTime step =>
    exact h.setConstant ⟨fun hne => absurd rfl hne, fun _ => rfl, fun _ => rfl, fun _ => rfl⟩
  | setPosition position =>
    exact h.setConstant ⟨fun _ => rfl, fun hne => absurd rfl hne, fun _ => rfl, fun _ => rfl⟩
  | setScale scale =>
    exact h.setConstant ⟨fun _ => rfl, fun _ => rfl, fun hne => absurd rfl hne, fun _ => rfl⟩
  | setRotation rotation =>
    exact h.setConstant ⟨fun _ => rfl, fun _ => rfl, fun _ => rfl, fun hne => absurd rfl hne⟩
  | invalidate name => exact h.invalidate name
  | values e selection => exact h.answer hrefuses
  | shape e => exact h.answer hrefuses

theorem sound_load {source : String}
    (h : ∀ st ∈ parseScript source, filters = false → st.whenFree) :
    (load source).1.Sound filters where
  indexed := indexed_load source
  written := by
    refine ⟨fun x st hst => ?_⟩
    have hmem := mem_parseScript_of_find? hst
    exact ⟨Statement.wellFormed_of_mem_parseScript hmem, h st hmem⟩
  coherent := by
    rw [memory_load]
    exact Setting.coherentUnder_empty _ _ _

theorem ReachedCarefully.sound (h : s.ReachedCarefully filters) : s.Sound filters := by
  induction h with
  | load h => exact sound_load h
  | perform _ op hdefine hrefuses ih =>
    exact ih.perform op (fun st hst => ⟨(hdefine st hst).1, (hdefine st hst).2⟩) hrefuses

/-- What holds along a run in which no statement has a condition. -/
theorem Reachable.sound (h : s.Reachable fun st => st.whenFree) : s.Sound false :=
  h.carefully.sound

/-! ### What is remembered -/

theorem Sound.acyclic (h : s.Sound filters) (hknown : s.DependenciesKnown) (x : String) :
    s.declarations.Acyclic x :=
  DependencyGraph.acyclic_of_dependencies (fun y hy => h.indexed.graph ▸ hknown y hy) x

theorem Sound.lasts (h : s.Sound filters) (hknown : s.DependenciesKnown) (e : Expr) {α : Type}
    (q : Question α) : Lasts (s.run (q.ask (e.careful filters s.setting .root))).1 fun n =>
      q.ask (e.careful filters (s.setting.within n) .root) :=
  ((h.follows e).ask q).lasts ⟨fun x _ => h.acyclic hknown x, trivial⟩ s.memory h.coherent

/-- Along every run what is remembered is the value of a declared variable: evaluation that starts
with nothing remembered gives the same, unless it reaches a limit. -/
theorem evaluate_forgetAll_of_remembered (h : s.Reachable fun st => st.whenFree)
    (hknown : s.DependenciesKnown) {name : String} {v : Series}
    (hremembered : s.memory.cache.find? name = some v) :
    s.declarations.IsVariable name ∧ GivesUnlessLimited (s.forgetAll.evaluate name .all).1 v := by
  obtain ⟨hvar, hlasts⟩ := h.sound.coherent name v hremembered
  have hforgotten := h.sound.forgetAll.lasts hknown (reference name) (.values .all)
  rw [run_careful (nofun : false = true → _)] at hforgotten
  exact ⟨hvar, hforgotten.givesUnlessLimited (hlasts (h.sound.acyclic hknown name))⟩

/-- It is enough to look at the names in order. -/
theorem dependenciesKnown_of_all (hindexed : s.Indexed)
    (h : s.order.all s.graph.dependencies.contains) : s.DependenciesKnown :=
  fun name hname => List.all_eq_true.mp h name ((hindexed.mem_order name).mpr hname)

/-- A frame of three points that depends on the scale, and an edge that does not. -/
def outlineSource : String :=
  "frame = [corner(p) for p = [edge, scale, time]]; corner(p) = p.xx; edge = rotation.w"

def outline : Session := (load outlineSource).1

set_option maxRecDepth 4000 in
/-- The script is read once; whatever is evaluated of it starts from its statements. -/
theorem parse_outline : ∃ ts us vs, parseScript outlineSource =
    [⟨.variable "frame" (.array [.comprehension (.call "corner" [.identifier "p" ⟨5, 6⟩] ⟨3, 7⟩) "p"
        (.array [.identifier "edge" ⟨11, 12⟩, .identifier "scale" ⟨13, 14⟩,
          .identifier "time" ⟨15, 16⟩] ⟨10, 17⟩) ⟨3, 17⟩] ⟨2, 18⟩), ts⟩,
      ⟨.function "corner" ["p"] (.swizzle (.identifier "p" ⟨5, 6⟩) "xx" ⟨5, 8⟩), us⟩,
      ⟨.variable "edge" (.swizzle (.identifier "rotation" ⟨2, 3⟩) "w" ⟨2, 5⟩), vs⟩] :=
  ⟨_, _, _, by cbv⟩

theorem outline_reachable : outline.Reachable fun st => st.whenFree := by
  obtain ⟨ts, us, vs, hparse⟩ := parse_outline
  have hfree : (parseScript outlineSource).all Statement.whenFree := by
    rw [hparse]
    rfl
  exact .load (List.all_eq_true.mp hfree)

theorem outline_dependenciesKnown : outline.DependenciesKnown := by
  refine dependenciesKnown_of_all (indexed_load outlineSource) ?_
  obtain ⟨ts, us, vs, hparse⟩ := parse_outline
  rw [outline, load, hparse]
  cbv

/-- The session after its frame was drawn and the scale has changed. -/
def rescaled : Session :=
  (outline.perform (.values (reference "frame") .all)).perform (.setScale 1)

theorem cache_rescaled : rescaled.memory.cache = ⟨[("edge", .scalar 1)]⟩ := by
  obtain ⟨ts, us, vs, hparse⟩ := parse_outline
  rw [rescaled, outline, load, hparse]
  cbv

/-- The frame is forgotten; the edge is still remembered, and right. -/
theorem edge_of_rescaled :
    rescaled.memory.cache = ⟨[("edge", .scalar 1)]⟩ ∧
      rescaled.declarations.IsVariable "edge" ∧
      GivesUnlessLimited (rescaled.forgetAll.evaluate "edge" .all).1 (.scalar 1) := by
  have hreachable : rescaled.Reachable fun st => st.whenFree :=
    .perform (.perform outline_reachable (.values (reference "frame") .all) nofun) (.setScale 1)
      nofun
  have hremembered : rescaled.memory.cache.find? "edge" = some (.scalar 1) := by
    rw [cache_rescaled]
    rfl
  exact ⟨cache_rescaled,
    evaluate_forgetAll_of_remembered hreachable outline_dependenciesKnown hremembered⟩

end Session

end VectorScript
