import VectorScript.Proofs.ScalarReads
import VectorScript.Proofs.SessionRuns
import VectorScript.Proofs.SuccessfulRuns

/-!
# Comprehensions over the elements that are kept

A comprehension with a condition gives what the comprehension without it gives over the elements of
the source for which the condition holds.  The loops of the two are not the same: without a
condition, a body that makes runs is asked for its shapes first, and these fix the dimension of the
result; with a condition the first run that has elements fixes it.

* `Comprehension.keptPositions`: the positions of the elements for which a condition holds.
* `Comprehension.eq_of_filtered`: without a memory, both give the same.
* `Setting.HasValue`: the one value that an expression may have in a context.
* `Session.filtered_eq_kept`: along every run of a session, both give the same.
-/

namespace VectorScript

open Filter Meaning

/-! ### Builders -/

namespace Builder

theorem push_ofDimension {d : Nat} {v : Series} {b : Builder} (h : (ofDimension d).push v = .ok b) :
    b = ⟨v.dimension, v.length, [v]⟩ := by
  unfold push at h
  split_ifs at h
  obtain rfl := Except.ok.inj h
  rw [ofDimension, Nat.zero_add]

/-- The dimension that a builder starts with does not matter once something was pushed. -/
theorem finish_eq_of_foldlM_push {ws : List Series} {d d' : Nat} {b b' : Builder}
    (h : ws.foldlM push (.ofDimension d) = .ok b) (h' : ws.foldlM push (.ofDimension d') = .ok b')
    (hd : ws = [] → d ≤ 1 ∧ d' ≤ 1) : b'.finish = b.finish := by
  have hempty : ∀ k ≤ 1, (ofDimension k).finish = .ofValues #[] := by
    intro k hk
    interval_cases k <;> rfl
  cases ws with
  | nil =>
    obtain rfl := pure_eq_ok.mp h
    obtain rfl := pure_eq_ok.mp h'
    rw [hempty d (hd rfl).1, hempty d' (hd rfl).2]
  | cons w ws =>
    rw [List.foldlM_cons] at h h'
    obtain ⟨b₁, hfirst, h⟩ := bind_eq_ok.mp h
    obtain ⟨b₁', hfirst', h'⟩ := bind_eq_ok.mp h'
    obtain rfl : b₁' = b₁ := (push_ofDimension hfirst').trans (push_ofDimension hfirst).symm
    obtain rfl := Except.ok.inj (h.symm.trans h')
    rfl

end Builder

/-! ### Without a memory -/

namespace Comprehension

/-- The positions at which a condition holds. -/
def keptPositions (truths : List Series) : List Nat :=
  (List.range truths.length).filter fun i => truths[i]?.any holds

/-- The elements for which a condition holds. -/
def keptOf (source : Series) (truths : List Series) : Series :=
  source.gather ((keptPositions truths).map fun i : Nat => (i : Int))

theorem elementOf_keptOf {source : Series} (h : source.Regular) {truths : List Series} {k : Nat}
    (hk : k < (keptPositions truths).length) :
    elementOf (keptOf source truths) k = elementOf source ((keptPositions truths).getD k 0) := by
  have hk' : k < ((keptPositions truths).map fun i : Nat => (i : Int)).length := by simpa using hk
  rw [elementOf, keptOf, Series.gather_single_gather h hk', List.getElem_map,
    List.getD_eq_getElem _ _ hk]
  rfl

/-- What a comprehension without a condition has collected.  The dimension that it starts with is no
greater than one if there are no elements. -/
theorem collected_of_meaning {c : Comprehension Plain} {source r : Series}
    (hsource : c.source.values .all = .ok source)
    (hshapes : ∀ i < source.length, ∀ s w, (c.body (elementOf source i)).shape = .ok s →
      (c.body (elementOf source i)).values .all = .ok w → s = w.shape)
    (h : c.meaning.values .all = .ok r) :
    ∃ (vs : Nat → Series) (d : Nat) (b : Builder),
      (∀ i < source.length, (c.body (elementOf source i)).values .all = .ok (vs i)) ∧
      ((List.range source.length).map vs).foldlM c.append (.ofDimension d) = .ok b ∧
      r = b.finish ∧ ((∀ i < source.length, (vs i).length = 0) → d ≤ 1) := by
  unfold Comprehension.meaning at h
  split_ifs at h with hruns
  · obtain ⟨m, hm, h⟩ := bind_eq_ok.mp h
    rw [hsource, ok_bind] at hm
    obtain ⟨p, hp, hm⟩ := bind_eq_ok.mp hm
    obtain rfl := pure_eq_ok.mp hm
    obtain ⟨b, hb, h⟩ := bind_eq_ok.mp h
    obtain ⟨-, rfl⟩ := Builder.build_eq_ok.mp (Answering.liftAt_eq_ok.mp h)
    obtain ⟨vs, hvs, hb⟩ := Foretells.collect_eq_ok.mp hb
    obtain ⟨⟨ts, hts, hfold⟩, -⟩ := Foretells.runs_eq_ok.mp hp
    refine ⟨vs, _, b, hvs, hb, rfl, fun hempty => ?_⟩
    -- runs without elements have shapes without elements, and leave the dimension open
    have hnone := (Foretells.runsOf_nil.foldlM hfold).empty fun t ht => ?_
    · rw [hnone]
      exact Nat.le_refl 1
    · obtain ⟨i, hi, rfl⟩ := List.mem_map.mp ht
      have hi := List.mem_range.mp hi
      rw [hshapes i hi _ _ (hts i hi) (hvs i hi)]
      exact hempty i hi
  · obtain ⟨source', hsource', h⟩ := bind_eq_ok.mp h
    obtain rfl := Except.ok.inj (hsource.symm.trans hsource')
    obtain ⟨b, hb, h⟩ := bind_eq_ok.mp h
    obtain rfl := pure_eq_ok.mp h
    obtain ⟨vs, hvs, hb⟩ := Foretells.collect_eq_ok.mp hb
    exact ⟨vs, 0, b, hvs, hb, rfl, fun _ => Nat.zero_le 1⟩

/-- The elements of a list for which something holds, in a loop that looks at all of them. -/
theorem mapM_filter_eq_ok {p : Nat → Bool} {f : Nat → Plain Series} {os : Nat → Option Series} :
    ∀ {is : List Nat}, (∀ i ∈ is, p i → ∃ w, f i = .ok w ∧ os i = some w) →
      (∀ i ∈ is, ¬ p i → os i = none) → (is.filter p).mapM f = .ok (is.filterMap os)
  | [], _, _ => rfl
  | i :: is, hkept, hleft => by
    have hrest := mapM_filter_eq_ok (fun j hj => hkept j (List.mem_cons_of_mem _ hj))
      fun j hj => hleft j (List.mem_cons_of_mem _ hj)
    by_cases hi : p i
    · obtain ⟨w, hw, ho⟩ := hkept i List.mem_cons_self hi
      rw [List.filter_cons_of_pos hi, List.filterMap_cons_some ho, List.mapM_cons, hw, ok_bind,
        hrest]
      rfl
    · rw [List.filter_cons_of_neg hi, List.filterMap_cons_none (hleft i List.mem_cons_self hi)]
      exact hrest

/-- What a comprehension with a condition has collected: the body for the elements that are kept. -/
theorem collected_of_filtered {c : Comprehension Plain} {condition : Series → Meaning Plain}
    {source r : Series} {truths : List Series} (hsource : c.source.values .all = .ok source)
    (hlength : truths.length = source.length)
    (hcondition : ∀ i t, truths[i]? = some t →
      (condition (elementOf source i)).values .all = .ok t)
    (h : (c.filtered condition).values .all = .ok r) :
    ∃ (ws : List Series) (b : Builder),
      (keptPositions truths).mapM (fun i => (c.body (elementOf source i)).values .all) = .ok ws ∧
      ws.foldlM c.append .empty = .ok b ∧ r = b.finish := by
  obtain ⟨m, hm, h⟩ := bind_eq_ok.mp h
  rw [hsource, ok_bind] at hm
  obtain ⟨b, hb, hm⟩ := bind_eq_ok.mp hm
  obtain ⟨v, hv, hm⟩ := bind_eq_ok.mp hm
  obtain ⟨-, rfl⟩ := Builder.build_eq_ok.mp (Answering.liftAt_eq_ok.mp hv)
  obtain rfl := pure_eq_ok.mp hm
  obtain rfl := pure_eq_ok.mp h
  obtain ⟨os, hos, hb⟩ := Foretells.collectWhen_eq_ok.mp hb
  have hkept : ∀ i ∈ List.range truths.length, ∃ t, truths[i]? = some t ∧
      (holds t ∧ (∃ w, (c.body (elementOf source i)).values .all = .ok w ∧ os i = some w) ∨
        ¬ holds t ∧ os i = none) := by
    intro i hi
    have hi := List.mem_range.mp hi
    have ht := List.getElem?_eq_getElem hi
    obtain ⟨t, hvalue, hcases⟩ := Foretells.kept_eq_ok.mp (hos i (hlength ▸ hi))
    obtain rfl := Except.ok.inj ((hcondition i _ ht).symm.trans hvalue)
    exact ⟨_, ht, hcases⟩
  refine ⟨(List.range truths.length).filterMap os, b, mapM_filter_eq_ok ?_ ?_, ?_, rfl⟩
  · intro i hi hholds
    obtain ⟨t, ht, hcases⟩ := hkept i hi
    rw [ht] at hholds
    exact (hcases.resolve_right fun h => h.1 hholds).2
  · intro i hi hfails
    obtain ⟨t, ht, hcases⟩ := hkept i hi
    rw [ht] at hfails
    exact (hcases.resolve_left fun h => hfails h.1).2
  · rw [hlength]
    exact hb

/-- The body for the elements that are kept, asked for one after the other. -/
theorem mapM_keptPositions {source : Series} (hsource : source.Regular) {truths : List Series}
    {body : Series → Meaning Plain} {vs : Nat → Series}
    (h : ∀ k < (keptOf source truths).length,
      (body (elementOf (keptOf source truths) k)).values .all = .ok (vs k)) :
    (keptPositions truths).mapM (fun i => (body (elementOf source i)).values .all) =
      .ok ((List.range (keptOf source truths).length).map vs) := by
  have hlength : (keptOf source truths).length = (keptPositions truths).length := by
    rw [keptOf, Series.length_gather, List.length_map]
  have hpositions : (List.range (keptPositions truths).length).map
      ((keptPositions truths).getD · 0) = keptPositions truths := by
    apply List.ext_getElem
    · simp
    · intro k hk hk'
      simp [hk']
  rw [hlength] at h ⊢
  conv_lhs => rw [← hpositions]
  refine mapM_map_eq_ok.mpr ⟨vs, rfl, fun k hk => ?_⟩
  have hk := List.mem_range.mp hk
  rw [← elementOf_keptOf hsource hk]
  exact h k hk

/-- Without a memory, a comprehension gives over the elements that are kept what it gives with a
condition, whatever dimension its loop starts from. -/
theorem eq_of_filtered {c c' : Comprehension Plain} {condition : Series → Meaning Plain}
    {source r r' : Series} {truths : List Series}
    (h : (c.filtered condition).values .all = .ok r) (h' : c'.meaning.values .all = .ok r')
    (hregular : source.Regular) (hsource : c.source.values .all = .ok source)
    (hsource' : c'.source.values .all = .ok (keptOf source truths)) (hbody : c'.body = c.body)
    (hlength : truths.length = source.length)
    (hcondition : ∀ i t, truths[i]? = some t →
      (condition (elementOf source i)).values .all = .ok t)
    (hshapes : ∀ i s w, (c.body (elementOf source i)).shape = .ok s →
      (c.body (elementOf source i)).values .all = .ok w → s = w.shape) :
    r' = r := by
  obtain ⟨ws, b, hws, hb, rfl⟩ := collected_of_filtered hsource hlength hcondition h
  have hshapes' : ∀ k < (keptOf source truths).length, ∀ s w,
      (c'.body (elementOf (keptOf source truths) k)).shape = .ok s →
      (c'.body (elementOf (keptOf source truths) k)).values .all = .ok w → s = w.shape := by
    intro k hk
    rw [hbody, elementOf_keptOf hregular (by simpa [keptOf] using hk)]
    exact hshapes _
  obtain ⟨vs, d, b', hvs, hb', rfl, hd⟩ := collected_of_meaning hsource' hshapes' h'
  rw [hbody] at hvs
  -- both loops collect the same series
  obtain rfl : ws = _ := Except.ok.inj (hws.symm.trans (mapM_keptPositions hregular hvs))
  refine Builder.finish_eq_of_foldlM_push (Rules.push_of_foldlM_append hb).1
    (Rules.push_of_foldlM_append hb').1 fun hnil => ⟨Nat.zero_le 1, hd fun k hk => ?_⟩
  have hpart := List.filter_eq_nil_iff.mp hnil (vs k)
    (List.mem_map_of_mem (List.mem_range.mpr hk))
  simpa using hpart

end Comprehension

/-! ### Values in a context -/

/-- The value of an expression in a context: an evaluation from what is rightly remembered gives it,
and every such evaluation gives it, unless it reaches a limit. -/
structure Setting.HasValue (w : Setting) (ctx : Context) (e : Expr) (v : Series) : Prop where
  found : ∃ μ μ' : Memory, w.Coherent μ.cache ∧
    ((e.meaning (m := Eval) w ctx).values .all).run.run μ = (.ok v, μ')
  only : ∀ μ : Memory, w.Coherent μ.cache →
    GivesUnlessLimited (((e.meaning (m := Eval) w ctx).values .all).run.run μ).1 v

/-- What was found from a right memory is found without a memory in the long run. -/
theorem Meaning.Follows.eventually_of_run {I : NameTable Series → Prop} {m : Meaning Eval}
    {M : Nat → Meaning Plain} (h : Follows I True m M) {μ μ' : Memory} (hμ : I μ.cache) {v : Series}
    (hrun : (m.values .all).run.run μ = (.ok v, μ')) :
    ∀ᶠ n in atTop, (M n).values .all = .ok v := by
  have hlasts := (h.values .all).lasts trivial μ hμ
  rw [hrun] at hlasts
  exact hlasts.eventually_ok

/-- The value of a bound name is what it is bound to. -/
theorem Setting.HasValue.eq_of_bound {w : Setting} {ctx : Context} {x : String} {span : Span}
    {u v : Series} (h : w.HasValue (ctx.bind x u) (.identifier x span) v) : v = u := by
  obtain ⟨μ, μ', -, hrun⟩ := h.found
  have hbound : (ctx.bind x u).scope.find? x = some (.value u) := by
    simp [Context.bind, Scope.find?]
  rw [Expr.meaning_bound hbound] at hrun
  exact (run_pure_eq_ok.mp hrun).1.symm

/-- A loop with a condition that succeeds has found a value of the condition for each element. -/
theorem Comprehension.run_collectWhen {c : Comprehension Eval} {condition : Series → Meaning Eval}
    {I : NameTable Series → Prop} {source : Series} {b : Builder} {μ μ' : Memory}
    (hcondition : ∀ x μ, I μ.cache → I (((condition x).values .all).run.run μ).2.cache)
    (hbody : ∀ x μ, I μ.cache → I (((c.body x).values .all).run.run μ).2.cache) (hμ : I μ.cache)
    (hrun : (c.collectWhen condition source).run.run μ = (.ok b, μ')) :
    ∀ i < source.length, ∃ t ν ν', I ν.cache ∧
      ((condition (elementOf source i)).values .all).run.run ν = (.ok t, ν') := by
  have hkeeps : ∀ (b : Builder) (j : Nat) (ν : Memory), I ν.cache → I ((do
      if holds (← (condition (elementOf source j)).values .all) then
        let v ← (c.body (elementOf source j)).values .all
        Answering.ofExcept (c.append b v)
      else return b : Eval Builder).run.run ν).2.cache := by
    intro b j
    refine keeps_bind (hcondition _) fun t => ?_
    split_ifs
    · refine keeps_bind (hbody _) fun u ν hν => ?_
      cases c.append b u with
      | ok b' => exact hν
      | error e => exact hν
    · exact fun ν hν => hν
  intro i hi
  obtain ⟨b₁, b₂, ν, ν', hν, hround⟩ :=
    run_foldlM_rounds hkeeps hμ hrun i (List.mem_range.mpr hi)
  obtain ⟨t, ν₁, ht, -⟩ := run_bind_eq_ok.mp hround
  exact ⟨t, ν, ν₁, hν, ht⟩

namespace Context

/-- No variable is being evaluated, and no argument waits for evaluation. -/
structure Valued (ctx : Context) : Prop where
  opened : ctx.opened = []
  scope : ∀ ds R, ctx.scope.ReadsWithin ds R

theorem valued_root : root.Valued := ⟨rfl, fun _ _ => trivial⟩

theorem Valued.bind {ctx : Context} (h : ctx.Valued) (x : String) (v : Series) :
    (ctx.bind x v).Valued :=
  ⟨h.opened, fun ds R => h.scope ds R⟩

namespace Valued

variable {w : Setting} {ctx : Context} (h : ctx.Valued) (hwritten : w.Written false)
  (hacyclic : ∀ x, w.declarations.Acyclic x)

include h hwritten hacyclic

/-- If no variable depends on itself, every evaluation follows evaluation without a memory. -/
theorem follows (e : Expr) :
    Follows w.Coherent True (e.meaning w ctx) fun n => e.meaning (w.within n) ctx := by
  refine (Expr.follows hwritten ctx e ⟨fun _ _ _ ho => ?_, h.scope _ _⟩).weaken fun _ =>
    ⟨fun x _ => hacyclic x, h.scope _ _⟩
  rw [h.opened] at ho
  exact absurd ho List.not_mem_nil

/-- What is found without a memory foretells what is found under higher limits. -/
theorem foretells (hlinked : ctx.Linked (.ofGuard false (fun _ => true) w ctx.opened) ctx)
    {e : Expr} (he : e.Written false) (n : Nat) :
    Foretells (false = true) (e.meaning (w.within n) ctx) fun n => e.meaning (w.within n) ctx := by
  refine Expr.foretells (Setting.continuedBy_within hwritten n) ctx e ctx hlinked he
    ⟨fun y _ => ⟨hacyclic y, ?_⟩, h.scope _ _⟩
  rw [h.opened]
  exact fun o ho => absurd ho List.not_mem_nil

theorem hasValue {e : Expr} {μ μ' : Memory} (hμ : w.Coherent μ.cache) {v : Series}
    (hrun : ((e.meaning (m := Eval) w ctx).values .all).run.run μ = (.ok v, μ')) :
    w.HasValue ctx e v := by
  have hfollows := h.follows hwritten hacyclic e
  refine ⟨⟨μ, μ', hμ, hrun⟩, fun ν hν => ?_⟩
  exact ((hfollows.values .all).lasts trivial ν hν).givesUnlessLimited
    (hfollows.eventually_of_run hμ hrun)

theorem eventually_of_hasValue {e : Expr} {v : Series} (hv : w.HasValue ctx e v) :
    ∀ᶠ n in atTop, (e.meaning (m := Plain) (w.within n) ctx).values .all = .ok v := by
  obtain ⟨μ, μ', hμ, hrun⟩ := hv.found
  exact (h.follows hwritten hacyclic e).eventually_of_run hμ hrun

/-- A comprehension with a condition that succeeds has found a value of its source, and a value of
the condition for each of the elements. -/
theorem values_of_filtered {body source condition : Expr} {x : String} {span : Span} {r : Series}
    {μ μ' : Memory} (hμ : w.Coherent μ.cache)
    (hrun : (((Expr.filtered body x source condition span).meaning (m := Eval) w ctx).values
      .all).run.run μ = (.ok r, μ')) :
    ∃ (v : Series) (truths : List Series) (μ₁ : Memory),
      ((source.meaning (m := Eval) w ctx).values .all).run.run μ = (.ok v, μ₁) ∧
      truths.length = v.length ∧ ∀ i t, truths[i]? = some t →
        w.HasValue (ctx.bind x (Comprehension.elementOf v i)) condition t := by
  have hkeeps := fun (e : Expr) (u : Series) =>
    (((h.bind x u).follows hwritten hacyclic e).values .all).keeps
  rw [Expr.meaning_eq_meaningBy, Expr.meaningBy_filtered] at hrun
  obtain ⟨m, μ₁, hfind, -⟩ := run_bind_eq_ok.mp hrun
  obtain ⟨v, μ₂, hsource, hfind⟩ := run_bind_eq_ok.mp hfind
  obtain ⟨b, μ₃, hcollect, -⟩ := run_bind_eq_ok.mp hfind
  have hμ₂ : w.Coherent μ₂.cache := by
    have hkept := ((h.follows hwritten hacyclic source).values .all).keeps μ hμ
    exact (congrArg (fun ran => w.Coherent ran.2.cache) hsource).mp hkept
  have htruths : ∀ i < v.length, ∃ t,
      w.HasValue (ctx.bind x (Comprehension.elementOf v i)) condition t := by
    intro i hi
    obtain ⟨t, ν, ν', hν, ht⟩ :=
      Comprehension.run_collectWhen (hkeeps condition) (hkeeps body) hμ₂ hcollect i hi
    exact ⟨t, (h.bind x _).hasValue hwritten hacyclic hν ht⟩
  choose! t ht using htruths
  refine ⟨v, (List.range v.length).map t, μ₂, hsource, by simp, fun i t' hi => ?_⟩
  obtain ⟨hlt, rfl⟩ := List.getElem?_eq_some_iff.mp hi
  simpa using ht i (by simpa using hlt)

end Valued

end Context

/-! ### Sessions -/

namespace Session

variable {s : Session}

theorem run_of_evaluateExpr {e : Expr} {r : Series} (h : (s.evaluateExpr e .all).1 = .ok r) :
    ∃ μ', ((e.meaning (m := Eval) s.setting .root).values .all).run.run s.memory = (.ok r, μ') :=
  ⟨_, Prod.ext h rfl⟩

/-- What a session finds is found without a memory in the long run. -/
theorem Sound.eventually_values (h : s.Sound false) (hacyclic : ∀ x, s.declarations.Acyclic x)
    {e : Expr} {r : Series} (hr : (s.evaluateExpr e .all).1 = .ok r) :
    ∀ᶠ n in atTop, (e.meaning (m := Plain) (s.setting.within n) .root).values .all = .ok r := by
  obtain ⟨μ', hrun⟩ := run_of_evaluateExpr hr
  exact (Context.valued_root.follows h.written hacyclic e).eventually_of_run
    (Setting.coherentUnder_false.mp h.coherent) hrun

/-- Along every run of a session, a comprehension with a condition gives what the comprehension
without it gives over the elements for which the condition holds.  The source has a value `v`, and
the condition has a value for each of its elements.  The elements that are kept may be found by any
expression, and in any session of the same setting, whatever it remembers. -/
theorem filtered_eq_kept (h : s.Reachable fun st => st.whenFree) (hknown : s.DependenciesKnown)
    {body source condition : Expr} {x : String} {span : Span} {r : Series} (hbody : body.Simple)
    (hsource : source.Simple)
    (hr : (s.evaluateExpr (.filtered body x source condition span) .all).1 = .ok r) :
    ∃ (v : Series) (truths : List Series), (s.evaluateExpr source .all).1 = .ok v ∧
      truths.length = v.length ∧
      (∀ i t, truths[i]? = some t →
        s.setting.HasValue (Context.root.bind x (Comprehension.elementOf v i)) condition t) ∧
      ∀ s' : Session, (s'.Reachable fun st => st.whenFree) → s'.setting = s.setting →
        ∀ (source' : Expr) (span' : Span) (r' : Series),
          (s'.evaluateExpr source' .all).1 = .ok (Comprehension.keptOf v truths) →
          (s'.evaluateExpr (.comprehension body x source' span') .all).1 = .ok r' → r' = r := by
  have hwritten : s.setting.Written false := h.sound.written
  have hacyclic : ∀ y, s.setting.declarations.Acyclic y := h.sound.acyclic hknown
  have hroot := Context.valued_root
  obtain ⟨μ', hrun⟩ := run_of_evaluateExpr hr
  obtain ⟨v, truths, μ₁, hsourceRun, hlength, htruths⟩ :=
    hroot.values_of_filtered hwritten hacyclic
      (Setting.coherentUnder_false.mp h.sound.coherent) hrun
  have hgiven : (s.evaluateExpr source .all).1 = .ok v := congrArg Prod.fst hsourceRun
  refine ⟨v, truths, hgiven, hlength, htruths,
    fun s' hs' hsetting source' span' r' hkept hover => ?_⟩
  have hacyclic' : ∀ y, s'.setting.declarations.Acyclic y := hsetting ▸ hacyclic
  -- in the long run all of this is found without a memory
  have hover := hs'.sound.eventually_values hacyclic' hover
  have hkept := hs'.sound.eventually_values hacyclic' hkept
  rw [hsetting] at hover hkept
  have hconditions : ∀ᶠ n in atTop, ∀ i < truths.length, ∀ t, truths[i]? = some t →
      (condition.meaning (m := Plain) (s.setting.within n)
        (Context.root.bind x (Comprehension.elementOf v i))).values .all = .ok t := by
    refine eventually_forall_lt fun i hi => ?_
    have ht := List.getElem?_eq_getElem hi
    filter_upwards [(hroot.bind x _).eventually_of_hasValue hwritten hacyclic (htruths i _ ht)]
      with n hn t ht'
    rw [hn, Option.some.inj (ht.symm.trans ht')]
  obtain ⟨n, hfiltered, hgiven, hover, hkept, hconditions⟩ :=
    ((h.sound.eventually_values hacyclic hr).and ((h.sound.eventually_values hacyclic hgiven).and
      (hover.and (hkept.and hconditions)))).exists
  have hsized : v.Sized (false = true) :=
    ((hroot.foretells hwritten hacyclic ⟨rfl, .root⟩ hsource.written n).all hgiven).1
  rw [Expr.meaning_eq_meaningBy, Expr.meaningBy_filtered] at hfiltered
  rw [Expr.meaning_eq_meaningBy, Expr.meaningBy_comprehension] at hover
  refine Comprehension.eq_of_filtered hfiltered hover hsized.regular hgiven hkept rfl hlength
    (fun i t ht => ?_) fun i s w hs hw => ?_
  · exact hconditions i (List.getElem?_eq_some_iff.mp ht).1 t ht
  · have helement := Foretells.sized_elementOf hsized i
    exact ((hroot.bind x _).foretells hwritten hacyclic ⟨rfl, .value helement .root⟩
      hbody.written n).shape_eq_of_all hs hw

/-- The numbers of a source that are not zero: `p for p = source when p`. -/
def nonzero (source : Expr) : Expr :=
  .filtered (reference "p") "p" source (reference "p") .none

def clockAndScale : Expr := .array [reference "time", reference "scale"] .none

theorem blank_reachable : blank.Reachable fun st => st.whenFree := by
  have hfree : (parseScript "").all Statement.whenFree := by cbv
  exact .load (List.all_eq_true.mp hfree)

theorem isSome_nonzero_clockAndScale :
    (blank.evaluateExpr (nonzero clockAndScale) .all).1.toOption.isSome := by
  show ((((nonzero clockAndScale).meaning (m := Eval) blank.setting .root).values .all).run.run
    blank.memory).1.toOption.isSome
  rw [← Expr.careful_false, Expr.careful_eq_iterate 8]
  decide +kernel

/-- Of the time and the scale only the scale is not zero at first, so what is kept is what the
comprehension gives over the scale alone. -/
theorem nonzero_clockAndScale :
    (blank.evaluateExpr (nonzero clockAndScale) .all).1 = .ok ⟨1, [#[1]]⟩ := by
  have hgiven : (blank.evaluateExpr clockAndScale .all).1 = .ok ⟨2, [#[0, 1]]⟩ := by cbv
  have hkept : (blank.evaluateExpr (.array [reference "scale"] .none) .all).1 =
      .ok ⟨1, [#[1]]⟩ := by cbv
  have hover : (blank.evaluateExpr (.comprehension (reference "p") "p"
      (.array [reference "scale"] .none) .none) .all).1 = .ok ⟨1, [#[1]]⟩ := by cbv
  have hknown : blank.DependenciesKnown :=
    dependenciesKnown_of_all blank_reachable.indexed (by cbv)
  cases hr : (blank.evaluateExpr (nonzero clockAndScale) .all).1 with
  | error e =>
    have hsome := isSome_nonzero_clockAndScale
    rw [hr] at hsome
    cases hsome
  | ok r =>
    obtain ⟨v, truths, hv, hlength, htruths, heq⟩ := filtered_eq_kept blank_reachable hknown
      ⟨by rfl, by rfl⟩ ⟨by rfl, by rfl⟩ hr
    obtain rfl : (⟨2, [#[0, 1]]⟩ : Series) = v := Except.ok.inj (hgiven.symm.trans hv)
    obtain ⟨t₀, t₁, rfl⟩ := List.length_eq_two.mp hlength
    obtain rfl := (htruths 0 t₀ rfl).eq_of_bound
    obtain rfl := (htruths 1 t₁ rfl).eq_of_bound
    have hpositions : Comprehension.keptPositions [Comprehension.elementOf ⟨2, [#[0, 1]]⟩ 0,
        Comprehension.elementOf ⟨2, [#[0, 1]]⟩ 1] = [1] := by decide +kernel
    rw [Comprehension.keptOf, hpositions] at heq
    exact congrArg Except.ok (heq blank blank_reachable rfl _ _ _ hkept hover).symm

end Session

end VectorScript
