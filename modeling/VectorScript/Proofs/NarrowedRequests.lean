import VectorScript.Proofs.ArrayLimits
import VectorScript.Proofs.FollowingEvaluation

/-!
# Narrowed requests

Indices out of range name no element, so a request may leave them out.  Most nodes do that
themselves: they find their length first and ask their parts for elements in range only.  From one
memory, two requests of such a node that name the same elements end alike, and leave one memory.

* `Meaning.NarrowsAt`: requests for the same of the first elements end alike.
* `Meaning.HasLengthAt`: no other length is found than a given one.
* `Meaning.narrowsAt_elementwise` and others: nodes that find their length themselves.
-/

namespace VectorScript

namespace Meaning

/-- From a memory, requests for the same of the first `n` elements end alike: if one succeeds so
does the other, and both leave one memory. -/
def NarrowsAt (a : Meaning Eval) (n : Nat) (μ : Memory) : Prop :=
  ∀ ⦃S S' : List Int⦄ ⦃v : Series⦄ ⦃μ' : Memory⦄,
    S.filter (inRange n) = S'.filter (inRange n) →
    (a.values (.at S)).run.run μ = (.ok v, μ') → ∃ v', (a.values (.at S')).run.run μ = (.ok v', μ')

/-- From a memory, a shape that is found has length `n`. -/
def HasLengthAt (a : Meaning Eval) (n : Nat) (μ : Memory) : Prop :=
  ∀ ⦃s : Shape⦄ ⦃μ' : Memory⦄, a.shape.run.run μ = (.ok s, μ') → s.length = n

variable {a : Meaning Eval} {n : Nat} {μ : Memory} {α β : Type}

/-! ### Ways to answer -/

/-- What is found before a request is answered has the length, and only the elements in range are
asked for. -/
theorem narrowsAt_of_asks (find : Eval α) (length : α → Nat) (ask : α → List Int → Eval β)
    (pick : α → β → List Int → Series)
    (hvalues : ∀ S, a.values (.at S) = do
      let p ← find
      let q ← ask p (S.filter (inRange (length p)))
      return pick p q S)
    (hlength : ∀ {p μ₁}, find.run.run μ = (.ok p, μ₁) → length p = n) : a.NarrowsAt n μ := by
  intro S S' v μ' hsame h
  rw [hvalues] at h
  obtain ⟨p, μ₁, hp, h⟩ := run_bind_eq_ok.mp h
  obtain ⟨q, μ₂, hq, h⟩ := run_bind_eq_ok.mp h
  obtain ⟨-, rfl⟩ := run_pure_eq_ok.mp h
  rw [hlength hp, hsame, ← hlength hp] at hq
  rw [hvalues]
  exact ⟨pick p q S', run_bind_eq_ok.mpr ⟨p, μ₁, hp, run_bind_eq_ok.mpr ⟨q, _, hq, rfl⟩⟩⟩

/-- What is found before a request is answered is all that is needed. -/
theorem narrowsAt_of_selects (find : Eval α) (pick : α → List Int → Series)
    (hvalues : ∀ S, a.values (.at S) = do return pick (← find) S) : a.NarrowsAt n μ := by
  intro S S' v μ' _ h
  rw [hvalues] at h
  obtain ⟨p, μ₁, hp, h⟩ := run_bind_eq_ok.mp h
  obtain ⟨-, rfl⟩ := run_pure_eq_ok.mp h
  rw [hvalues]
  exact ⟨pick p S', run_bind_eq_ok.mpr ⟨p, _, hp, rfl⟩⟩

theorem narrowsAt_const (v : Series) : (const v : Meaning Eval).NarrowsAt n μ :=
  narrowsAt_of_selects (pure v) (fun v S => v.gather S) fun _ => rfl

theorem narrowsAt_nan (s : Shape) : (nan s : Meaning Eval).NarrowsAt n μ :=
  narrowsAt_of_selects (pure (Series.nan s)) (fun v S => v.gather S) fun _ => rfl

theorem narrowsAt_fail (site : Site) (cause : EvalError.Cause) :
    (fail site cause : Meaning Eval).NarrowsAt n μ :=
  fun _ _ _ _ _ h => absurd h run_fail_ne_ok

/-- Requests are left to a meaning that is found before. -/
theorem narrowsAt_of_bind (find : Eval α) (f : α → Meaning Eval)
    (hvalues : ∀ S, a.values (.at S) = find >>= fun p => (f p).values (.at S))
    (h : ∀ {p μ₁}, find.run.run μ = (.ok p, μ₁) → (f p).NarrowsAt n μ₁) : a.NarrowsAt n μ := by
  intro S S' v μ' hsame hrun
  rw [hvalues] at hrun
  obtain ⟨p, μ₁, hp, hrun⟩ := run_bind_eq_ok.mp hrun
  obtain ⟨v', hrun'⟩ := h hp hsame hrun
  rw [hvalues]
  exact ⟨v', run_bind_eq_ok.mpr ⟨p, μ₁, hp, hrun'⟩⟩

theorem narrowsAt_after {find : Eval (Meaning Eval)}
    (h : ∀ {b μ₁}, find.run.run μ = (.ok b, μ₁) → b.NarrowsAt n μ₁) :
    (after find).NarrowsAt n μ :=
  narrowsAt_of_bind find id (fun _ => rfl) h

theorem HasLengthAt.of_after {find : Eval (Meaning Eval)} {b : Meaning Eval} {μ₁ : Memory}
    (h : (after find).HasLengthAt n μ) (hb : find.run.run μ = (.ok b, μ₁)) : b.HasLengthAt n μ₁ :=
  fun _ _ hs => h (run_bind_eq_ok.mpr ⟨b, μ₁, hb, hs⟩)

/-! ### Nodes -/

theorem narrowsAt_elementwise {site : Site} {check : List Shape → Except EvalError.Cause Shape}
    {combine : List Series → Except EvalError.Cause Series} {operands : List (Meaning Eval)}
    (h : (elementwise site check combine operands).HasLengthAt n μ) :
    (elementwise site check combine operands).NarrowsAt n μ := by
  refine narrowsAt_of_asks
    (do
      let shapes ← operands.mapM (·.shape)
      let s ← Answering.liftAt site (check shapes)
      return (shapes, s))
    (fun p => p.2.length)
    (fun p valid => do
      let values ← (operands.zip p.1).mapM fun (operand, t) =>
        operand.values (.at (if t.length = 1 then [0] else valid))
      Answering.liftAt site (combine values))
    (fun p v S => v.scatter S p.2.length) (fun S => ?_) fun {p μ₁} hp => ?_
  · simp only [elementwise, bind_assoc, pure_bind]
  · obtain ⟨shapes, μ₂, hshapes, hp⟩ := run_bind_eq_ok.mp hp
    obtain ⟨s, μ₃, hs, hp⟩ := run_bind_eq_ok.mp hp
    obtain ⟨rfl, -⟩ := run_pure_eq_ok.mp hp
    exact h (run_bind_eq_ok.mpr ⟨shapes, μ₂, hshapes, hs⟩)

theorem narrowsAt_reduced (f : Array Float32 → Float32) (arg : Meaning Eval) :
    (reduced f arg).NarrowsAt n μ :=
  narrowsAt_of_selects (arg.values .all) (fun v S => (Builtin.reduceChannels f v).gather S)
    fun _ => rfl

theorem narrowsAt_whole {site : Site} {f : List Series → Except EvalError.Cause Series}
    {rule : List Shape → Except EvalError.Cause Shape} {args : List (Meaning Eval)} :
    (whole site f rule args).NarrowsAt n μ := by
  refine narrowsAt_of_selects
    (do
      let values ← args.mapM (·.values .all)
      Answering.liftAt site (f values))
    (fun v S => v.gather S) fun S => ?_
  simp only [whole, bind_assoc]
  rfl

theorem narrowsAt_ofKernel {site : Site} {name : String} {args : List (Meaning Eval)}
    {kernel : Kernel} (h : (ofKernel site name args kernel).HasLengthAt n μ) :
    (ofKernel site name args kernel).NarrowsAt n μ := by
  cases kernel with
  | map f => exact narrowsAt_elementwise h
  | zip f => exact narrowsAt_elementwise h
  | reduce f => exact narrowsAt_reduced f _
  | whole f rule => exact narrowsAt_whole
  | reserved => exact narrowsAt_fail _ _

/-- A builtin is counted first, which leaves the cache as it is. -/
theorem narrowsAt_builtin {site : Site} {b : Builtin} {args : List (Meaning Eval)}
    (h : ∀ {ν : Memory}, ν.cache = μ.cache → (builtin site b args).HasLengthAt n ν) :
    (builtin site b args).NarrowsAt n μ := by
  refine narrowsAt_of_bind Answering.countBuiltin
    (fun _ => ofKernel site b.name args b.kernel) (fun _ => rfl) fun {_ μ₁} hcount => ?_
  obtain rfl : { μ with builtinCalls := μ.builtinCalls + 1 } = μ₁ := congrArg Prod.snd hcount
  exact narrowsAt_ofKernel (h rfl)

theorem narrowsAt_ofBuiltinCall {site : Site} {name : String} {args : List (Meaning Eval)}
    (h : ∀ {ν : Memory}, ν.cache = μ.cache → (ofBuiltinCall site name args).HasLengthAt n ν) :
    (ofBuiltinCall site name args).NarrowsAt n μ := by
  unfold ofBuiltinCall at h ⊢
  split
  · rename_i b hlookup
    simp only [hlookup] at h
    exact narrowsAt_builtin h
  · split_ifs <;> exact narrowsAt_fail _ _
  · exact narrowsAt_fail _ _

theorem narrowsAt_range {site lowerSite upperSite : Site} {limit : Nat}
    {lower upper : Meaning Eval} :
    (range site lowerSite upperSite limit lower upper).NarrowsAt n μ := by
  refine narrowsAt_after fun h => ?_
  obtain ⟨lo, _, -, h⟩ := run_bind_eq_ok.mp h
  obtain ⟨hi, _, -, h⟩ := run_bind_eq_ok.mp h
  obtain ⟨r, _, -, h⟩ := run_bind_eq_ok.mp h
  obtain ⟨rfl, -⟩ := run_pure_eq_ok.mp h
  exact narrowsAt_of_selects (pure r) (fun r S => r.values (.at S)) fun _ => rfl

/-! ### Variables -/

theorem narrowsAt_recalledOr {name : String} {other : Meaning Eval}
    (h : μ.cache.find? name = none → other.NarrowsAt n μ) :
    (recalledOr name other).NarrowsAt n μ := by
  intro S S' v μ' hsame hrun
  rw [run_values_recalledOr, recalled] at hrun ⊢
  cases hfind : μ.cache.find? name with
  | some u =>
    rw [hfind] at hrun
    exact narrowsAt_const u hsame hrun
  | none =>
    rw [hfind] at hrun
    exact h hfind hsame hrun

/-- The evaluation of a body is counted first, which leaves the cache as it is. -/
theorem narrowsAt_ofVariable {name : String} {body : Meaning Eval}
    (h : ∀ {ν : Memory}, ν.cache = μ.cache → body.NarrowsAt n ν) :
    (ofVariable name body).NarrowsAt n μ := by
  refine narrowsAt_of_bind Answering.countStatement (fun _ => body) (fun S => ?_)
    fun {_ μ₁} hcount => ?_
  · simp [ofVariable]
  · obtain rfl : { μ with statementEvaluations := μ.statementEvaluations + 1 } = μ₁ :=
      congrArg Prod.snd hcount
    exact h rfl

theorem narrowsAt_ofUndeclared {animation : Animation} {site : Site} {name : String} :
    (ofUndeclared animation site name : Meaning Eval).NarrowsAt n μ := by
  unfold ofUndeclared
  split
  · exact narrowsAt_const _
  · split_ifs <;> exact narrowsAt_fail _ _

end Meaning

/-! ### Segments -/

/-- Segments are asked for the elements in range. -/
theorem Routing.requestsOf_congr {lengths : List Nat} {S S' : List Int}
    (h : S.filter (inRange (total lengths)) = S'.filter (inRange (total lengths))) (k : Nat) :
    (ofLengths lengths S).requests.getD k #[] = (ofLengths lengths S').requests.getD k #[] := by
  have hsplit : ∀ T : List Int, (T.filter fun i => inRange (total lengths) i &&
      ownerOf lengths i == k) = (T.filter (inRange (total lengths))).filter
        (ownerOf lengths · == k) := fun T => by
    rw [List.filter_filter]
    exact List.filter_congr fun i _ => Bool.and_comm _ _
  refine Array.toList_inj.mp ?_
  rw [(routes_ofLengths lengths S).requests, (routes_ofLengths lengths S').requests, hsplit, hsplit,
    h]

namespace Meaning

variable {n : Nat} {μ μ' : Memory}

/-- What the segments are asked for. -/
def askSegments (lengths : List Nat) (S : List Int) (segment : Nat → List Int → Eval Series) :
    Eval (List (Option Series)) :=
  (List.range lengths.length).mapM fun k =>
    let requested := (Routing.ofLengths lengths S).requests.getD k #[]
    if requested.isEmpty then pure none else some <$> segment k requested.toList

theorem run_gatherSegments_eq_ok {site : Site} {lengths : List Nat} {d : Nat} {S : List Int}
    {segment : Nat → List Int → Eval Series} {v : Series} :
    (gatherSegments site lengths d S segment).run.run μ = (.ok v, μ') ↔
      Routing.total lengths ≤ maxLength ∧ ∃ parts,
        (askSegments lengths S segment).run.run μ = (.ok parts, μ') ∧
          v = (Routing.ofLengths lengths S).assemble d parts.toArray := by
  constructor
  · intro h
    have htotal : Routing.total lengths ≤ maxLength := by
      obtain ⟨starts, _, -, h⟩ := run_bind_eq_ok.mp h
      obtain ⟨total, _, hcount, -⟩ := run_bind_eq_ok.mp h
      exact (run_count_eq_ok.mp hcount).1
    rw [gatherSegments_of_le htotal] at h
    obtain ⟨parts, μ₁, hparts, h⟩ := run_bind_eq_ok.mp h
    obtain ⟨rfl, rfl⟩ := run_pure_eq_ok.mp h
    rw [Routing.length_starts] at hparts
    exact ⟨htotal, parts, hparts, rfl⟩
  · rintro ⟨htotal, parts, hparts, rfl⟩
    rw [gatherSegments_of_le htotal, readSegments, Routing.length_starts]
    exact run_bind_eq_ok.mpr ⟨parts, μ', hparts, rfl⟩

theorem run_gatherSegments_congr {site : Site} {lengths : List Nat} {d : Nat} {S S' : List Int}
    {segment : Nat → List Int → Eval Series} {v : Series}
    (hsame : S.filter (inRange (Routing.total lengths)) =
      S'.filter (inRange (Routing.total lengths)))
    (h : (gatherSegments site lengths d S segment).run.run μ = (.ok v, μ')) :
    ∃ v', (gatherSegments site lengths d S' segment).run.run μ = (.ok v', μ') := by
  obtain ⟨htotal, parts, hparts, -⟩ := run_gatherSegments_eq_ok.mp h
  refine ⟨_, run_gatherSegments_eq_ok.mpr ⟨htotal, parts, ?_, rfl⟩⟩
  simpa only [askSegments, Routing.requestsOf_congr hsame] using hparts

theorem arrayLiteral_values_of_many {m : Type → Type} [Answering m] {site : Site} {limit : Nat}
    {items : List (Item m)} (hmany : items.length ≠ 1) (S : List Int) :
    (arrayLiteral site limit items).values (.at S) = (do
      let shapes ← items.mapM (·.meaning.shape)
      let s ← Answering.ofExcept (arrayShape site limit (items.map Item.toRules) shapes)
      gatherSegments site (shapes.map Shape.length) s.dimension S fun k wanted =>
        (items.getD k default).meaning.values (.at wanted)) := by
  rcases items with _ | ⟨item, _ | ⟨item', rest⟩⟩
  · rfl
  · exact absurd rfl hmany
  · rfl

theorem narrowsAt_arrayLiteral {site : Site} {limit : Nat} {items : List (Item Eval)}
    (hmany : items.length ≠ 1) (h : (arrayLiteral site limit items).HasLengthAt n μ) :
    (arrayLiteral site limit items).NarrowsAt n μ := by
  intro S S' v μ' hsame hrun
  rw [arrayLiteral_values_of_many hmany] at hrun
  obtain ⟨shapes, μ₁, hshapes, hrun⟩ := run_bind_eq_ok.mp hrun
  obtain ⟨s, μ₂, hs, hrun⟩ := run_bind_eq_ok.mp hrun
  have hn : s.length = n := h (run_bind_eq_ok.mpr ⟨shapes, μ₁, hshapes, hs⟩)
  have hlength : shapes.length = (items.map Item.toRules).length := by
    rw [List.length_map, run_mapM_length hshapes]
  -- the shape counts no further than `maxLength`, but routing refuses what is longer
  obtain ⟨htotal, -⟩ := run_gatherSegments_eq_ok.mp hrun
  obtain ⟨-, hsum⟩ := length_of_arrayShape hlength (run_ofExcept_eq_ok.mp hs).1
  have htotal : Routing.total (shapes.map Shape.length) = n := by omega
  obtain ⟨v', hrun'⟩ := run_gatherSegments_congr (htotal ▸ hsame) hrun
  refine ⟨v', ?_⟩
  rw [arrayLiteral_values_of_many hmany]
  exact run_bind_eq_ok.mpr ⟨shapes, μ₁, hshapes, run_bind_eq_ok.mpr ⟨s, μ₂, hs, hrun'⟩⟩

end Meaning

namespace Comprehension

open Meaning

variable {c : Comprehension Eval} {n : Nat} {μ μ' : Memory}

theorem narrowsAt_filtered (condition : Series → Meaning Eval) :
    (c.filtered condition).NarrowsAt n μ := by
  refine narrowsAt_after fun h => ?_
  obtain ⟨source, _, -, h⟩ := run_bind_eq_ok.mp h
  obtain ⟨b, _, -, h⟩ := run_bind_eq_ok.mp h
  obtain ⟨v, _, -, h⟩ := run_bind_eq_ok.mp h
  obtain ⟨rfl, -⟩ := run_pure_eq_ok.mp h
  exact narrowsAt_const _

theorem narrowsAt_single (h : c.single.HasLengthAt n μ) : c.single.NarrowsAt n μ := by
  refine narrowsAt_of_asks c.singleShape Shape.length
    (fun s valid => do
      let source ← c.source.values (.at valid)
      c.collect source (.ofDimension s.dimension))
    (fun s b S => b.finish.scatter S s.length) (fun S => ?_) fun hs => h hs
  simp only [single, bind_assoc]

/-- The whole length of the runs is the sum of their lengths, as far as that can be counted. -/
theorem total_of_runs {source : Series} {r : Runs}
    (h : (c.runs source).run.run μ = (.ok r, μ')) :
    r.total = min (Routing.total r.lengths.toList) maxLength := by
  obtain ⟨r', _, hr, h⟩ := run_bind_eq_ok.mp h
  obtain ⟨-, h⟩ := run_check_eq_ok.mp h
  obtain ⟨rfl, -⟩ := run_pure_eq_ok.mp h
  refine run_foldlM_induction (I := fun r : Runs =>
    r.total = min (Routing.total r.lengths.toList) maxLength) (fun {b a μ b' μ'} hb h => ?_) rfl hr
  obtain ⟨s, _, -, h⟩ := run_bind_eq_ok.mp h
  obtain ⟨h, -⟩ := run_ofExcept_eq_ok.mp h
  have hsum : min (b.total + s.length) maxLength =
      min (Routing.total (b.lengths.push s.length).toList) maxLength := by
    rw [Array.toList_push, Builder.total_append, hb]
    omega
  unfold Rules.addRun at h
  dsimp only at h
  split_ifs at h <;> cases h <;> exact hsum

theorem narrowsAt_ofRuns {source : Series} {r : Runs}
    (htotal : r.total = min (Routing.total r.lengths.toList) maxLength) :
    (c.ofRuns source r).NarrowsAt r.total μ := by
  have hvalues : ∀ S, (c.ofRuns source r).values (.at S) =
      gatherSegments c.site r.lengths.toList (r.dimension.getD 1) S fun k wanted =>
        (c.body (elementOf source k)).values (.at wanted) := fun _ => rfl
  intro S S' v μ' hsame h
  rw [hvalues] at h ⊢
  obtain ⟨hle, -⟩ := run_gatherSegments_eq_ok.mp h
  rw [htotal, Nat.min_eq_left hle] at hsame
  exact run_gatherSegments_congr hsame h

theorem narrowsAt_nested (h : c.nested.HasLengthAt n μ) : c.nested.NarrowsAt n μ := by
  refine narrowsAt_after fun hfind => ?_
  have hlength := h.of_after hfind
  obtain ⟨source, _, -, hfind⟩ := run_bind_eq_ok.mp hfind
  obtain ⟨r, _, hr, hfind⟩ := run_bind_eq_ok.mp hfind
  obtain ⟨rfl, -⟩ := run_pure_eq_ok.mp hfind
  obtain rfl : r.total = n := hlength (run_pure_eq_ok.mpr ⟨rfl, rfl⟩)
  exact narrowsAt_ofRuns (total_of_runs hr)

end Comprehension

end VectorScript
