import VectorScript.Proofs.CheckedReads
import VectorScript.Proofs.Termination

/-!
# Checked nodes

Nodes that check what they do: where a series is read outside of its values, or a series comes up
that is not formed, a checked node leaves neither an answer nor a memory.  Each checked node answers
as the node without checks does, if its parts do, and its answers are formed.

* `Checked.Passes`: a checked computation ends as the one without checks.
* `Meaning.Passes`: the same for meanings; elements that are asked for are answered one for one.
* `Meaning.checkedElementwise`, `Meaning.checkedConditional`, `Meaning.checkedBuiltin`: the nodes
  that read operands, with checks.
-/

namespace VectorScript

/-! ### Checks -/

instance Shape.decidableFormed (s : Shape) : Decidable s.Formed :=
  decidable_of_iff (0 < s.dimension ∧ s.dimension ≤ 4) ⟨fun h => ⟨h.1, h.2⟩, fun h => ⟨h.1, h.2⟩⟩

instance Series.decidableFormed (v : Series) : Decidable v.Formed :=
  decidable_of_iff ((∀ c ∈ v.channels, c.size = v.length) ∧ v.shape.Formed)
    ⟨fun h => ⟨h.1, h.2⟩, fun h => ⟨h.1, h.2⟩⟩

/-- The answer to a request for values is formed, and has an element for each one asked for. -/
def Series.Answers (v : Series) : Selection → Prop
  | .all => v.Formed
  | .at indices => v.Formed ∧ v.length = indices.length

instance Series.decidableAnswers (v : Series) : (selection : Selection) →
    Decidable (v.Answers selection)
  | .all => inferInstanceAs (Decidable v.Formed)
  | .at indices => inferInstanceAs (Decidable (v.Formed ∧ v.length = indices.length))

namespace Checked

/-- Goes on only if something is found. -/
def ofOption {α : Type} : Option α → Unending α
  | some a => pure a
  | none => ExceptT.mk fun _ => none

/-- Goes on only if a property holds. -/
def require (p : Prop) [Decidable p] : Unending Unit :=
  if p then pure () else ExceptT.mk fun _ => none

/-- Goes on only with a series that is formed. -/
def formed (v : Series) : Unending Series := do
  require v.Formed
  return v

theorem formed_eq {v : Series} (hv : v.Formed) : formed v = pure v := by
  rw [formed, require, if_pos hv]
  rfl

/-- A result that was found and is formed; the cause of an error is placed at a site. -/
def foundAt (site : Site) (x : Option (Except EvalError.Cause Series)) : Unending Series := do
  formed (← Answering.liftAt site (← ofOption x))

end Checked

/-- The same answers, if they pass the checks. -/
def Meaning.watched (a : Meaning Unending) : Meaning Unending where
  shape := do
    let s ← a.shape
    Checked.require s.Formed
    return s
  values selection := do
    let v ← a.values selection
    Checked.require (v.Answers selection)
    return v

/-! ### Series that are formed -/

namespace Series

variable {v : Series}

theorem Answers.formed {selection : Selection} (h : v.Answers selection) : v.Formed := by
  cases selection with
  | all => exact h
  | «at» indices => exact h.1

theorem formed_gather (hv : v.Formed) (indices : List Int) : (v.gather indices).Formed := by
  refine ⟨regular_gather v indices, ?_⟩
  rw [shape_gather]
  exact ⟨hv.shape.dimension_pos, hv.shape.dimension_le⟩

theorem answers_select (hv : v.Formed) (selection : Selection) :
    (v.select selection).Answers selection := by
  cases selection with
  | all => exact hv
  | «at» indices => exact ⟨formed_gather hv indices, rfl⟩

theorem formed_ofFn {s : Shape} (hs : s.Formed) (f : Nat → Nat → Float32) : (ofFn s f).Formed := by
  refine ⟨regular_ofFn s f, ?_⟩
  rwa [shape_ofFn]

theorem formed_nan {s : Shape} (hs : s.Formed) : (nan s).Formed := by
  rw [nan_eq_ofFn]
  exact formed_ofFn hs _

theorem formed_ofValues (values : Array Float32) : (ofValues values).Formed :=
  ⟨regular_ofValues values, Shape.formed_numbers _⟩

theorem formed_vector {components : List Float32} (hpos : 0 < components.length)
    (hle : components.length ≤ 4) : (vector components).Formed := by
  refine ⟨regular_vector components, ?_⟩
  rw [shape_vector]
  exact ⟨hpos, hle⟩

theorem formed_scalar (x : Float32) : (scalar x).Formed := by
  show (vector [x]).Formed
  exact formed_vector Nat.one_pos (by simp)

theorem formed_components (hv : v.Regular) {picks : List Nat}
    (hpicks : ∀ c ∈ picks, c < v.dimension) (hpos : 0 < picks.length) (hle : picks.length ≤ 4) :
    (v.components picks).Formed := by
  refine ⟨regular_components hv hpicks, ?_⟩
  rw [shape_components]
  exact ⟨hpos, hle⟩

theorem formed_shapes {vs : List Series} (h : ∀ v ∈ vs, v.Formed) :
    ∀ t ∈ vs.map shape, t.Formed := by
  intro t ht
  obtain ⟨v, hv, rfl⟩ := List.mem_map.mp ht
  exact (h v hv).shape

theorem formed_reduceChannels (hv : v.Formed) (f : Array Float32 → Float32) :
    (Builtin.reduceChannels f v).Formed := by
  have hlength : (v.channels.map f).length = v.dimension := List.length_map f
  refine formed_vector ?_ ?_
  · rw [hlength]
    exact hv.shape.dimension_pos
  · rw [hlength]
    exact hv.shape.dimension_le

end Series

/-! ### Computations that pass -/

namespace Checked

/-- All remembered series are formed. -/
def FormedCache (cache : NameTable Series) : Prop :=
  ∀ name v, cache.find? name = some v → v.Formed

theorem formedCache_empty : FormedCache .empty := by
  intro name v h
  cases h

theorem FormedCache.insert {cache : NameTable Series} (h : FormedCache cache) (name : String)
    {v : Series} (hv : v.Formed) : FormedCache (cache.insert name v) :=
  NameTable.forall_insert h name hv

/-- From every memory of formed series a checked computation ends, with the answer and the memory of
the computation without checks.  A result has the property `P`, and all that is remembered stays
formed. -/
def Passes {α : Type} (P : α → Prop) (x : Unending α) (y : Eval α) : Prop :=
  ∀ μ : Memory, FormedCache μ.cache → x.run.run μ = some (y.run.run μ) ∧
    FormedCache (y.run.run μ).2.cache ∧ ∀ a, (y.run.run μ).1 = .ok a → P a

namespace Passes

variable {α β ι : Type} {P : α → Prop} {Q : β → Prop} {site : Site}

theorem mono {P' : α → Prop} {x : Unending α} {y : Eval α} (h : Passes P x y)
    (hP : ∀ a, P a → P' a) : Passes P' x y := by
  intro μ hμ
  obtain ⟨hrun, hcache, hresult⟩ := h μ hμ
  exact ⟨hrun, hcache, fun a ha => hP a (hresult a ha)⟩

theorem pure {a : α} (h : P a) : Passes P (Pure.pure a) (Pure.pure a) := by
  intro μ hμ
  refine ⟨rfl, hμ, fun b hb => ?_⟩
  cases hb
  exact h

theorem raise (e : EvalError) : Passes P (Answering.raise e) (Answering.raise e) := by
  intro μ hμ
  refine ⟨rfl, hμ, fun a ha => ?_⟩
  cases ha

theorem bind {x : Unending α} {y : Eval α} {f : α → Unending β} {g : α → Eval β}
    (h : Passes P x y) (hf : ∀ a, P a → Passes Q (f a) (g a)) : Passes Q (x >>= f) (y >>= g) := by
  intro μ hμ
  obtain ⟨hrun, hcache, hresult⟩ := h μ hμ
  rw [run_bind, ExceptT.run_bind, StateT.run_bind, hrun]
  rcases hy : y.run.run μ with ⟨r, μ'⟩
  rw [hy] at hcache hresult
  cases r with
  | ok a => exact hf a (hresult a rfl) μ' hcache
  | error e =>
    refine ⟨rfl, hcache, fun a ha => ?_⟩
    cases ha

/-! ### Errors -/

theorem fail (cause : EvalError.Cause) :
    Passes P (Answering.fail site cause) (Answering.fail site cause) :=
  raise _

/-- Nothing follows an error. -/
theorem fail_bind (cause : EvalError.Cause) {f : α → Unending β} {g : α → Eval β} :
    Passes Q (Answering.fail site cause >>= f) (Answering.fail site cause >>= g) :=
  bind (fail (P := fun _ => False) cause) fun _ => False.elim

theorem ofExcept {x : Except EvalError α} (h : ∀ a, x = .ok a → P a) :
    Passes P (Answering.ofExcept x) (Answering.ofExcept x) := by
  cases x with
  | ok a => exact pure (h a rfl)
  | error e => exact raise e

theorem liftAt {x : Except EvalError.Cause α} (h : ∀ a, x = .ok a → P a) :
    Passes P (Answering.liftAt site x) (Answering.liftAt site x) := by
  cases x with
  | ok a => exact pure (h a rfl)
  | error cause => exact fail cause

theorem count (n : Nat) :
    Passes (fun _ => True) (Answering.count site n) (Answering.count site n) := by
  unfold Answering.count
  split_ifs
  · exact pure trivial
  · exact fail (.fault .overflow)

/-! ### The memory -/

theorem countBuiltin : Passes (fun _ => True) Answering.countBuiltin Answering.countBuiltin :=
  fun _ hμ => ⟨rfl, hμ, fun _ _ => trivial⟩

theorem countStatement :
    Passes (fun _ => True) Answering.countStatement Answering.countStatement :=
  fun _ hμ => ⟨rfl, hμ, fun _ _ => trivial⟩

theorem remember (name : String) {v : Series} (hv : v.Formed) :
    Passes (fun _ => True) (Answering.remember name v) (Answering.remember name v) :=
  fun _ hμ => ⟨rfl, hμ.insert name hv, fun _ _ => trivial⟩

theorem remembered? (name : String) :
    Passes (fun found => ∀ v, found = some v → v.Formed) (Answering.remembered? name)
      (Answering.remembered? name) := by
  intro μ hμ
  refine ⟨rfl, hμ, fun found hfound v hv => ?_⟩
  cases hfound
  exact hμ name v hv

/-! ### Checks that hold -/

theorem ofOption {x : Option α} {a : α} (hx : x = some a) (ha : P a) :
    Passes P (Checked.ofOption x) (Pure.pure a) := by
  subst hx
  exact pure ha

/-- What is required after a computation holds if the result of the computation says so. -/
theorem required {x : Unending α} {y : Eval α} (h : Passes P x y) (p : α → Prop)
    [∀ a, Decidable (p a)] (hp : ∀ a, P a → p a) :
    Passes P (x >>= fun a => require (p a) >>= fun _ => Pure.pure a) y := by
  intro μ hμ
  obtain ⟨hrun, hcache, hresult⟩ := h μ hμ
  refine ⟨?_, hcache, hresult⟩
  rw [ExceptT.run_bind, StateT.run_bind, hrun]
  rcases hy : y.run.run μ with ⟨r, μ'⟩
  rw [hy] at hresult
  cases r with
  | error e => rfl
  | ok a =>
    have hrequire : require (p a) = Pure.pure () := if_pos (hp a (hresult a rfl))
    show (require (p a) >>= fun _ => Pure.pure a : Unending α).run.run μ' = _
    rw [hrequire]
    rfl

theorem foundAt {x? : Option (Except EvalError.Cause Series)} {x : Except EvalError.Cause Series}
    (hfound : x? = some x) {P : Series → Prop} (h : ∀ v, x = .ok v → v.Formed ∧ P v) :
    Passes P (Checked.foundAt site x?) (Answering.liftAt site x) := by
  subst hfound
  exact ((liftAt h).required Series.Formed fun v hv => hv.1).mono fun v hv => hv.2

/-! ### Lists of computations -/

theorem mapM : ∀ {items : List ι} {f : ι → Unending α} {g : ι → Eval α},
    (∀ i ∈ items, Passes P (f i) (g i)) →
      Passes (fun as => as.length = items.length ∧ ∀ a ∈ as, P a) (items.mapM f) (items.mapM g)
  | [], _, _, _ => pure ⟨rfl, by simp⟩
  | i :: items, f, g, h => by
    simp only [List.mapM_cons]
    refine bind (h i List.mem_cons_self) fun a ha => ?_
    refine bind (mapM fun j hj => h j (List.mem_cons_of_mem _ hj)) fun as has => ?_
    refine pure ⟨by simp [has.1], fun b hb => ?_⟩
    rcases List.mem_cons.mp hb with rfl | hb
    · exact ha
    · exact has.2 b hb

/-- What one step keeps, and counts, all steps do. -/
theorem foldlM (J : Nat → α → Prop) : ∀ {items : List ι} {f : α → ι → Unending α}
    {g : α → ι → Eval α} {k : Nat} {a : α}, J k a →
      (∀ k a, J k a → ∀ i ∈ items, Passes (J (k + 1)) (f a i) (g a i)) →
      Passes (J (k + items.length)) (items.foldlM f a) (items.foldlM g a)
  | [], _, _, _, _, ha, _ => pure ha
  | i :: items, f, g, k, a, ha, h => by
    simp only [List.foldlM_cons]
    refine bind (h k a ha i List.mem_cons_self) fun b hb => ?_
    have hrest := foldlM J hb fun k a ha j hj => h k a ha j (List.mem_cons_of_mem _ hj)
    rwa [List.length_cons, Nat.add_comm items.length, ← Nat.add_assoc]

end Passes

end Checked

/-! ### Meanings that pass -/

/-- Two meanings have the same answers, and these are formed. -/
structure Meaning.Passes (a : Meaning Unending) (b : Meaning Eval) : Prop where
  shape : Checked.Passes Shape.Formed a.shape b.shape
  values : ∀ selection,
    Checked.Passes (·.Answers selection) (a.values selection) (b.values selection)

/-- Two computations find meanings, and whatever is asked of these passes. -/
structure Meaning.Finds (find : Unending (Meaning Unending)) (find' : Eval (Meaning Eval)) :
    Prop where
  asked : ∀ {α : Type} {P : α → Prop} {ask : Meaning Unending → Unending α}
    {ask' : Meaning Eval → Eval α},
    (∀ a b, Meaning.Passes a b → Checked.Passes P (ask a) (ask' b)) →
    Checked.Passes P (find >>= ask) (find' >>= ask')

namespace Meaning

theorem Finds.pure {a : Meaning Unending} {b : Meaning Eval} (h : a.Passes b) :
    Finds (Pure.pure a) (Pure.pure b) := by
  refine ⟨fun hask => ?_⟩
  simp only [pure_bind]
  exact hask a b h

theorem Finds.bind {α : Type} {P : α → Prop} {x : Unending α} {y : Eval α}
    {f : α → Unending (Meaning Unending)} {g : α → Eval (Meaning Eval)}
    (h : Checked.Passes P x y) (hf : ∀ a, P a → Finds (f a) (g a)) :
    Finds (x >>= f) (y >>= g) := by
  refine ⟨fun hask => ?_⟩
  simp only [bind_assoc]
  exact h.bind fun a ha => (hf a ha).asked hask

/-- Of a series that is checked something is found, and without a check the same. -/
theorem Finds.formed {v : Series} (hv : v.Formed) {f : Series → Unending (Meaning Unending)}
    {find : Eval (Meaning Eval)} (h : Finds (f v) find) : Finds (Checked.formed v >>= f) find := by
  refine ⟨fun hask => ?_⟩
  rw [Checked.formed_eq hv]
  simp only [pure_bind]
  exact h.asked hask

namespace Passes

variable {a b c : Meaning Unending} {a' b' c' : Meaning Eval} {site : Site}

theorem watched (h : a.Passes a') : a.watched.Passes a' :=
  ⟨h.shape.required Shape.Formed fun _ hs => hs,
    fun selection => (h.values selection).required (·.Answers selection) fun _ hv => hv⟩

theorem const {v : Series} (hv : v.Formed) : (Meaning.const v).Passes (.const v) :=
  ⟨.pure hv.shape, fun selection => .pure (Series.answers_select hv selection)⟩

theorem nan {s : Shape} (hs : s.Formed) : (Meaning.nan s).Passes (.nan s) :=
  ⟨.pure hs, fun selection => .pure (Series.answers_select (Series.formed_nan hs) selection)⟩

theorem fail (cause : EvalError.Cause) : (Meaning.fail site cause).Passes (.fail site cause) :=
  ⟨.fail cause, fun _ => .fail cause⟩

theorem delay {f : Unit → Meaning Unending} {g : Unit → Meaning Eval} (h : (f ()).Passes (g ())) :
    (Meaning.delay f).Passes (.delay g) :=
  ⟨.bind (.pure trivial) fun _ (_ : True) => h.shape,
    fun selection => .bind (.pure trivial) fun _ (_ : True) => h.values selection⟩

theorem after {find : Unending (Meaning Unending)} {find' : Eval (Meaning Eval)}
    (h : Finds find find') : (Meaning.after find).Passes (.after find') :=
  ⟨h.asked fun _ _ hm => hm.shape, fun selection => h.asked fun _ _ hm => hm.values selection⟩

/-! ### Variables and functions -/

theorem recalledOr (name : String) (h : a.Passes a') :
    (Meaning.recalledOr name a).Passes (.recalledOr name a') := by
  refine after (.bind (.remembered? name) fun found hfound => ?_)
  cases found with
  | none => exact .pure h
  | some v => exact .pure (const (hfound v rfl))

theorem ofVariable (name : String) (h : a.Passes a') :
    (Meaning.ofVariable name a).Passes (.ofVariable name a') := by
  refine ⟨h.shape, fun selection => ?_⟩
  refine .bind .countStatement fun _ _ => .bind (h.values selection) fun v hv => ?_
  split_ifs
  · exact .bind (.remember name hv.formed) fun _ _ => .pure hv
  · exact .pure hv

section

variable {ι : Type} {items : List ι} {f : ι → Meaning Unending} {g : ι → Meaning Eval}

theorem mapM_shape (h : ∀ i ∈ items, (f i).Passes (g i)) :
    Checked.Passes (fun shapes => shapes.length = items.length ∧ ∀ s ∈ shapes, s.Formed)
      ((items.map f).mapM (·.shape)) ((items.map g).mapM (·.shape)) := by
  simp only [List.mapM_map]
  exact .mapM fun i hi => (h i hi).shape

theorem mapM_values (h : ∀ i ∈ items, (f i).Passes (g i)) :
    Checked.Passes (fun values => values.length = items.length ∧ ∀ v ∈ values, v.Formed)
      ((items.map f).mapM (·.values .all)) ((items.map g).mapM (·.values .all)) := by
  simp only [List.mapM_map]
  exact .mapM fun i hi => (h i hi).values .all

theorem call {applied : List Series → Meaning Unending} {applied' : List Series → Meaning Eval}
    (h : ∀ i ∈ items, (f i).Passes (g i))
    (happlied : ∀ vs, vs.length = items.length → (∀ v ∈ vs, v.Formed) →
      (applied vs).Passes (applied' vs))
    (hdeferred : a.Passes a') :
    (Meaning.call (items.map f) applied a).Passes (.call (items.map g) applied' a') where
  shape := hdeferred.shape
  values
    | .all => .bind (mapM_values h) fun vs hvs => (happlied vs hvs.1 hvs.2).values .all
    | .at indices => hdeferred.values (.at indices)

end

/-! ### Elements, components and ranges -/

theorem index (h : a.Passes a') (h' : b.Passes b') :
    (Meaning.index site a b).Passes (.index site a' b') where
  shape := by
    refine .bind h'.shape fun positions _ => ?_
    split_ifs
    · exact .fail_bind _
    · exact .bind h.shape fun s hs => .pure ⟨hs.dimension_pos, hs.dimension_le⟩
  values selection := by
    refine .bind (h'.values selection) fun positions hpositions => ?_
    split_ifs with hdim
    · exact .fail_bind _
    -- the target is asked for as many elements as there are positions
    have hsize : (positions.channel 0).size = positions.length :=
      hpositions.formed.regular.size_channel hpositions.formed.shape.dimension_pos
    refine (h.values _).mono fun v hv => ?_
    cases selection with
    | all => exact hv.1
    | «at» indices => exact ⟨hv.1, by simpa [hsize, hpositions.2] using hv.2⟩

theorem swizzle {components : String} (hpos : 0 < components.toList.length)
    (hle : components.toList.length ≤ 4) (h : a.Passes a') :
    (Meaning.swizzle site components a).Passes (.swizzle site components a') := by
  have hpicks : ∀ {d : Nat} {picks : List Nat}, channelsOf components d = .ok picks →
      picks.length = components.toList.length ∧ ∀ c ∈ picks, c < d := Foretells.channelsOf_eq_ok
  refine ⟨.bind h.shape fun s _ => .bind (.liftAt fun _ => hpicks) fun picks hp => .pure ?_,
    fun selection => .bind (h.values selection) fun v hv =>
      .bind (.liftAt fun _ => hpicks) fun picks hp => .pure ?_⟩
  · rw [← hp.1] at hpos hle
    exact ⟨hpos, hle⟩
  · have hformed : (v.components picks).Formed :=
      Series.formed_components hv.formed.regular hp.2 (by omega) (by omega)
    cases selection with
    | all => exact hformed
    | «at» indices => exact ⟨hformed, hv.2⟩

theorem bound (h : a.Passes a') :
    Checked.Passes (fun _ => True) (Meaning.bound site a) (Meaning.bound site a') := by
  refine .bind h.shape fun s _ => ?_
  split_ifs
  · exact .fail_bind _
  · exact .bind (h.values .all) fun v _ => .pure trivial

theorem answers_range (r : Range) (selection : Selection) :
    (r.values selection).Answers selection := by
  cases selection with
  | all => exact Series.formed_ofValues _
  | «at» indices => exact ⟨Series.formed_ofValues _, by simp [Range.values, Series.ofValues]⟩

theorem range {lowerSite upperSite : Site} (limit : Nat) (h : a.Passes a') (h' : b.Passes b') :
    (Meaning.range site lowerSite upperSite limit a b).Passes
      (.range site lowerSite upperSite limit a' b') := by
  refine after (.bind (bound h) fun lo _ => .bind (bound h') fun hi _ => ?_)
  refine .bind (.liftAt fun _ _ => trivial) fun r (_ : True) => .pure ⟨?_, fun selection => ?_⟩
  · exact .pure (Shape.formed_numbers r.length)
  · exact .pure (answers_range r selection)

/-! ### Element-wise nodes -/

end Passes

/-- `elementwise` with checks: `combine?` may find nothing. -/
def checkedElementwise (site : Site) (check : List Shape → Except EvalError.Cause Shape)
    (combine? : List Series → Option (Except EvalError.Cause Series))
    (operands : List (Meaning Unending)) : Meaning Unending where
  shape := do
    let shapes ← operands.mapM (·.shape)
    Answering.liftAt site (check shapes)
  values
    | .all => do
      let values ← operands.mapM (·.values .all)
      Checked.foundAt site (combine? values)
    | .at indices => do
      let shapes ← operands.mapM (·.shape)
      let s ← Answering.liftAt site (check shapes)
      let valid := indices.filter (inRange s.length)
      let values ← (operands.zip shapes).mapM fun (operand, t) =>
        operand.values (.at (if t.length = 1 then [0] else valid))
      let v ← Checked.foundAt site (combine? values)
      Checked.ofOption (v.scatter? indices s.length)

/-- An operation on `n` operands that finds all it reads, and keeps to four components. -/
structure Finding (n : Nat) (check : List Shape → Except EvalError.Cause Shape)
    (combine? : List Series → Option (Except EvalError.Cause Series))
    (combine : List Series → Except EvalError.Cause Series) : Prop where
  pointwise : ∃ value, Pointwise n check combine value
  found : ∀ {vs}, vs.length = n → (∀ v ∈ vs, v.Formed) → combine? vs = some (combine vs)
  formed : ∀ {ts s}, ts.length = n → (∀ t ∈ ts, t.Formed) → check ts = .ok s → s.Formed

section

variable {n : Nat} {check : List Shape → Except EvalError.Cause Shape}
  {combine? : List Series → Option (Except EvalError.Cause Series)}
  {combine : List Series → Except EvalError.Cause Series} {vs : List Series} {v : Series}

/-- The result of formed operands is formed.  It has one element, or as many as an operand. -/
theorem Finding.result (h : Finding n check combine? combine) (hn : vs.length = n)
    (hvs : ∀ v ∈ vs, v.Formed) (hcombine : combine vs = .ok v) :
    v.Formed ∧ (v.length = 1 ∨ ∃ u ∈ vs, v.length = u.length) := by
  obtain ⟨value, hpointwise⟩ := h.pointwise
  have hregular : ∀ v ∈ vs, v.Regular := fun v hv => (hvs v hv).regular
  obtain ⟨hcheck, hv⟩ := hpointwise.check_of_combine hn hregular hcombine
  have hlength : v.length = Shape.commonLength (vs.map Series.shape) :=
    hpointwise.length_eq (by simpa using hn) hcheck
  constructor
  · rw [hv]
    exact Series.formed_ofFn (h.formed (by simpa using hn) (Series.formed_shapes hvs) hcheck) _
  · rcases Shape.commonLength_spec (vs.map Series.shape) with ⟨hone, -⟩ | ⟨t, ht, hcommon, -⟩
    · exact .inl (hlength.trans hone)
    · obtain ⟨u, hu, rfl⟩ := List.mem_map.mp ht
      exact .inr ⟨u, hu, hlength.trans hcommon.symm⟩

theorem finding_map (f : Float32 → Float32) :
    Finding 1 (fun shapes => .ok (shapes.headD .scalar))
      (fun values => differing <$> Series.zipMap? values fun xs => f (xs.headD Scalar.nan))
      (fun values => .ok ((values.headD default).map f)) where
  pointwise := ⟨_, pointwise_map f⟩
  found {vs} hn hvs := by
    obtain ⟨v, rfl⟩ := List.length_eq_one_iff.mp hn
    have hregular : ∀ u ∈ [v], u.Regular := fun u hu => (hvs u hu).regular
    have hzip := (pointwise_zipMap 1 (fun m => .differingDimensions m.expected m.found)
      fun xs => f (xs.headD Scalar.nan)).combine_of_check rfl hregular
        (mapError_eq_ok.mpr (Shape.broadcast_singleton v.shape))
    rw [Series.zipMap?_eq hregular]
    refine congrArg some (hzip.trans ?_)
    rw [List.headD_cons, Series.map_eq_ofFn (hregular v List.mem_cons_self)]
    rfl
  formed {ts s} hn hts hs := by
    obtain ⟨t, rfl⟩ := List.length_eq_one_iff.mp hn
    cases hs
    exact hts t List.mem_cons_self

theorem finding_zipMap (n : Nat) (cause : DimensionMismatch → EvalError.Cause)
    (f : List Float32 → Float32) :
    Finding n (fun shapes => (Shape.broadcast shapes).mapError cause)
      (fun values => (·.mapError cause) <$> Series.zipMap? values f)
      (fun values => (Series.zipMap values f).mapError cause) where
  pointwise := ⟨_, pointwise_zipMap n cause f⟩
  found {vs} _ hvs := by
    rw [Series.zipMap?_eq fun v hv => (hvs v hv).regular]
    rfl
  formed _ hts hs := Shape.formed_of_broadcast hts (mapError_eq_ok.mp hs)

theorem finding_vector (hpos : 0 < n) (hle : n ≤ 4) :
    Finding n vectorShape vectorOf? vectorOf where
  pointwise := ⟨_, pointwise_vector hpos⟩
  found _ hvs := vectorOf?_eq fun v hv => (hvs v hv).regular
  formed {ts s} hn _ hs := by
    obtain ⟨-, rfl⟩ := vectorShape_eq_ok.mp hs
    subst hn
    exact ⟨hpos, hle⟩

/-- An element-wise node asks its operands for one element or for those in range, so its result can
be spread over all indices. -/
theorem Passes.elementwise {ι : Type} {items : List ι} {f : ι → Meaning Unending}
    {g : ι → Meaning Eval} {site : Site} (h : ∀ i ∈ items, (f i).Passes (g i))
    (hfinding : Finding items.length check combine? combine) :
    (checkedElementwise site check combine? (items.map f)).Passes
      (.elementwise site check combine (items.map g)) := by
  have hcheck : ∀ shapes : List Shape,
      (shapes.length = items.length ∧ ∀ s ∈ shapes, s.Formed) →
        ∀ s, check shapes = .ok s → s.Formed :=
    fun shapes hshapes s hs => hfinding.formed hshapes.1 hshapes.2 hs
  refine ⟨.bind (mapM_shape h) fun shapes hshapes => .liftAt (hcheck shapes hshapes),
    fun selection => ?_⟩
  cases selection with
  | all =>
    refine .bind (mapM_values h) fun values hvalues => ?_
    refine .foundAt (hfinding.found hvalues.1 hvalues.2) fun v hv => ?_
    have hresult := (hfinding.result hvalues.1 hvalues.2 hv).1
    exact ⟨hresult, hresult⟩
  | «at» indices =>
    refine .bind (mapM_shape h) fun shapes hshapes => ?_
    refine .bind (.liftAt (hcheck shapes hshapes)) fun s hs => ?_
    have hoperands : Checked.Passes (fun values => values.length = items.length ∧ ∀ v ∈ values,
        v.Formed ∧ (v.length = 1 ∨ v.length = (indices.filter (inRange s.length)).length))
        (((items.map f).zip shapes).mapM fun (operand, t) =>
          operand.values (.at (if t.length = 1 then [0] else indices.filter (inRange s.length))))
        (((items.map g).zip shapes).mapM fun (operand, t) =>
          operand.values
            (.at (if t.length = 1 then [0] else indices.filter (inRange s.length)))) := by
      have hcount : (items.zip shapes).length = items.length := by simp [hshapes.1]
      simp only [List.zip_map_left, List.mapM_map]
      rw [← hcount]
      refine .mapM fun p hp => ((h p.1 (List.of_mem_zip hp).1).values _).mono fun v hv => ?_
      refine ⟨hv.1, ?_⟩
      have hlength := hv.2
      split_ifs at hlength
      · exact .inl hlength
      · exact .inr hlength
    refine .bind hoperands fun values hvalues => ?_
    have hformed : ∀ v ∈ values, v.Formed := fun v hv => (hvalues.2 v hv).1
    refine .bind (P := fun v => v.Formed ∧
      (v.length = 1 ∨ v.length = (indices.filter (inRange s.length)).length)) ?_ fun v hv => ?_
    · refine .foundAt (hfinding.found hvalues.1 hformed) fun v hv => ?_
      obtain ⟨hv, hone | ⟨u, hu, heq⟩⟩ := hfinding.result hvalues.1 hformed hv
      · exact ⟨hv, hv, .inl hone⟩
      · rw [heq]
        exact ⟨hv, hv, (hvalues.2 u hu).2⟩
    · exact .ofOption (Series.scatter?_eq hv.1.regular hv.2)
        ⟨Series.formed_scatter hv.1 _ _, Series.length_scatter _ _ _⟩

end

/-- `mapped` with checks, as an operation on one broadcast operand. -/
def checkedMapped (site : Site) (f : Float32 → Float32) (operands : List (Meaning Unending)) :
    Meaning Unending :=
  checkedElementwise site (fun shapes => .ok (shapes.headD .scalar))
    (fun values => differing <$> Series.zipMap? values fun xs => f (xs.headD Scalar.nan)) operands

def checkedUnary (site : Site) (op : UnaryOp) (operand : Meaning Unending) : Meaning Unending :=
  match op with
  | .plus => operand
  | .negate => checkedMapped site (fun x => -x) [operand]
  | .not => checkedMapped site (fun x => Scalar.ofBool (x == 0)) [operand]
  | .factorial => checkedMapped site Scalar.factorial [operand]

def checkedBinary (site : Site) (op : BinaryOp) (left right : Meaning Unending) :
    Meaning Unending :=
  checkedElementwise site (fun shapes => differing (Shape.broadcast shapes))
    (fun values => differing <$> Series.zipMap? values fun
      | [a, b] => op.apply a b
      | _ => Scalar.nan) [left, right]

def checkedVector (site : Site) (items : List (Meaning Unending)) : Meaning Unending :=
  checkedElementwise site vectorShape vectorOf? items

/-- `conditional` with checks. -/
def checkedConditional (site : Site) (consequent condition alternative : Meaning Unending) :
    Meaning Unending :=
  after do
    if (← condition.shape) = .scalar then
      let c := (← condition.values .all).first
      if c.isNaN then
        let s ← consequent.shape
        let _ ← Checked.formed (Series.nan s)
        return nan s
      else if c != 0 then return consequent
      else return alternative
    else
      return checkedElementwise site (fun shapes => differing (Shape.broadcast shapes))
        (fun values => differing <$> Series.zipMap? values choose)
        [consequent, condition, alternative]

namespace Passes

variable {a b c : Meaning Unending} {a' b' c' : Meaning Eval} {site : Site}

section

variable {ι : Type} {items : List ι} {f : ι → Meaning Unending} {g : ι → Meaning Eval}

theorem mapped (h : ∀ i ∈ items, (f i).Passes (g i)) (hone : items.length = 1)
    (k : Float32 → Float32) :
    (checkedMapped site k (items.map f)).Passes (.mapped site k (items.map g)) :=
  elementwise h (hone ▸ finding_map k)

theorem vector (h : ∀ i ∈ items, (f i).Passes (g i)) (hpos : 0 < items.length)
    (hle : items.length ≤ 4) :
    (checkedVector site (items.map f)).Passes (.vector site (items.map g)) :=
  elementwise h (finding_vector hpos hle)

end

theorem unary (op : UnaryOp) (h : a.Passes a') :
    (checkedUnary site op a).Passes (.unary site op a') := by
  have hitems : ∀ _ ∈ [()], a.Passes a' := fun _ _ => h
  have hmapped : ∀ k, (checkedMapped site k [a]).Passes (.mapped site k [a']) := fun k =>
    (mapped hitems rfl k :)
  unfold checkedUnary Meaning.unary
  cases op with
  | plus => exact h
  | negate => exact hmapped _
  | not => exact hmapped _
  | factorial => exact hmapped _

theorem binary (op : BinaryOp) (h : a.Passes a') (h' : b.Passes b') :
    (checkedBinary site op a b).Passes (.binary site op a' b') := by
  have hitems : ∀ first ∈ [true, false],
      (if first then a else b).Passes (if first then a' else b') := by
    intro first _
    cases first
    · exact h'
    · exact h
  exact elementwise hitems (finding_zipMap 2 _ _)

theorem conditional (h₁ : a.Passes a') (h₂ : b.Passes b') (h₃ : c.Passes c') :
    (checkedConditional site a b c).Passes (.conditional site a' b' c') := by
  refine after (.bind h₂.shape fun s _ => ?_)
  split_ifs
  · refine .bind (h₂.values .all) fun v _ => ?_
    dsimp only
    split_ifs
    · exact .bind h₁.shape fun s hs => .formed (Series.formed_nan hs) (.pure (nan hs))
    · exact .pure h₁
    · exact .pure h₃
  · have hitems : ∀ k ∈ [0, 1, 2], (if k = 0 then a else if k = 1 then b else c).Passes
        (if k = 0 then a' else if k = 1 then b' else c') := by
      intro k _
      split_ifs
      · exact h₁
      · exact h₂
      · exact h₃
    exact .pure (elementwise hitems (finding_zipMap 3 _ _))

end Passes

/-! ### Calls of builtins -/

/-- `reduced` with checks. -/
def checkedReduced (f : Array Float32 → Float32) (arg : Meaning Unending) : Meaning Unending where
  shape := do return ⟨1, (← arg.shape).dimension⟩
  values selection := do
    let v ← Checked.formed (Builtin.reduceChannels f (← arg.values .all))
    return v.select selection

/-- `whole` with checks: the kernel may find nothing. -/
def checkedWhole (site : Site) (kernel : List Series → Option (Except EvalError.Cause Series))
    (rule : List Shape → Except EvalError.Cause Shape) (args : List (Meaning Unending)) :
    Meaning Unending where
  shape := do
    let shapes ← args.mapM (·.shape)
    let s ← Answering.liftAt site (rule shapes)
    return ⟨← Answering.count site s.length, s.dimension⟩
  values selection := do
    let values ← args.mapM (·.values .all)
    let v ← Checked.foundAt site (kernel values)
    return v.select selection

/-- `ofKernel` with checks. -/
def checkedOfKernel (site : Site) (name : String) (args : List (Meaning Unending)) :
    Kernel → Meaning Unending
  | .map f => checkedMapped site f args
  | .zip f =>
    checkedElementwise site (Builtin.broadcastArgs name)
      (fun values => Builtin.orInvalid name "arguments differ in dimension" <$>
        Series.zipMap? values fun
          | [a, b] => f a b
          | _ => Scalar.nan) args
  | .reduce f => checkedReduced f (args.headD default)
  | .whole f rule => checkedWhole site (Builtin.checkedKernel name f) rule args
  | .reserved => fail site (.notImplemented name)

/-- `builtin` with checks. -/
def checkedBuiltin (site : Site) (b : Builtin) (args : List (Meaning Unending)) :
    Meaning Unending :=
  let answers := checkedOfKernel site b.name args b.kernel
  { shape := answers.shape
    values := fun selection => do
      Answering.countBuiltin
      answers.values selection }

/-- `ofBuiltinCall` with checks. -/
def checkedBuiltinCall (site : Site) (name : String) (args : List (Meaning Unending)) :
    Meaning Unending :=
  match Catalog.lookup name args.length with
  | .ok (some b) => checkedBuiltin site b args
  | .ok none =>
    if Catalog.isConstant name then fail site (.identifierNotFunction name)
    else fail site (.undefinedIdentifier name)
  | .error cause => fail site cause

namespace Passes

variable {a : Meaning Unending} {a' : Meaning Eval} {site : Site} {ι : Type} {items : List ι}
  {f : ι → Meaning Unending} {g : ι → Meaning Eval}

theorem reduced (k : Array Float32 → Float32) (h : a.Passes a') :
    (checkedReduced k a).Passes (.reduced k a') where
  shape := .bind h.shape fun s hs => .pure ⟨hs.dimension_pos, hs.dimension_le⟩
  values selection := by
    refine .bind (h.values .all) fun v hv => ?_
    have hreduced := Series.formed_reduceChannels hv k
    rw [Checked.formed_eq hreduced]
    exact .pure (Series.answers_select hreduced selection)

theorem whole {accepts : Nat → Bool} {kernel : List Series → Except EvalError.Cause Series}
    {kernel? : List Series → Option (Except EvalError.Cause Series)}
    {rule : List Shape → Except EvalError.Cause Shape} (hfits : Kernel.Fits accepts kernel rule)
    (hcount : accepts items.length)
    (hfound : ∀ vs, (∀ v ∈ vs, v.Regular) → kernel? vs = some (kernel vs))
    (h : ∀ i ∈ items, (f i).Passes (g i)) :
    (checkedWhole site kernel? rule (items.map f)).Passes
      (.whole site kernel rule (items.map g)) where
  shape := by
    refine .bind (mapM_shape h) fun shapes hshapes => ?_
    refine .bind (P := Shape.Formed) (.liftAt fun s hs => ?_) fun s hs => ?_
    · exact hfits.formed (by rwa [hshapes.1]) hshapes.2 hs
    · exact .bind (.count _) fun _ _ => .pure ⟨hs.dimension_pos, hs.dimension_le⟩
  values selection := by
    refine .bind (mapM_values h) fun values hvalues => ?_
    have haccepts : accepts values.length := by rwa [hvalues.1]
    have hregular : ∀ v ∈ values, v.Regular := fun v hv => (hvalues.2 v hv).regular
    have hchannels : ∀ v ∈ values, v.Regular ∧ 0 < v.dimension := fun v hv =>
      ⟨hregular v hv, (hvalues.2 v hv).shape.dimension_pos⟩
    have hshapes : ∀ t ∈ values.map Series.shape, t.Formed := Series.formed_shapes hvalues.2
    refine .bind (P := Series.Formed) ?_ fun v hv => .pure (Series.answers_select hv selection)
    refine .foundAt (hfound values hregular) fun v hv => ?_
    obtain ⟨hv, hrule⟩ := hfits.value haccepts hchannels hv
    have hformed : v.Formed := ⟨hv, hfits.formed (by simpa using haccepts) hshapes hrule⟩
    exact ⟨hformed, hformed⟩

theorem builtin {b : Builtin} (hfits : b.Fits) (hreads : b.ReadsWithin)
    (hcount : b.arity.accepts items.length) (h : ∀ i ∈ items, (f i).Passes (g i)) :
    (checkedBuiltin site b (items.map f)).Passes (.builtin site b (items.map g)) := by
  have hkernel : (checkedOfKernel site b.name (items.map f) b.kernel).Passes
      (.ofKernel site b.name (items.map g) b.kernel) := by
    unfold Builtin.Fits at hfits
    unfold Builtin.ReadsWithin at hreads
    cases hkind : b.kernel with
    | map k =>
      simp only [hkind] at hfits
      exact mapped h (Foretells.length_eq_one_of_exactly hfits hcount) k
    | zip k => exact elementwise h (finding_zipMap items.length _ _)
    | reduce k =>
      simp only [hkind] at hfits
      obtain ⟨i, rfl⟩ :=
        List.length_eq_one_iff.mp (Foretells.length_eq_one_of_exactly hfits hcount)
      exact reduced k (h i List.mem_cons_self)
    | whole kernel rule =>
      simp only [hkind] at hfits hreads
      exact whole hfits hcount hreads h
    | reserved => exact fail _
  exact ⟨hkernel.shape, fun selection => .bind .countBuiltin fun _ _ => hkernel.values selection⟩

theorem ofBuiltinCall (name : String) (h : ∀ i ∈ items, (f i).Passes (g i)) :
    (checkedBuiltinCall site name (items.map f)).Passes
      (.ofBuiltinCall site name (items.map g)) := by
  simp only [checkedBuiltinCall, Meaning.ofBuiltinCall, List.length_map]
  cases hlookup : Catalog.lookup name items.length with
  | error cause => exact fail cause
  | ok found =>
    cases found with
    | none =>
      dsimp only
      split_ifs
      · exact fail _
      · exact fail _
    | some b =>
      obtain ⟨hfits, hcount⟩ := Catalog.fits_of_lookup hlookup
      exact builtin hfits (Catalog.readsWithin_of_lookup hlookup) hcount h

theorem formed_constant {animation : Animation} {name : String} {v : Series}
    (h : Catalog.constant? animation name = some v) : v.Formed := by
  unfold Catalog.constant? at h
  split at h <;> cases h
  · exact Series.formed_scalar _
  · exact Series.formed_scalar _
  · exact Series.formed_scalar _
  · exact Series.formed_scalar _
  · exact Series.formed_scalar _
  · exact Series.formed_vector (by simp) (by simp)
  · exact Series.formed_scalar _
  · exact Series.formed_vector (by simp) (by simp)

theorem ofUndeclared (animation : Animation) (name : String) :
    (Meaning.ofUndeclared animation site name).Passes (.ofUndeclared animation site name) := by
  unfold Meaning.ofUndeclared
  cases hconstant : Catalog.constant? animation name with
  | some v => exact const (formed_constant hconstant)
  | none =>
    dsimp only
    split_ifs
    · exact fail _
    · exact fail _

end Passes

end Meaning

end VectorScript
