import Mathlib.Data.List.Forall2
import VectorScript.Proofs.CheckedEvaluation
import VectorScript.Proofs.NarrowedRequests

/-!
# Bounds on lengths

How long the answers of a node are at most, if the answers of its parts and the remembered series
are no longer than so much.  Element-wise nodes are no longer than their longest operand, ranges,
literals and comprehensions keep to the limit on arrays, and the builtins `join` and `interleave`
are as long as all their arguments together.

* `Ensures`: what a computation that succeeds gives and leaves behind.
* `Meaning.Reaches`: a bound on the lengths of a meaning.
* `Builtin.mostElements`: a bound for the builtin of a name by the lengths of its arguments.
-/

namespace VectorScript

/-- Remembered series are formed, and that of a variable has at most so many elements. -/
def Remembers (bound : String → Nat) (cache : NameTable Series) : Prop :=
  ∀ name v, cache.find? name = some v → v.Formed ∧ v.length ≤ bound name

/-- From a memory within bounds, a computation that succeeds leaves one, and gives what `P` holds
of. -/
def Ensures {α : Type} (bound : String → Nat) (P : α → Prop) (x : Eval α) : Prop :=
  ∀ ⦃μ μ' a⦄, Remembers bound μ.cache → x.run.run μ = (.ok a, μ') →
    Remembers bound μ'.cache ∧ P a

section

variable {bound : String → Nat} {α β ι : Type} {P : α → Prop} {Q : β → Prop} {x : Eval α}
  {site : Site} {items : List ι}

theorem Remembers.formed {cache : NameTable Series} (h : Remembers bound cache) :
    Checked.FormedCache cache :=
  fun name v hv => (h name v hv).1

theorem remembers_empty (bound : String → Nat) : Remembers bound .empty := by
  intro name v h
  cases h

theorem Remembers.insert {cache : NameTable Series} (h : Remembers bound cache) {name : String}
    {v : Series} (hv : v.Formed) (hlength : v.length ≤ bound name) :
    Remembers bound (cache.insert name v) := by
  intro x u hu
  rw [NameTable.find?_insert] at hu
  split_ifs at hu with hx
  · cases hu
    exact hx ▸ ⟨hv, hlength⟩
  · exact h x u hu

namespace Ensures

theorem mono {P' : α → Prop} (h : Ensures bound P x) (hP : ∀ a, P a → P' a) : Ensures bound P' x :=
  fun _ _ _ hμ hrun => ⟨(h hμ hrun).1, hP _ (h hμ hrun).2⟩

/-- What every successful run gives comes on top. -/
theorem and_run {R : α → Prop} (h : Ensures bound P x)
    (hR : ∀ {μ μ' a}, Remembers bound μ.cache → x.run.run μ = (.ok a, μ') → R a) :
    Ensures bound (fun a => P a ∧ R a) x :=
  fun _ _ _ hμ hrun => ⟨(h hμ hrun).1, (h hμ hrun).2, hR hμ hrun⟩

theorem pure {a : α} (h : P a) : Ensures bound P (Pure.pure a) := by
  intro μ μ' c hμ hrun
  obtain ⟨rfl, rfl⟩ := run_pure_eq_ok.mp hrun
  exact ⟨hμ, h⟩

theorem bind {f : α → Eval β} (h : Ensures bound P x) (hf : ∀ a, P a → Ensures bound Q (f a)) :
    Ensures bound Q (x >>= f) := by
  intro μ μ' b hμ hrun
  obtain ⟨a, μ₁, hx, hrun⟩ := run_bind_eq_ok.mp hrun
  obtain ⟨hμ₁, ha⟩ := h hμ hx
  exact hf a ha hμ₁ hrun

theorem map {f : α → β} (h : Ensures bound P x) (hf : ∀ a, P a → Q (f a)) :
    Ensures bound Q (f <$> x) := by
  rw [map_eq_pure_bind]
  exact h.bind fun a ha => pure (hf a ha)

theorem fail (cause : EvalError.Cause) : Ensures bound P (Answering.fail site cause) :=
  fun _ _ _ _ hrun => absurd hrun run_fail_ne_ok

theorem fail_bind (cause : EvalError.Cause) {f : α → Eval β} :
    Ensures bound Q (Answering.fail site cause >>= f) :=
  bind (fail (P := fun _ => False) cause) fun _ => False.elim

theorem ofExcept {y : Except EvalError α} (h : ∀ a, y = .ok a → P a) :
    Ensures bound P (Answering.ofExcept y) := by
  intro μ μ' a hμ hrun
  obtain ⟨hy, rfl⟩ := run_ofExcept_eq_ok.mp hrun
  exact ⟨hμ, h a hy⟩

theorem liftAt {y : Except EvalError.Cause α} (h : ∀ a, y = .ok a → P a) :
    Ensures bound P (Answering.liftAt site y) := by
  intro μ μ' a hμ hrun
  obtain ⟨hy, rfl⟩ := run_liftAt_eq_ok.mp hrun
  exact ⟨hμ, h a hy⟩

theorem count (n : Nat) :
    Ensures bound (fun k => k = n ∧ n ≤ maxLength) (Answering.count site n) := by
  intro μ μ' k hμ hrun
  obtain ⟨hle, rfl, rfl⟩ := run_count_eq_ok.mp hrun
  exact ⟨hμ, rfl, hle⟩

theorem countBuiltin : Ensures bound (fun _ => True) Answering.countBuiltin := by
  intro μ μ' a hμ hrun
  cases hrun
  exact ⟨hμ, trivial⟩

theorem countStatement : Ensures bound (fun _ => True) Answering.countStatement := by
  intro μ μ' a hμ hrun
  cases hrun
  exact ⟨hμ, trivial⟩

theorem remember {name : String} {v : Series} (hv : v.Formed) (hlength : v.length ≤ bound name) :
    Ensures bound (fun _ => True) (Answering.remember name v) := by
  intro μ μ' a hμ hrun
  cases hrun
  exact ⟨hμ.insert hv hlength, trivial⟩

theorem remembered? (name : String) :
    Ensures bound (fun found => ∀ v, found = some v → v.length ≤ bound name)
      (Answering.remembered? name) := by
  intro μ μ' found hμ hrun
  cases hrun
  exact ⟨hμ, fun v hv => (hμ name v hv).2⟩

theorem mapM {R : ι → α → Prop} {f : ι → Eval α} : ∀ {items : List ι},
    (∀ i ∈ items, Ensures bound (R i) (f i)) → Ensures bound (List.Forall₂ R items) (items.mapM f)
  | [], _ => pure .nil
  | i :: items, h => by
    rw [List.mapM_cons]
    refine bind (h i List.mem_cons_self) fun a ha => ?_
    refine bind (mapM fun j hj => h j (List.mem_cons_of_mem _ hj)) fun as has => ?_
    exact pure (.cons ha has)

theorem foldlM {f : α → ι → Eval α} : ∀ {items : List ι} {a : α}, P a →
    (∀ a, P a → ∀ i ∈ items, Ensures bound P (f a i)) → Ensures bound P (items.foldlM f a)
  | [], _, ha, _ => pure ha
  | i :: items, a, ha, h => by
    rw [List.foldlM_cons]
    refine bind (h a ha i List.mem_cons_self) fun b hb => ?_
    exact foldlM hb fun a ha j hj => h a ha j (List.mem_cons_of_mem _ hj)

end Ensures

end

/-! ### Meanings -/

theorem forall_mem_of_forall₂ {α β : Type} {R : α → β → Prop} {P : β → Prop} {xs : List α}
    {ys : List β} (h : xs.Forall₂ R ys) (hR : ∀ x ∈ xs, ∀ y, R x y → P y) : ∀ y ∈ ys, P y := by
  induction h with
  | nil => simp
  | cons hy _ ih =>
    obtain ⟨hx, hxs⟩ := List.forall_mem_cons.mp hR
    exact List.forall_mem_cons.mpr ⟨hx _ hy, ih hxs⟩

theorem Range.length_le_rounded {limit : Nat} {lower upper : Float32} {r : Range}
    (h : ofBounds limit lower upper = .ok r) :
    r.length ≤ min (Scalar.keep53 limit) maxLength := by
  unfold ofBounds at h
  dsimp only at h
  split_ifs at h with _ _ hlong
  cases h
  exact min_le_min_right _ (Nat.le_of_not_lt hlong)

namespace Meaning

/-- No shape that is found and no series of all values is longer than `n`.  Some values are as many
as the request asks for, so that only the memory they leave behind counts. -/
structure Reaches (bound : String → Nat) (n : Nat) (a : Meaning Eval) : Prop where
  shape : Ensures bound (·.length ≤ n) a.shape
  all : Ensures bound (·.length ≤ n) (a.values .all)
  some : ∀ S, Ensures bound (fun _ => True) (a.values (.at S))

/-- A bound on the lengths of answers that are formed. -/
structure Within (bound : String → Nat) (n : Nat) (a : Meaning Eval) : Prop
    extends Reaches bound n a where
  formed : ∃ c : Meaning Unending, c.Passes a

variable {bound : String → Nat} {n n' : Nat} {a b c : Meaning Eval} {site : Site} {ι : Type}
  {items : List ι} {g : ι → Meaning Eval} {most : ι → Nat}

theorem Reaches.mono (h : a.Reaches bound n) (hle : n ≤ n') : a.Reaches bound n' :=
  ⟨h.shape.mono fun _ hs => Nat.le_trans hs hle, h.all.mono fun _ hv => Nat.le_trans hv hle, h.some⟩

theorem Within.mono (h : a.Within bound n) (hle : n ≤ n') : a.Within bound n' :=
  ⟨h.toReaches.mono hle, h.formed⟩

theorem Within.delay {f : Unit → Meaning Eval} (h : (f ()).Within bound n) :
    (Meaning.delay f).Within bound n := by
  rwa [delay_eq]

theorem Within.values (h : a.Within bound n) :
    Ensures bound (fun v => v.length ≤ n ∧ v.Formed) (a.values .all) := by
  obtain ⟨c, hc⟩ := h.formed
  refine h.all.and_run fun {μ μ' v} hμ hrun => ?_
  exact (hc.values .all μ hμ.formed).2.2 v (by rw [hrun])

theorem Within.elements (h : a.Within bound n) (S : List Int) :
    Ensures bound (fun v => v.length = S.length ∧ v.Formed) (a.values (.at S)) := by
  obtain ⟨c, hc⟩ := h.formed
  have hanswers : Ensures bound (fun v => True ∧ v.Answers (.at S)) (a.values (.at S)) :=
    (h.some S).and_run fun {μ μ' v} hμ hrun =>
      (hc.values (.at S) μ hμ.formed).2.2 v (by rw [hrun])
  exact hanswers.mono fun v hv => ⟨hv.2.2, hv.2.1⟩

theorem ensures_mapM_shape (h : ∀ i ∈ items, (g i).Within bound (most i)) :
    Ensures bound (items.Forall₂ fun i s => s.length ≤ most i) ((items.map g).mapM (·.shape)) := by
  rw [List.mapM_map]
  exact .mapM fun i hi => (h i hi).shape

theorem ensures_mapM_values (h : ∀ i ∈ items, (g i).Within bound (most i)) :
    Ensures bound (items.Forall₂ fun i v => v.length ≤ most i ∧ v.Formed)
      ((items.map g).mapM (·.values .all)) := by
  rw [List.mapM_map]
  exact .mapM fun i hi => (h i hi).values

namespace Reaches

theorem const {v : Series} (h : v.length ≤ n) : (const v).Reaches bound n :=
  ⟨.pure h, .pure h, fun _ => .pure trivial⟩

theorem nan {s : Shape} (h : s.length ≤ n) : (nan s).Reaches bound n :=
  ⟨.pure h, .pure h, fun _ => .pure trivial⟩

theorem fail (cause : EvalError.Cause) : (fail site cause).Reaches bound n :=
  ⟨.fail cause, .fail cause, fun _ => .fail cause⟩

theorem after {find : Eval (Meaning Eval)} (h : Ensures bound (Reaches bound n) find) :
    (after find).Reaches bound n :=
  ⟨h.bind fun _ ha => ha.shape, h.bind fun _ ha => ha.all, fun S => h.bind fun _ ha => ha.some S⟩

theorem recalledOr {name : String} (hname : bound name ≤ n) (h : a.Reaches bound n) :
    (recalledOr name a).Reaches bound n := by
  refine .after (.bind (.remembered? name) fun found hfound => ?_)
  cases found with
  | none => exact .pure h
  | some v => exact .pure (.const (Nat.le_trans (hfound v rfl) hname))

theorem ofVariable {name : String} (hname : n ≤ bound name) (h : a.Within bound n) :
    (ofVariable name a).Reaches bound n where
  shape := h.shape
  all := by
    refine .bind .countStatement fun _ _ => .bind h.values fun v hv => ?_
    exact .bind (.remember hv.2 (Nat.le_trans hv.1 hname)) fun _ _ => .pure hv.1
  some S := .bind .countStatement fun _ _ => .bind (h.some S) fun _ _ => .pure trivial

theorem call {applied : List Series → Meaning Eval} (h : ∀ i ∈ items, (g i).Within bound (most i))
    (happlied : ∀ vs, items.Forall₂ (fun i v => v.length ≤ most i ∧ v.Formed) vs →
      (applied vs).Reaches bound n)
    (hdeferred : a.Reaches bound n) : (Meaning.call (items.map g) applied a).Reaches bound n where
  shape := hdeferred.shape
  all := .bind (ensures_mapM_values h) fun vs hvs => (happlied vs hvs).all
  some := hdeferred.some

/-! ### Elements, components and ranges -/

/-- As many elements are read as there are positions. -/
theorem index (htarget : a.Within bound n') (h : b.Within bound n) :
    (index site a b).Reaches bound n where
  shape := by
    refine .bind h.shape fun positions hpositions => ?_
    split_ifs
    · exact .fail_bind _
    · exact .bind htarget.shape fun _ _ => .pure hpositions
  all := by
    refine .bind h.values fun positions hpositions => ?_
    split_ifs
    · exact .fail_bind _
    have hsize : (positions.channel 0).size = positions.length :=
      hpositions.2.regular.size_channel hpositions.2.shape.dimension_pos
    refine (htarget.elements _).mono fun v hv => ?_
    rw [hv.1, List.length_map, Array.length_toList, hsize]
    exact hpositions.1
  some S := by
    refine .bind (h.some S) fun positions _ => ?_
    split_ifs
    · exact .fail_bind _
    · exact htarget.some _

theorem swizzle {components : String} (h : a.Reaches bound n) :
    (swizzle site components a).Reaches bound n where
  shape := .bind h.shape fun _ hs => .bind (.liftAt fun _ _ => trivial) fun _ _ => .pure hs
  all := .bind h.all fun _ hv => .bind (.liftAt fun _ _ => trivial) fun _ _ => .pure hv
  some S :=
    .bind (h.some S) fun _ _ => .bind (.liftAt fun _ _ => trivial) fun _ _ => .pure trivial

theorem bound_operand (h : a.Reaches bound n) :
    Ensures bound (fun _ => True) (Meaning.bound site a) := by
  refine .bind h.shape fun s _ => ?_
  split_ifs
  · exact .fail_bind _
  · exact .bind h.all fun _ _ => .pure trivial

/-- A range keeps to the limit, rounded as its length is. -/
theorem range {lowerSite upperSite : Site} {limit : Nat} (h : a.Reaches bound n)
    (h' : b.Reaches bound n') :
    (range site lowerSite upperSite limit a b).Reaches bound
      (min (Scalar.keep53 limit) maxLength) := by
  refine .after (.bind h.bound_operand fun lo _ => .bind h'.bound_operand fun hi _ => ?_)
  refine .bind (.liftAt fun r hr => Range.length_le_rounded hr) fun r hr => .pure ?_
  have hvalues : (r.values .all).length ≤ min (Scalar.keep53 limit) maxLength := by
    simpa [Range.values, Series.ofValues] using hr
  exact ⟨.pure hr, .pure hvalues, fun _ => .pure trivial⟩

/-! ### Element-wise nodes -/

section

variable {k : Nat} {check : List Shape → Except EvalError.Cause Shape}
  {combine : List Series → Except EvalError.Cause Series}
  {value : List (Nat → Float32) → Nat → Float32} {operands : List (Meaning Eval)}

/-- Broadcast operands have no more elements than the longest of them. -/
theorem elementwise (hpointwise : Pointwise k check combine value) (hk : operands.length = k)
    (hpos : 0 < n) (h : ∀ a ∈ operands, a.Within bound n) :
    (elementwise site check combine operands).Reaches bound n where
  shape := by
    refine .bind (.mapM fun a ha => (h a ha).shape) fun ts hts => .liftAt fun s hs => ?_
    rw [hpointwise.length_eq (hts.length_eq.symm.trans hk) hs]
    exact Shape.commonLength_le hpos (forall_mem_of_forall₂ hts fun _ _ _ => id)
  all := by
    refine .bind (.mapM fun a ha => (h a ha).values) fun vs hvs => .liftAt fun v hv => ?_
    have hlength : vs.length = k := hvs.length_eq.symm.trans hk
    have hbounds := forall_mem_of_forall₂ hvs fun _ _ _ => id
    obtain ⟨hcheck, -⟩ :=
      hpointwise.check_of_combine hlength (fun u hu => (hbounds u hu).2.regular) hv
    have hcommon : v.length = Shape.commonLength (vs.map Series.shape) :=
      hpointwise.length_eq (by simpa using hlength) hcheck
    rw [hcommon]
    refine Shape.commonLength_le hpos fun t ht => ?_
    obtain ⟨u, hu, rfl⟩ := List.mem_map.mp ht
    exact (hbounds u hu).1
  some S := by
    refine .bind (.mapM fun a ha => (h a ha).shape) fun ts _ => ?_
    refine .bind (.liftAt fun _ _ => trivial) fun s _ => ?_
    refine .bind (.mapM (R := fun _ _ => True) fun p hp => ?_) fun vs _ => ?_
    · exact (h p.1 (List.of_mem_zip hp).1).some _
    · exact .bind (.liftAt fun _ _ => trivial) fun _ _ => .pure trivial

theorem mapped (f : Float32 → Float32) (hone : operands.length = 1) (hpos : 0 < n)
    (h : ∀ a ∈ operands, a.Within bound n) : (mapped site f operands).Reaches bound n :=
  elementwise (pointwise_map f) hone hpos h

theorem zipped (cause : DimensionMismatch → EvalError.Cause) (f : List Float32 → Float32)
    (hpos : 0 < n) (h : ∀ a ∈ operands, a.Within bound n) :
    (Meaning.elementwise site (fun shapes => (Shape.broadcast shapes).mapError cause)
      (fun values => (Series.zipMap values f).mapError cause) operands).Reaches bound n :=
  elementwise (pointwise_zipMap operands.length cause f) rfl hpos h

theorem vector (hne : operands ≠ []) (hpos : 0 < n) (h : ∀ a ∈ operands, a.Within bound n) :
    (vector site operands).Reaches bound n :=
  elementwise (pointwise_vector (List.length_pos_iff.mpr hne)) rfl hpos h

end

theorem unary (op : UnaryOp) (hpos : 0 < n) (h : a.Within bound n) :
    (unary site op a).Reaches bound n := by
  have hone : ∀ a' ∈ [a], a'.Within bound n := by simpa using h
  cases op with
  | plus => exact h.toReaches
  | negate => exact mapped _ rfl hpos hone
  | not => exact mapped _ rfl hpos hone
  | factorial => exact mapped _ rfl hpos hone

theorem binary (op : BinaryOp) (hpos : 0 < n) (h : a.Within bound n) (h' : b.Within bound n) :
    (binary site op a b).Reaches bound n :=
  zipped _ _ hpos (by simpa using ⟨h, h'⟩)

/-- A condition with one element picks a branch, any other one picks element by element. -/
theorem conditional (hpos : 0 < n) (h : a.Within bound n) (h' : b.Within bound n)
    (h'' : c.Within bound n) : (conditional site a b c).Reaches bound n := by
  refine .after (.bind h'.shape fun s _ => ?_)
  split_ifs
  · refine .bind h'.all fun v _ => ?_
    dsimp only
    split_ifs
    · exact .bind h.shape fun t ht => .pure (.nan ht)
    · exact .pure h.toReaches
    · exact .pure h''.toReaches
  · exact .pure (zipped _ _ hpos (by simpa using ⟨h, h', h''⟩))

end Reaches

/-! ### Collections -/

theorem ensures_gatherSegments {lengths : List Nat} {d : Nat} {S : List Int}
    {segment : Nat → List Int → Eval Series}
    (h : ∀ k < lengths.length, ∀ T, Ensures bound (fun _ => True) (segment k T)) :
    Ensures bound (fun _ => True) (gatherSegments site lengths d S segment) := by
  refine .bind (.mapM fun n _ => .count n) fun starts hstarts => .bind (.count _) fun _ _ => ?_
  refine .bind (.mapM (R := fun _ _ => True) fun k hk => ?_) fun _ _ => .pure trivial
  have hk : k < lengths.length := by
    simpa [← hstarts.length_eq, Routing.length_starts] using hk
  dsimp only
  split_ifs
  · exact .pure trivial
  · exact (h k hk _).map fun _ _ => trivial

theorem length_le_maxLength_of_concatenate {d : Nat} {vs : List Series} {v : Series}
    (h : concatenate site d vs = .ok v) : v.length ≤ maxLength := by
  obtain ⟨b, -, h⟩ := exists_build_of_concatenate h
  exact Builder.length_of_build h

theorem Reaches.arrayLiteral {limit : Nat} {items : List (Item Eval)}
    (h : ∀ item ∈ items, ∃ n, item.meaning.Reaches bound n) :
    (arrayLiteral site limit items).Reaches bound limit := by
  have hshapes : Ensures bound (fun ts => ts.length = items.length)
      (items.mapM (·.meaning.shape)) := by
    refine Ensures.mono (.mapM (R := fun _ _ => True) fun i hi => ?_)
      fun ts hts => hts.length_eq.symm
    obtain ⟨n, hn⟩ := h i hi
    exact hn.shape.mono fun _ _ => trivial
  constructor
  · refine .bind hshapes fun ts hts => .ofExcept fun s hs => ?_
    exact (length_of_arrayShape (by simpa using hts) hs).1
  · refine .bind (.mapM (R := fun _ _ => True) fun i hi => ?_) fun vs hvs => ?_
    · obtain ⟨n, hn⟩ := h i hi
      exact hn.all.mono fun _ _ => trivial
    refine .bind (.ofExcept fun s hs => hs) fun s hs => .ofExcept fun v hv => ?_
    obtain ⟨hle, htotal⟩ := length_of_arrayShape (by simpa using hvs.length_eq.symm) hs
    rw [List.map_map] at htotal
    change s.length = min (Routing.total (vs.map Series.length)) maxLength at htotal
    have hparts := length_of_concatenate hv
    have hcounted := length_le_maxLength_of_concatenate hv
    omega
  · intro S
    have hpart : ∀ item ∈ items, ∀ T,
        Ensures bound (fun _ => True) (item.meaning.values (.at T)) := by
      intro item hitem
      obtain ⟨n, hn⟩ := h item hitem
      exact hn.some
    refine .bind hshapes fun ts hts => .bind (.ofExcept fun _ _ => trivial) fun s _ => ?_
    split
    · exact hpart _ List.mem_cons_self S
    · refine ensures_gatherSegments fun k hk T => ?_
      have hk : k < items.length := by simpa [hts] using hk
      have hitem : items.getD k default = items[k] := by simp [hk]
      rw [hitem]
      exact hpart _ (List.getElem_mem hk) T

end Meaning

namespace Comprehension

open Meaning

/-- Source and body of a comprehension have bounds, the body for every single element. -/
structure Within (bound : String → Nat) (n n' : Nat) (c : Comprehension Eval) : Prop where
  source : c.source.Within bound n
  body : ∀ v : Series, v.Formed → v.length = 1 → (c.body v).Within bound n'

variable {bound : String → Nat} {n n' : Nat} {c : Comprehension Eval} {source : Series}

theorem Within.element (h : c.Within bound n n') (hsource : source.Formed) (i : Nat) :
    (c.body (elementOf source i)).Within bound n' :=
  h.body _ (formed_elementOf hsource i) rfl

/-- What is appended to a builder within the limit keeps it there. -/
theorem Within.append (h : c.Within bound n n') (hsource : source.Formed) (i : Nat) {b : Builder}
    (hb : b.length ≤ c.limit) :
    Ensures bound (·.length ≤ c.limit) (do
      let v ← (c.body (elementOf source i)).values .all
      Answering.ofExcept (c.append b v)) :=
  .bind (h.element hsource i).all fun _ _ => .ofExcept fun _ => Rules.length_le_of_append hb

theorem Within.collect (h : c.Within bound n n') (hsource : source.Formed) {b : Builder}
    (hb : b.length ≤ c.limit) : Ensures bound (·.length ≤ c.limit) (c.collect source b) :=
  .foldlM hb fun _ hb i _ => h.append hsource i hb

theorem Within.filtered {condition : Series → Meaning Eval} {k : Nat} (h : c.Within bound n n')
    (hcondition : ∀ v : Series, v.Formed → v.length = 1 → (condition v).Within bound k) :
    (c.filtered condition).Reaches bound c.limit := by
  refine .after (.bind h.source.values fun source hsource => ?_)
  refine .bind (P := fun b => b.length ≤ c.limit) ?_ fun b hb =>
    .bind (.liftAt fun _ => Builder.length_le_of_build hb) fun _ hv => .pure (.const hv)
  refine .foldlM (Nat.zero_le _) fun b hb i _ => ?_
  refine .bind (hcondition _ (formed_elementOf hsource.2 i) rfl).all fun v _ => ?_
  split_ifs
  · exact h.append hsource.2 i hb
  · exact .pure hb

/-- One element each time: there are as many as the source has. -/
theorem Within.singleShape (h : c.Within bound n n') :
    Ensures bound (·.length ≤ n) c.singleShape := by
  refine .bind h.source.shape fun s hs => ?_
  split_ifs
  · exact .pure (Nat.zero_le _)
  · refine .bind h.source.values fun source hsource => ?_
    refine .bind (.foldlM (P := fun _ => True) trivial fun d _ i _ => ?_) fun _ _ => .pure hs
    exact .bind (h.element hsource.2 i).shape fun _ _ => .ofExcept fun _ _ => trivial
  · refine .bind (h.source.elements [0]) fun first hfirst => ?_
    refine .bind (h.body first hfirst.2 hfirst.1).shape fun _ _ => ?_
    exact .bind (.ofExcept fun _ _ => trivial) fun _ _ => .pure hs

theorem Within.single (h : c.Within bound n n') : c.single.Reaches bound (max n c.limit) where
  shape := h.singleShape.mono fun _ hs => Nat.le_trans hs (Nat.le_max_left _ _)
  all := by
    refine .bind h.source.values fun source hsource => ?_
    refine .bind (h.collect hsource.2 (Nat.zero_le _)) fun b hb => .pure ?_
    exact Nat.le_trans (Nat.le_trans b.length_finish_le hb) (Nat.le_max_right _ _)
  some S := by
    refine .bind h.singleShape fun s _ => .bind (h.source.elements _) fun source hsource => ?_
    exact .bind (h.collect hsource.2 (Nat.zero_le _)) fun _ _ => .pure trivial

theorem Within.nested (h : c.Within bound n n') : c.nested.Reaches bound c.limit := by
  refine .after (.bind h.source.values fun source hsource => ?_)
  refine .bind (P := fun r => r.total ≤ c.limit) ?_ fun r hr => .pure ⟨.pure hr, ?_, fun S => ?_⟩
  · refine .bind (.foldlM (P := fun _ => True) trivial fun r _ i _ => ?_) fun r _ => ?_
    · exact .bind (h.element hsource.2 i).shape fun _ _ => .ofExcept fun _ _ => trivial
    split_ifs with hlong
    · exact .fail_bind _
    · exact .pure (Nat.le_of_not_lt hlong)
  · exact .bind (h.collect hsource.2 (Nat.zero_le _)) fun _ hb =>
      .liftAt fun _ => Builder.length_le_of_build hb
  · exact ensures_gatherSegments fun k _ T => (h.element hsource.2 k).some T

theorem Within.reaches (h : c.Within bound n n') :
    c.meaning.Reaches bound (if c.makesRuns then c.limit else max n c.limit) := by
  unfold meaning
  split_ifs
  · exact h.nested
  · exact h.single

end Comprehension

/-! ### Builtins -/

namespace Builtin

/-- Whether the builtins of a name put the elements of all their arguments together. -/
def gathers (name : String) : Bool := name = "join" || name = "interleave"

/-- The most elements of a call by the lengths of its arguments: all of them together, or the
longest argument, or one element. -/
def mostElements (name : String) (lengths : List Nat) : Nat :=
  if gathers name then Routing.total lengths else lengths.foldr max 1

/-- No shape of a builtin is longer than its arguments allow. -/
def KeepsLength (b : Builtin) : Prop :=
  match b.kernel with
  | .map _ | .zip _ | .reduce _ => gathers b.name = false
  | .reserved => True
  | .whole _ rule => ∀ ts s, rule ts = .ok s → s.length ≤ mostElements b.name (ts.map Shape.length)

theorem le_longest {n : Nat} : ∀ {lengths : List Nat}, n ∈ lengths → n ≤ lengths.foldr max 1
  | [], h => absurd h List.not_mem_nil
  | m :: rest, h => by
    rw [List.foldr_cons]
    rcases List.mem_cons.mp h with rfl | h
    · exact Nat.le_max_left _ _
    · exact Nat.le_trans (le_longest h) (Nat.le_max_right _ _)

theorem one_le_longest : ∀ lengths : List Nat, 1 ≤ lengths.foldr max 1
  | [] => Nat.le_refl 1
  | _ :: rest => Nat.le_trans (one_le_longest rest) (Nat.le_max_right _ _)

theorem longest_le {k : Nat} (hk : 1 ≤ k) : ∀ {lengths : List Nat}, (∀ n ∈ lengths, n ≤ k) →
    lengths.foldr max 1 ≤ k
  | [], _ => hk
  | n :: rest, h => by
    obtain ⟨hn, hrest⟩ := List.forall_mem_cons.mp h
    exact Nat.max_le.mpr ⟨hn, longest_le hk hrest⟩

theorem commonLength_le_longest (ts : List Shape) :
    Shape.commonLength ts ≤ (ts.map Shape.length).foldr max 1 :=
  Shape.commonLength_le (one_le_longest _) fun _ ht => le_longest (List.mem_map_of_mem ht)

theorem length_le_of_broadcast {ts : List Shape} {s : Shape} (h : Shape.broadcast ts = .ok s) :
    s.length ≤ (ts.map Shape.length).foldr max 1 :=
  (Shape.broadcast_eq_ok.mp h).1 ▸ commonLength_le_longest ts

namespace Arrangement

theorem length_of_joinShape {ts : List Shape} {s : Shape} (h : joinShape ts = .ok s) :
    s.length = Routing.total (ts.map Shape.length) := by
  obtain ⟨d, -, h⟩ := bind_eq_ok.mp h
  obtain rfl := pure_eq_ok.mp h
  rfl

theorem length_of_interleaveShape {ts : List Shape} {s : Shape} (h : interleaveShape ts = .ok s) :
    s.length = rows (ts.map Shape.length) * ts.length := by
  obtain ⟨d, -, h⟩ := bind_eq_ok.mp h
  obtain rfl := pure_eq_ok.mp h
  rfl

end Arrangement

/-- A rule by which no shape is longer than the longest argument. -/
theorem keepsLength_whole {name : String} {arity : Arity}
    {f : List Series → Except EvalError.Cause Series}
    {rule : List Shape → Except EvalError.Cause Shape} (hname : gathers name = false)
    (h : ∀ ts s, rule ts = .ok s → s.length ≤ (ts.map Shape.length).foldr max 1) :
    (whole name arity f rule).KeepsLength := by
  intro ts s hs
  have hname : gathers (whole name arity f rule).name = false := hname
  rw [mostElements, if_neg (by simp [hname])]
  exact h ts s hs

theorem keepsLength_elementwise : ∀ b ∈ elementwise, b.KeepsLength := by
  simp only [elementwise, List.forall_mem_cons, List.not_mem_nil, false_imp_iff, implies_true]
  simp [KeepsLength, map, zip, gathers]

theorem keepsLength_paired {name : String} (hname : gathers name = false)
    (f : Array Float32 → Array Float32 → Float32) :
    (whole name (.exactly 2) (Statistics.paired name f)
      (Statistics.pairedShape name)).KeepsLength := by
  refine keepsLength_whole hname fun ts s h => ?_
  obtain ⟨t, -, h⟩ := bind_eq_ok.mp h
  obtain rfl := pure_eq_ok.mp h
  exact one_le_longest _

theorem keepsLength_statistics : ∀ b ∈ statistics, b.KeepsLength := by
  simp only [statistics, List.forall_mem_cons, List.not_mem_nil, false_imp_iff, implies_true]
  refine ⟨rfl, rfl, rfl, rfl, rfl, rfl, rfl, rfl, ?_, ?_, keepsLength_paired rfl _,
    keepsLength_paired rfl _, trivial⟩
  · refine keepsLength_whole rfl fun ts s h => ?_
    cases h
    exact one_le_longest _
  · refine keepsLength_whole rfl fun ts s h => ?_
    unfold Statistics.quantileShape at h
    split at h
    · split_ifs at h
      cases h
      exact le_longest (by simp)
    · cases h

theorem keepsLength_combined {name : String} (hname : gathers name = false) (arity : Arity)
    (f : Float32 → Float32 → Float32) :
    (whole name arity (Arrangement.combineArgs name f) (broadcastArgs name)).KeepsLength :=
  keepsLength_whole hname fun _ _ h => length_le_of_broadcast (mapError_eq_ok.mp h)

theorem keepsLength_arrangement : ∀ b ∈ arrangement, b.KeepsLength := by
  simp only [arrangement, List.forall_mem_cons, List.not_mem_nil, false_imp_iff, implies_true]
  refine ⟨fun ts s h => ?_, fun ts s h => ?_, keepsLength_combined rfl _ _,
    keepsLength_combined rfl _ _, keepsLength_whole rfl fun ts s h => ?_, trivial⟩
  · exact Nat.le_of_eq (Arrangement.length_of_joinShape h)
  · have hrows := Arrangement.rows_mul_length_le (ts.map Shape.length)
    rw [List.length_map, ← Arrangement.length_of_interleaveShape h] at hrows
    exact hrows
  · unfold Arrangement.sortShape at h
    split at h
    · cases h
      exact le_longest (by simp)
    · split_ifs at h
      cases h
      exact Nat.le_trans (Nat.min_le_left _ _) (le_longest (by simp))
    · cases h

theorem length_le_of_pairShape {name : String} {ts : List Shape} {s : Shape}
    (h : Geometry.pairShape name ts = .ok s) : s.length ≤ (ts.map Shape.length).foldr max 1 := by
  unfold Geometry.pairShape at h
  split at h
  · split_ifs at h
    exact length_le_of_broadcast (mapError_eq_ok.mp h)
  · cases h

theorem keepsLength_pairwise {name : String} (hname : gathers name = false)
    (f : List Float32 → List Float32 → Float32) :
    (whole name (.exactly 2) (Geometry.pairwise name f)
      (Geometry.pairwiseShape name)).KeepsLength := by
  refine keepsLength_whole hname fun ts s h => ?_
  obtain ⟨t, ht, h⟩ := bind_eq_ok.mp h
  obtain rfl := pure_eq_ok.mp h
  exact length_le_of_pairShape (s := t) ht

theorem keepsLength_single {name : String} (hname : gathers name = false) (f : Series → Series)
    {g : Shape → Shape} (hg : ∀ s, (g s).length = s.length) :
    (whole name (.exactly 1) (Geometry.single name f)
      (Geometry.singleShape name g)).KeepsLength := by
  refine keepsLength_whole hname fun ts s h => ?_
  unfold Geometry.singleShape at h
  split at h
  · cases h
    rw [hg]
    exact le_longest (by simp)
  · cases h

theorem keepsLength_geometry : ∀ b ∈ geometry, b.KeepsLength := by
  simp only [geometry, List.forall_mem_cons, List.not_mem_nil, false_imp_iff, implies_true]
  refine ⟨keepsLength_whole rfl fun ts s h => ?_, keepsLength_pairwise rfl _,
    keepsLength_pairwise rfl _, keepsLength_pairwise rfl _, keepsLength_single rfl _ fun _ => rfl,
    keepsLength_single rfl _ fun _ => rfl, keepsLength_single rfl _ fun _ => rfl, trivial⟩
  simp only [Geometry.crossShape] at h
  split_ifs at h
  · cases h
  obtain ⟨t, ht, h⟩ := bind_eq_ok.mp h
  obtain rfl := pure_eq_ok.mp h
  exact length_le_of_broadcast (s := t) (mapError_eq_ok.mp ht)

end Builtin

theorem Catalog.keepsLength_of_lookup {name : String} {count : Nat} {b : Builtin}
    (h : lookup name count = .ok (some b)) : b.KeepsLength ∧ b.name = name := by
  constructor
  · obtain ⟨family, hfamily, hmem⟩ := (mem_of_lookup h).1
    exact forall_members Builtin.keepsLength_elementwise Builtin.keepsLength_statistics
      Builtin.keepsLength_arrangement Builtin.keepsLength_geometry hfamily b hmem
  · simp only [lookup] at h
    split at h
    · rename_i found hfound
      obtain rfl : found = b := by simpa using h
      simpa using (List.mem_filter.mp (List.mem_of_find?_eq_some hfound)).2
    · split_ifs at h
      cases h

theorem Routing.total_le_total {lengths bounds : List Nat} (h : lengths.Forall₂ (· ≤ ·) bounds) :
    total lengths ≤ total bounds := by
  induction h with
  | nil => exact Nat.le_refl _
  | cons hl _ ih =>
    rw [total_cons, total_cons]
    omega

theorem Builtin.longest_le_longest {lengths bounds : List Nat}
    (h : lengths.Forall₂ (· ≤ ·) bounds) : lengths.foldr max 1 ≤ bounds.foldr max 1 := by
  induction h with
  | nil => exact Nat.le_refl _
  | cons hl _ ih => exact max_le_max hl ih

/-- Bounds on the arguments of a call give one on the call. -/
theorem Builtin.mostElements_le {name : String} {lengths bounds : List Nat}
    (h : lengths.Forall₂ (· ≤ ·) bounds) :
    mostElements name lengths ≤ mostElements name bounds := by
  unfold mostElements
  split_ifs
  · exact Routing.total_le_total h
  · exact longest_le_longest h

namespace Meaning

variable {bound : String → Nat} {n : Nat} {a : Meaning Eval} {site : Site} {ι : Type}
  {items : List ι} {g : ι → Meaning Eval} {most : ι → Nat}

theorem Reaches.reduced (f : Array Float32 → Float32) (h : a.Reaches bound n) :
    (reduced f a).Reaches bound 1 where
  shape := .bind h.shape fun _ _ => .pure (Nat.le_refl 1)
  all := .bind h.all fun _ _ => .pure (Nat.le_refl 1)
  some _ := .bind h.all fun _ _ => .pure trivial

theorem Reaches.whole {accepts : Nat → Bool} {name : String}
    {f : List Series → Except EvalError.Cause Series}
    {rule : List Shape → Except EvalError.Cause Shape} (hfits : Kernel.Fits accepts f rule)
    (hkeeps : ∀ ts s, rule ts = .ok s →
      s.length ≤ Builtin.mostElements name (ts.map Shape.length))
    (hcount : accepts items.length) (h : ∀ i ∈ items, (g i).Within bound (most i)) :
    (whole site f rule (items.map g)).Reaches bound
      (Builtin.mostElements name (items.map most)) := by
  have hvalues : ∀ vs, items.Forall₂ (fun i v => v.length ≤ most i ∧ v.Formed) vs →
      ∀ v, f vs = .ok v → v.length ≤ Builtin.mostElements name (items.map most) := by
    intro vs hvs v hv
    have hformed : ∀ u ∈ vs, u.Formed := forall_mem_of_forall₂ hvs fun _ _ _ hu => hu.2
    have hrule := (hfits.value (hvs.length_eq ▸ hcount)
      (fun u hu => ⟨(hformed u hu).regular, (hformed u hu).shape.dimension_pos⟩) hv).2
    refine Nat.le_trans (hkeeps _ _ hrule) (Builtin.mostElements_le ?_)
    rw [List.map_map]
    exact List.forall₂_map_left_iff.mpr
      (List.forall₂_map_right_iff.mpr (hvs.imp fun i u hu => hu.1).flip)
  constructor
  · refine .bind (ensures_mapM_shape h) fun ts hts => ?_
    refine .bind (P := (·.length ≤ Builtin.mostElements name (items.map most)))
      (.liftAt fun s hs => ?_) fun s hs => .bind (.count _) fun n hn => .pure (hn.1 ▸ hs)
    refine Nat.le_trans (hkeeps ts s hs) (Builtin.mostElements_le ?_)
    exact List.forall₂_map_left_iff.mpr (List.forall₂_map_right_iff.mpr hts.flip)
  · exact .bind (ensures_mapM_values h) fun vs hvs =>
      .bind (.liftAt (hvalues vs hvs)) fun _ hv => .pure hv
  · exact fun S => .bind (ensures_mapM_values h) fun vs _ =>
      .bind (.liftAt fun _ _ => trivial) fun _ _ => .pure trivial

theorem Reaches.builtin {b : Builtin} (hfits : b.Fits) (hkeeps : b.KeepsLength)
    (hcount : b.arity.accepts items.length) (h : ∀ i ∈ items, (g i).Within bound (most i)) :
    (builtin site b (items.map g)).Reaches bound
      (Builtin.mostElements b.name (items.map most)) := by
  have hkernel : (ofKernel site b.name (items.map g) b.kernel).Reaches bound
      (Builtin.mostElements b.name (items.map most)) := by
    -- apart from whole kernels, the longest argument counts
    have hlongest : Builtin.gathers b.name = false →
        0 < Builtin.mostElements b.name (items.map most) ∧
        ∀ i ∈ items, most i ≤ Builtin.mostElements b.name (items.map most) := by
      intro hname
      rw [Builtin.mostElements, if_neg (by simp [hname])]
      exact ⟨Builtin.one_le_longest _, fun i hi => Builtin.le_longest (List.mem_map_of_mem hi)⟩
    have hoperands : Builtin.gathers b.name = false → ∀ a ∈ items.map g,
        a.Within bound (Builtin.mostElements b.name (items.map most)) := by
      intro hname a ha
      obtain ⟨i, hi, rfl⟩ := List.mem_map.mp ha
      exact (h i hi).mono ((hlongest hname).2 i hi)
    unfold Builtin.Fits at hfits
    unfold Builtin.KeepsLength at hkeeps
    cases hkind : b.kernel with
    | map k =>
      simp only [hkind] at hfits hkeeps
      have hone := Foretells.length_eq_one_of_exactly hfits hcount
      exact .mapped k (by simpa using hone) (hlongest hkeeps).1 (hoperands hkeeps)
    | zip k =>
      simp only [hkind] at hkeeps
      exact .zipped _ _ (hlongest hkeeps).1 (hoperands hkeeps)
    | reduce k =>
      simp only [hkind] at hfits hkeeps
      obtain ⟨i, rfl⟩ :=
        List.length_eq_one_iff.mp (Foretells.length_eq_one_of_exactly hfits hcount)
      have harg := h i List.mem_cons_self
      exact (harg.toReaches.reduced k).mono (hlongest hkeeps).1
    | whole f rule =>
      simp only [hkind] at hfits hkeeps
      exact .whole hfits hkeeps hcount h
    | reserved => exact .fail _
  exact ⟨hkernel.shape, .bind .countBuiltin fun _ _ => hkernel.all,
    fun S => .bind .countBuiltin fun _ _ => hkernel.some S⟩

theorem Reaches.ofBuiltinCall (name : String)
    (h : ∀ i ∈ items, (g i).Within bound (most i)) :
    (ofBuiltinCall site name (items.map g)).Reaches bound
      (Builtin.mostElements name (items.map most)) := by
  simp only [Meaning.ofBuiltinCall, List.length_map]
  cases hlookup : Catalog.lookup name items.length with
  | error cause => exact .fail cause
  | ok found =>
    cases found with
    | none =>
      dsimp only
      split_ifs
      · exact .fail _
      · exact .fail _
    | some b =>
      obtain ⟨hfits, hcount⟩ := Catalog.fits_of_lookup hlookup
      obtain ⟨hkeeps, rfl⟩ := Catalog.keepsLength_of_lookup hlookup
      exact .builtin hfits hkeeps hcount h

/-- Named constants have one element. -/
theorem Reaches.ofUndeclared (animation : Animation) (name : String) (hpos : 0 < n) :
    (ofUndeclared animation site name).Reaches bound n := by
  unfold Meaning.ofUndeclared
  cases hconstant : Catalog.constant? animation name with
  | some v =>
    refine .const ?_
    unfold Catalog.constant? at hconstant
    split at hconstant <;> cases hconstant <;> exact hpos
  | none =>
    dsimp only
    split_ifs
    · exact .fail _
    · exact .fail _

end Meaning

end VectorScript
