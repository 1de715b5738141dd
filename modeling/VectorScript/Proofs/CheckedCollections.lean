import VectorScript.Proofs.CheckedNodes
import VectorScript.Proofs.SegmentLaws

/-!
# Checked collections

Array literals and comprehensions put formed series together.  What a builder holds is finished as a
formed series, also if it holds nothing; and a comprehension that appends one element each time has
as many elements as its source, which is what spreading them over the indices relies on.

* `Builder.Formed`: a builder of formed series.
* `Comprehension.checkedMeaning`, `Comprehension.checkedFiltered`: comprehensions with checks.
-/

namespace VectorScript

/-! ### Builders -/

namespace Builder

/-- A builder holds series of one to four components.  While it holds none its dimension may be
open; then it is finished as a series of numbers. -/
structure Formed (b : Builder) : Prop where
  holds : ∃ d vs, b.Holds d vs ∧ Series.Uniform d vs ∧ Shape.Formed ⟨b.length, d⟩ ∧
    (b.dimension = 0 → d = 1)

theorem formed_empty : empty.Formed :=
  ⟨1, [], holds_empty 1, by simp [Series.Uniform], Shape.formed_numbers 0, fun _ => rfl⟩

theorem formed_ofDimension {s : Shape} (hs : s.Formed) : (ofDimension s.dimension).Formed := by
  have hpos := hs.dimension_pos
  refine ⟨s.dimension, [], holds_ofDimension _, by simp [Series.Uniform], ?_, fun hzero => ?_⟩
  · exact ⟨hs.dimension_pos, hs.dimension_le⟩
  · simp only [ofDimension] at hzero
    omega

variable {b b' : Builder} {v : Series}

theorem Formed.push (h : b.Formed) (hv : v.Formed) (hpush : b.push v = .ok b') :
    b'.Formed ∧ b'.length = b.length + v.length := by
  obtain ⟨d, vs, hholds, huniform, hd, hopen⟩ := h.holds
  obtain ⟨hdim, rfl⟩ := push_eq_ok.mp hpush
  have hpos : 0 < v.dimension := hv.shape.dimension_pos
  -- an open dimension is that of the first series
  have hsame : b.Holds v.dimension vs ∧ Series.Uniform v.dimension vs := by
    rcases hdim with hzero | heq
    · obtain rfl := hopen hzero
      obtain ⟨rfl, -⟩ := hholds.dimension.resolve_left (by omega)
      exact ⟨⟨hholds.parts, hholds.length, .inr ⟨rfl, hzero⟩⟩, by simp [Series.Uniform]⟩
    · obtain hb | ⟨-, hzero⟩ := hholds.dimension
      · rw [← heq, hb]
        exact ⟨hholds, huniform⟩
      · omega
  refine ⟨⟨v.dimension, vs ++ [v], hsame.1.snoc, ?_, ?_, fun hzero => ?_⟩, rfl⟩
  · intro u hu
    rcases List.mem_append.mp hu with hu | hu
    · exact hsame.2 u hu
    · obtain rfl := List.mem_singleton.mp hu
      exact ⟨hv.regular, fun _ => rfl⟩
  · exact ⟨hv.shape.dimension_pos, hv.shape.dimension_le⟩
  · simp only at hzero
    omega

theorem Formed.foldlM_push : ∀ {vs : List Series} {b b' : Builder}, b.Formed →
    (∀ v ∈ vs, v.Formed) → vs.foldlM Builder.push b = .ok b' → b'.Formed
  | [], b, b', h, _, hpush => by
    obtain rfl := pure_eq_ok.mp hpush
    exact h
  | v :: vs, b, b', h, hvs, hpush => by
    rw [List.foldlM_cons] at hpush
    obtain ⟨b₁, hfirst, hrest⟩ := bind_eq_ok.mp hpush
    exact foldlM_push (h.push (hvs v List.mem_cons_self) hfirst).1
      (fun u hu => hvs u (List.mem_cons_of_mem _ hu)) hrest

theorem Formed.finish (h : b.Formed) : b.finish.Formed ∧ b.finish.length = b.length := by
  obtain ⟨d, vs, hholds, huniform, hd, hopen⟩ := h.holds
  rw [hholds.finish hd.dimension_pos hopen]
  refine ⟨⟨Series.regular_concat huniform, ?_⟩, hholds.length.symm⟩
  rw [Series.shape, Series.dimension_concat]
  exact ⟨hd.dimension_pos, hd.dimension_le⟩

theorem Formed.of_build (h : b.Formed) {v : Series} (hv : b.build = .ok v) : v.Formed := by
  obtain ⟨-, rfl⟩ := build_eq_ok.mp hv
  exact h.finish.1

end Builder

/-- What a body gives is appended as it is; there is one element of it unless it makes runs. -/
theorem Comprehension.Rules.formed_append {c : Rules} {b b' : Builder} {v : Series} (h : b.Formed)
    (hv : v.Formed) (happend : c.append b v = .ok b') :
    b'.Formed ∧ b'.length = b.length + v.length ∧ (v.length = 1 ∨ c.makesRuns) := by
  obtain ⟨hallows, ⟨hzero, rfl⟩ | ⟨-, hpush, -⟩⟩ := append_eq_ok.mp happend
  · exact ⟨h, by omega, hallows⟩
  · obtain ⟨hb', hlength⟩ := h.push hv hpush
    exact ⟨hb', hlength, hallows⟩

/-! ### Segments -/

theorem Routing.size_slots_foldl (starts : List Nat) (total : Nat) :
    ∀ (indices : List Int) (r : Routing),
      (indices.foldl (add starts total) r).slots.size = r.slots.size + indices.length
  | [], _ => rfl
  | i :: indices, r => by
    have hadd : (add starts total r i).slots.size = r.slots.size + 1 := by
      unfold add
      split_ifs <;> simp
    rw [List.foldl_cons, size_slots_foldl starts total indices, hadd, List.length_cons]
    omega

theorem Routing.answers_assemble {starts : List Nat} {total : Nat} {indices : List Int} {s : Shape}
    (hs : s.Formed) (parts : Array (Option Series)) :
    ((ofIndices starts total indices).assemble s.dimension parts).Answers (.at indices) := by
  have hsize : (ofIndices starts total indices).slots.size = indices.length := by
    rw [ofIndices, size_slots_foldl]
    exact Nat.zero_add _
  refine ⟨⟨fun values hvalues => ?_, ?_⟩, hsize⟩
  · obtain ⟨c, -, rfl⟩ := List.mem_map.mp hvalues
    simp [assemble]
  · exact ⟨by simpa [assemble, Series.shape, Series.dimension] using hs.dimension_pos,
      by simpa [assemble, Series.shape, Series.dimension] using hs.dimension_le⟩

namespace Meaning.Passes

theorem gatherSegments {site : Site} {lengths : List Nat} {s : Shape} {indices : List Int}
    {segment : Nat → List Int → Unending Series} {segment' : Nat → List Int → Eval Series}
    (hs : s.Formed) (h : ∀ k < lengths.length, ∀ wanted,
      Checked.Passes (·.Answers (.at wanted)) (segment k wanted) (segment' k wanted)) :
    Checked.Passes (·.Answers (.at indices))
      (Meaning.gatherSegments site lengths s.dimension indices segment)
      (Meaning.gatherSegments site lengths s.dimension indices segment') := by
  refine .bind (.mapM fun n _ => .count n) fun starts hstarts => .bind (.count _) fun total _ => ?_
  rw [Routing.length_starts] at hstarts
  refine .bind (P := fun _ => True) (.mono (.mapM (P := fun _ => True) fun k hk => ?_)
    fun _ _ => trivial) fun parts _ => .pure (Routing.answers_assemble hs _)
  dsimp only
  split_ifs
  · exact .pure trivial
  · simp only [map_eq_pure_bind]
    exact .bind (h k (hstarts.1 ▸ List.mem_range.mp hk) _) fun _ _ => .pure trivial

/-! ### Array literals -/

theorem formed_arrayShape {site : Site} {limit : Nat} {rules : List Item.Rules}
    {shapes : List Shape} {s : Shape} (hshapes : ∀ t ∈ shapes, t.Formed)
    (h : arrayShape site limit rules shapes = .ok s) : s.Formed := by
  unfold arrayShape at h
  obtain ⟨length, -, h⟩ := bind_eq_ok.mp h
  split_ifs at h
  · cases h
  obtain rfl := pure_eq_ok.mp h
  cases hfind : shapes.find? (0 < ·.length) with
  | none => exact Shape.formed_numbers length
  | some t =>
    have ht := hshapes t (List.mem_of_find?_eq_some hfind)
    exact ⟨ht.dimension_pos, ht.dimension_le⟩

theorem formed_concatenate {site : Site} {s : Shape} {values : List Series} {v : Series}
    (hs : s.Formed) (hvalues : ∀ u ∈ values, u.Formed)
    (h : concatenate site s.dimension values = .ok v) : v.Formed := by
  obtain ⟨b, hb, h⟩ := exists_build_of_concatenate h
  have hfilter : ∀ u ∈ values.filter (0 < ·.length), u.Formed := fun u hu =>
    hvalues u (List.mem_filter.mp hu).1
  exact ((Builder.formed_ofDimension hs).foldlM_push hfilter hb).of_build h

section

variable {ι : Type} {items : List ι} {rules : ι → Item.Rules} {f : ι → Meaning Unending}
  {g : ι → Meaning Eval} {site : Site}

theorem getD_item (h : ∀ i ∈ items, (f i).Passes (g i)) {k : Nat} (hk : k < items.length) :
    ((items.map fun i => (⟨rules i, f i⟩ : Item Unending)).getD k default).meaning.Passes
      ((items.map fun i => (⟨rules i, g i⟩ : Item Eval)).getD k default).meaning := by
  simp only [List.getD_eq_getElem?_getD, List.getElem?_map, List.getElem?_eq_getElem hk,
    Option.map_some, Option.getD_some]
  exact h _ (List.getElem_mem hk)

theorem arrayLiteral (limit : Nat) (h : ∀ i ∈ items, (f i).Passes (g i)) :
    (Meaning.arrayLiteral site limit (items.map fun i => ⟨rules i, f i⟩)).Passes
      (.arrayLiteral site limit (items.map fun i => ⟨rules i, g i⟩)) := by
  have hshapes : Checked.Passes (fun shapes => shapes.length = items.length ∧
      ∀ s ∈ shapes, s.Formed)
      ((items.map fun i => (⟨rules i, f i⟩ : Item Unending)).mapM (·.meaning.shape))
      ((items.map fun i => (⟨rules i, g i⟩ : Item Eval)).mapM (·.meaning.shape)) := by
    simp only [List.mapM_map]
    exact .mapM fun i hi => (h i hi).shape
  have hvalues : Checked.Passes (fun values => values.length = items.length ∧
      ∀ v ∈ values, v.Formed)
      ((items.map fun i => (⟨rules i, f i⟩ : Item Unending)).mapM (·.meaning.values .all))
      ((items.map fun i => (⟨rules i, g i⟩ : Item Eval)).mapM (·.meaning.values .all)) := by
    simp only [List.mapM_map]
    exact .mapM fun i hi => (h i hi).values .all
  have hshape : ∀ shapes : List Shape, (∀ s ∈ shapes, s.Formed) → Checked.Passes Shape.Formed
      (Answering.ofExcept (arrayShape site limit (items.map rules) shapes))
      (Answering.ofExcept (arrayShape site limit (items.map rules) shapes)) :=
    fun shapes hs => .ofExcept fun s h => formed_arrayShape hs h
  refine ⟨?_, fun selection => ?_⟩
  · refine .bind hshapes fun shapes hs => ?_
    simp only [List.map_map, Function.comp_def]
    exact hshape shapes hs.2
  · cases selection with
    | all =>
      refine .bind hvalues fun values hvs => ?_
      simp only [List.map_map, Function.comp_def]
      refine .bind (hshape _ (Series.formed_shapes hvs.2)) fun s hs => ?_
      exact .ofExcept fun v hv => formed_concatenate hs hvs.2 hv
    | «at» indices =>
      refine .bind hshapes fun shapes hs => ?_
      simp only [List.map_map, Function.comp_def]
      refine .bind (hshape shapes hs.2) fun s hformed => ?_
      have hsegment : ∀ k < (shapes.map Shape.length).length, k < items.length := by
        intro k hk
        rwa [List.length_map, hs.1] at hk
      -- one item is asked itself, several are asked as segments
      rcases items with _ | ⟨i, _ | ⟨j, rest⟩⟩
      · exact gatherSegments hformed fun k hk wanted => (getD_item h (hsegment k hk)).values _
      · exact (h i List.mem_cons_self).values _
      · exact gatherSegments hformed fun k hk wanted => (getD_item h (hsegment k hk)).values _

end

end Meaning.Passes

/-! ### Comprehensions -/

namespace Comprehension

/-- `filtered` with checks. -/
def checkedFiltered (c : Comprehension Unending) (condition : Series → Meaning Unending) :
    Meaning Unending :=
  .after do
    let source ← c.source.values .all
    let b ← c.collectWhen condition source
    return .const (← Checked.formed (← Answering.liftAt c.site b.build))

/-- `single` with checks. -/
def checkedSingle (c : Comprehension Unending) : Meaning Unending where
  shape := c.singleShape
  values
    | .all => do
      let source ← c.source.values .all
      return (← c.collect source .empty).finish
    | .at indices => do
      let s ← c.singleShape
      let source ← c.source.values (.at (indices.filter (inRange s.length)))
      let b ← c.collect source (.ofDimension s.dimension)
      let v ← Checked.formed b.finish
      Checked.ofOption (v.scatter? indices s.length)

/-- A comprehension without a condition, with checks. -/
def checkedMeaning (c : Comprehension Unending) : Meaning Unending :=
  if c.makesRuns then c.nested else c.checkedSingle

/-- The parts of two comprehensions pass, if the elements of the source are formed. -/
structure Passes (c : Comprehension Unending) (c' : Comprehension Eval) : Prop where
  rules : c'.toRules = c.toRules
  source : c.source.Passes c'.source
  body : ∀ x, x.Formed → (c.body x).Passes (c'.body x)
  varies : c'.varies = c.varies

theorem formed_elementOf {source : Series} (h : source.Formed) (i : Nat) :
    (elementOf source i).Formed :=
  Series.formed_gather h _

namespace Passes

variable {c : Comprehension Unending} {c' : Comprehension Eval}

/-- If every body gives one element, there are as many as the source has. -/
theorem collect (h : c.Passes c') {source : Series} (hsource : source.Formed) {b : Builder}
    (hb : b.Formed) :
    Checked.Passes (fun b' : Builder => b'.Formed ∧
        (c.makesRuns = false → b'.length = b.length + source.length))
      (c.collect source b) (c'.collect source b) := by
  unfold Comprehension.collect
  simp only [h.rules]
  refine .mono (.foldlM (fun k (b' : Builder) => b'.Formed ∧
    (c.makesRuns = false → b'.length = b.length + k)) (k := 0) ⟨hb, fun _ => rfl⟩ ?_) ?_
  · intro k b₁ hb₁ i _
    refine .bind ((h.body _ (formed_elementOf hsource i)).values .all) fun v hv => ?_
    refine .ofExcept fun b₂ hb₂ => ?_
    obtain ⟨hformed, hlength, hone⟩ := Rules.formed_append hb₁.1 hv hb₂
    refine ⟨hformed, fun hruns => ?_⟩
    have hbefore := hb₁.2 hruns
    have hone := hone.resolve_right (by simp [hruns])
    omega
  · intro b' hb'
    rwa [List.length_range, Nat.zero_add] at hb'

theorem collectWhen (h : c.Passes c') {condition : Series → Meaning Unending}
    {condition' : Series → Meaning Eval}
    (hcondition : ∀ x, x.Formed → (condition x).Passes (condition' x)) {source : Series}
    (hsource : source.Formed) :
    Checked.Passes Builder.Formed (c.collectWhen condition source)
      (c'.collectWhen condition' source) := by
  unfold Comprehension.collectWhen
  simp only [h.rules]
  refine .foldlM (fun _ => Builder.Formed) (k := 0) Builder.formed_empty fun _ b hb i _ => ?_
  have helement := formed_elementOf hsource i
  refine .bind ((hcondition _ helement).values .all) fun v _ => ?_
  split_ifs
  · refine .bind ((h.body _ helement).values .all) fun v hv => .ofExcept fun b' hb' => ?_
    exact (Rules.formed_append hb hv hb').1
  · exact .pure hb

theorem filtered (h : c.Passes c') {condition : Series → Meaning Unending}
    {condition' : Series → Meaning Eval}
    (hcondition : ∀ x, x.Formed → (condition x).Passes (condition' x)) :
    (c.checkedFiltered condition).Passes (c'.filtered condition') := by
  have hsite : c'.site = c.site := by rw [h.rules]
  unfold checkedFiltered Comprehension.filtered
  simp only [hsite]
  refine .after (.bind (h.source.values .all) fun source hsource => ?_)
  refine .bind (h.collectWhen hcondition hsource) fun b hb => ?_
  refine .bind (P := Series.Formed) (.liftAt fun v hv => hb.of_build hv) fun v hv => ?_
  exact .formed hv (.pure (.const hv))

/-! ### One element each time -/

/-- A dimension that was found is that of a body. -/
theorem formed_checkSingle {r : Rules} {d d' : Option Nat} {s : Shape} (hs : s.Formed)
    (h : r.checkSingle d s = .ok d') (n : Nat) : Shape.Formed ⟨n, d'.getD 1⟩ := by
  unfold Rules.checkSingle at h
  split_ifs at h
  cases h
  exact ⟨hs.dimension_pos, hs.dimension_le⟩

theorem singleShape (h : c.Passes c') :
    Checked.Passes Shape.Formed c.singleShape c'.singleShape := by
  unfold Comprehension.singleShape
  simp only [h.rules, h.varies]
  refine .bind h.source.shape fun s _ => ?_
  split_ifs
  · exact .pure (Shape.formed_numbers 0)
  · refine .bind (h.source.values .all) fun source hsource => ?_
    refine .bind (P := fun d : Option Nat => Shape.Formed ⟨s.length, d.getD 1⟩) ?_ fun d hd =>
      .pure hd
    refine .foldlM (fun _ (d : Option Nat) => Shape.Formed ⟨s.length, d.getD 1⟩) (k := 0)
      (Shape.formed_numbers _) fun _ d _ i _ => ?_
    refine .bind (h.body _ (formed_elementOf hsource i)).shape fun t ht => ?_
    exact .ofExcept fun d' hd' => formed_checkSingle ht hd' _
  · refine .bind (h.source.values _) fun first hfirst => ?_
    refine .bind (h.body first hfirst.formed).shape fun t ht => ?_
    exact .bind (.ofExcept fun d hd => formed_checkSingle ht hd s.length) fun d hd => .pure hd

theorem single (h : c.Passes c') (hruns : c.makesRuns = false) :
    c.checkedSingle.Passes c'.single where
  shape := h.singleShape
  values
    | .all => .bind (h.source.values .all) fun source hsource =>
        .bind (h.collect hsource Builder.formed_empty) fun b hb => .pure hb.1.finish.1
    | .at indices => by
      refine .bind h.singleShape fun s hs => .bind (h.source.values _) fun source hsource => ?_
      refine .bind (h.collect hsource.1 (Builder.formed_ofDimension hs)) fun b hb => ?_
      obtain ⟨hformed, hlength⟩ := hb.1.finish
      -- the body gave one element for each index in range
      have hcount : b.finish.length = (indices.filter (inRange s.length)).length := by
        rw [hlength, hb.2 hruns, hsource.2]
        exact Nat.zero_add _
      rw [Checked.formed_eq hformed]
      exact .ofOption (Series.scatter?_eq hformed.regular (.inr hcount))
        ⟨Series.formed_scatter hformed _ _, Series.length_scatter _ _ _⟩

/-! ### A run of elements each time -/

theorem formed_addRun {r : Rules} {a a' : Runs} {s : Shape} {n : Nat}
    (ha : Shape.Formed ⟨n, a.dimension.getD 1⟩) (hs : s.Formed) (h : r.addRun a s = .ok a') :
    Shape.Formed ⟨n, a'.dimension.getD 1⟩ := by
  simp only [Rules.addRun] at h
  split_ifs at h
  · cases h
    exact ha
  · cases h
    exact ⟨hs.dimension_pos, hs.dimension_le⟩

theorem runs (h : c.Passes c') {source : Series} (hsource : source.Formed) :
    Checked.Passes (fun r : Runs => Shape.Formed ⟨r.total, r.dimension.getD 1⟩) (c.runs source)
      (c'.runs source) := by
  unfold Comprehension.runs
  simp only [h.rules]
  refine .bind (P := fun r : Runs => Shape.Formed ⟨0, r.dimension.getD 1⟩) ?_ fun r hr => ?_
  · refine .foldlM (fun _ (r : Runs) => Shape.Formed ⟨0, r.dimension.getD 1⟩) (k := 0)
      (Shape.formed_numbers 0) fun _ r hr i _ => ?_
    refine .bind (h.body _ (formed_elementOf hsource i)).shape fun s hs => ?_
    exact .ofExcept fun r' hr' => formed_addRun hr hs hr'
  · split_ifs
    · exact .fail_bind _
    · exact .pure ⟨hr.dimension_pos, hr.dimension_le⟩

theorem ofRuns (h : c.Passes c') {source : Series} (hsource : source.Formed) {r : Runs}
    (hr : Shape.Formed ⟨r.total, r.dimension.getD 1⟩) :
    (c.ofRuns source r).Passes (c'.ofRuns source r) := by
  have hsite : c'.site = c.site := by rw [h.rules]
  refine ⟨.pure hr, fun selection => ?_⟩
  cases selection with
  | all =>
    simp only [Comprehension.ofRuns, hsite]
    refine .bind (h.collect hsource (Builder.formed_ofDimension hr)) fun b hb => ?_
    exact .liftAt fun v hv => hb.1.of_build hv
  | «at» indices =>
    simp only [Comprehension.ofRuns, hsite]
    refine Meaning.Passes.gatherSegments (s := ⟨r.total, r.dimension.getD 1⟩) hr
      fun k _ wanted => ?_
    exact (h.body _ (formed_elementOf hsource k)).values _

theorem «meaning» (h : c.Passes c') : c.checkedMeaning.Passes c'.meaning := by
  unfold checkedMeaning Comprehension.meaning
  simp only [h.rules]
  split_ifs with hruns
  · exact .after (.bind (h.source.values .all) fun source hsource =>
      .bind (h.runs hsource) fun r hr => .pure (h.ofRuns hsource hr))
  · exact h.single (by simpa using hruns)

end Passes

end Comprehension

end VectorScript
