import VectorScript.Meaning.BuiltinCall
import VectorScript.Proofs.Failing
import VectorScript.Proofs.SeriesLaws

/-!
# Broadcasting

Element-wise operations read element `i` of every operand to find element `i` of the result.
`Pointwise` says so of an operation and its check of shapes.  It follows that the operation can be
applied to the wanted elements only, as an element-wise meaning does (`Pointwise.scatter_eq`).
-/

namespace VectorScript

namespace Shape

/-! ### The common length -/

/-- The common length is one if all lengths are, and else the least of the others. -/
theorem commonLength_spec (ts : List Shape) :
    (commonLength ts = 1 ∧ ∀ t ∈ ts, t.length = 1) ∨
      ∃ t ∈ ts, t.length = commonLength ts ∧ t.length ≠ 1 ∧
        ∀ u ∈ ts, u.length ≠ 1 → t.length ≤ u.length := by
  have hmem : ∀ n, n ∈ (ts.map length).filter (· ≠ 1) ↔ ∃ t ∈ ts, t.length = n ∧ n ≠ 1 := by
    intro n
    simp only [List.mem_filter, List.mem_map, ne_eq, decide_not, Bool.not_eq_true',
      decide_eq_false_iff_not]
    constructor
    · rintro ⟨⟨t, ht, hn⟩, hne⟩
      exact ⟨t, ht, hn, hne⟩
    · rintro ⟨t, ht, hn, hne⟩
      exact ⟨⟨t, ht, hn⟩, hne⟩
  cases hmin : ((ts.map length).filter (· ≠ 1)).min? with
  | none =>
    refine .inl ⟨by rw [commonLength, hmin]; rfl, fun t ht => ?_⟩
    by_contra hne
    have : t.length ∈ (ts.map length).filter (· ≠ 1) := (hmem _).mpr ⟨t, ht, rfl, hne⟩
    rw [List.min?_eq_none_iff.mp hmin] at this
    cases this
  | some n =>
    have hcommon : commonLength ts = n := by rw [commonLength, hmin]; rfl
    obtain ⟨hn, hle⟩ := List.min?_eq_some_iff.mp hmin
    obtain ⟨t, ht, rfl, hne⟩ := (hmem n).mp hn
    exact .inr ⟨t, ht, hcommon.symm, hne, fun u hu hune => hle _ ((hmem _).mpr ⟨u, hu, rfl, hune⟩)⟩

theorem commonLength_of_ones {ts : List Shape} (h : ∀ t ∈ ts, t.length = 1) :
    commonLength ts = 1 := by
  rcases commonLength_spec ts with ⟨hone, -⟩ | ⟨t, ht, -, hne, -⟩
  · exact hone
  · exact absurd (h t ht) hne

/-- Lengths that are one or `n`. -/
theorem commonLength_of_two {ts : List Shape} {n : Nat} {t : Shape} (ht : t ∈ ts)
    (hn : t.length = n) (h : ∀ u ∈ ts, u.length = 1 ∨ u.length = n) : commonLength ts = n := by
  rcases commonLength_spec ts with ⟨hone, hall⟩ | ⟨u, hu, hcommon, hne, -⟩
  · rw [hone, ← hn, hall t ht]
  · rw [← hcommon, (h u hu).resolve_left hne]

theorem commonLength_pos {ts : List Shape} (h : ∀ t ∈ ts, 0 < t.length) : 0 < commonLength ts := by
  rcases commonLength_spec ts with ⟨hone, -⟩ | ⟨t, ht, hcommon, -⟩
  · omega
  · rw [← hcommon]
    exact h t ht

theorem commonLength_le {ts : List Shape} {n : Nat} (hn : 0 < n) (h : ∀ t ∈ ts, t.length ≤ n) :
    commonLength ts ≤ n := by
  rcases commonLength_spec ts with ⟨hone, -⟩ | ⟨t, ht, hcommon, -⟩
  · omega
  · rw [← hcommon]
    exact h t ht

/-- An operand with more than one element has enough of them. -/
theorem commonLength_le_of_mem {ts : List Shape} {t : Shape} (ht : t ∈ ts) :
    t.length = 1 ∨ commonLength ts ≤ t.length := by
  rcases commonLength_spec ts with ⟨-, hones⟩ | ⟨u, -, hcommon, -, hleast⟩
  · exact .inl (hones t ht)
  · by_cases hone : t.length = 1
    · exact .inl hone
    · have := hleast t ht hone
      omega

theorem commonLength_singleton (t : Shape) : commonLength [t] = t.length :=
  commonLength_of_two List.mem_cons_self rfl (by simp)

/-! ### Broadcast shapes -/

theorem foldlM_meetDimension_congr : ∀ {ts ts' : List Shape} (d : Nat),
    ts.map dimension = ts'.map dimension →
      ts.foldlM meetDimension d = ts'.foldlM meetDimension d
  | [], [], _, _ => rfl
  | t :: ts, t' :: ts', d, h => by
    obtain ⟨ht, hts⟩ : t.dimension = t'.dimension ∧ ts.map dimension = ts'.map dimension := by
      simpa using h
    rw [List.foldlM_cons, List.foldlM_cons, meetDimension, meetDimension, ht]
    refine congrArg _ (funext fun d' => foldlM_meetDimension_congr d' hts)

theorem foldlM_meetDimension_pos : ∀ {ts : List Shape} {d d' : Nat}, 0 < d →
    (∀ t ∈ ts, 0 < t.dimension) → ts.foldlM meetDimension d = .ok d' → 0 < d'
  | [], d, d', hd, _, h => by
    obtain rfl := pure_eq_ok.mp h
    exact hd
  | t :: ts, d, d', hd, hts, h => by
    rw [List.foldlM_cons] at h
    obtain ⟨d₁, hmeet, h⟩ := bind_eq_ok.mp h
    refine foldlM_meetDimension_pos ?_ (fun u hu => hts u (List.mem_cons_of_mem _ hu)) h
    have ht := hts t List.mem_cons_self
    unfold meetDimension at hmeet
    split_ifs at hmeet <;> cases hmeet <;> assumption

theorem broadcast_eq_ok {ts : List Shape} {s : Shape} : broadcast ts = .ok s ↔
    s.length = commonLength ts ∧ ts.foldlM meetDimension 1 = .ok s.dimension := by
  unfold broadcast
  constructor
  · intro h
    obtain ⟨d, hd, hs⟩ := bind_eq_ok.mp h
    obtain rfl := pure_eq_ok.mp hs
    exact ⟨rfl, hd⟩
  · rintro ⟨hlength, hd⟩
    refine bind_eq_ok.mpr ⟨s.dimension, hd, ?_⟩
    rw [← hlength]
    rfl

theorem broadcast_singleton (t : Shape) : broadcast [t] = .ok t := by
  refine broadcast_eq_ok.mpr ⟨(commonLength_singleton t).symm, ?_⟩
  simp only [List.foldlM_cons, List.foldlM_nil, meetDimension]
  split_ifs with hone
  · rw [hone]
    rfl
  · rfl

/-- All dimensions are one or what they meet in. -/
theorem dimension_of_foldlM_meetDimension : ∀ {ts : List Shape} {d d' : Nat},
    ts.foldlM meetDimension d = .ok d' →
      (d = 1 ∨ d = d') ∧ ∀ t ∈ ts, t.dimension = 1 ∨ t.dimension = d'
  | [], d, d', h => by
    obtain rfl := pure_eq_ok.mp h
    exact ⟨.inr rfl, by simp⟩
  | t :: ts, d, d', h => by
    rw [List.foldlM_cons] at h
    obtain ⟨d₁, hmeet, h⟩ := bind_eq_ok.mp h
    obtain ⟨hd₁, hts⟩ := dimension_of_foldlM_meetDimension h
    have hstep : (d = 1 ∨ d = d₁) ∧ (t.dimension = 1 ∨ t.dimension = d₁) := by
      unfold meetDimension at hmeet
      split_ifs at hmeet with hone hopen heq <;> cases hmeet
      · exact ⟨.inr rfl, .inl hone⟩
      · exact ⟨.inl hopen, .inr rfl⟩
      · exact ⟨.inr rfl, .inr heq.symm⟩
    refine ⟨by omega, fun u hu => ?_⟩
    rcases List.mem_cons.mp hu with rfl | hu
    · omega
    · exact hts u hu

/-- An operand has a place for every place of the broadcast shape. -/
theorem le_of_broadcast {ts : List Shape} {s t : Shape} (h : broadcast ts = .ok s) (ht : t ∈ ts) :
    (t.length = 1 ∨ s.length ≤ t.length) ∧ (t.dimension = 1 ∨ t.dimension = s.dimension) := by
  obtain ⟨hlength, hdim⟩ := broadcast_eq_ok.mp h
  rw [hlength]
  exact ⟨commonLength_le_of_mem ht, (dimension_of_foldlM_meetDimension hdim).2 t ht⟩

/-- The dimensions of operands meet in one of them, or in one. -/
theorem foldlM_meetDimension_mem : ∀ {ts : List Shape} {d d' : Nat},
    ts.foldlM meetDimension d = .ok d' → d' = d ∨ ∃ t ∈ ts, d' = t.dimension
  | [], d, d', h => .inl (pure_eq_ok.mp h).symm
  | t :: ts, d, d', h => by
    rw [List.foldlM_cons] at h
    obtain ⟨d₁, hmeet, h⟩ := bind_eq_ok.mp h
    have hstep : d₁ = d ∨ d₁ = t.dimension := by
      unfold meetDimension at hmeet
      split_ifs at hmeet <;> cases hmeet
      · exact .inl rfl
      · exact .inr rfl
      · exact .inl rfl
    rcases foldlM_meetDimension_mem h with rfl | ⟨u, hu, hd'⟩
    · exact hstep.imp_right fun heq => ⟨t, List.mem_cons_self, heq⟩
    · exact .inr ⟨u, List.mem_cons_of_mem _ hu, hd'⟩

theorem formed_of_broadcast {ts : List Shape} {s : Shape} (hts : ∀ t ∈ ts, t.Formed)
    (h : broadcast ts = .ok s) : s.Formed := by
  rcases foldlM_meetDimension_mem (broadcast_eq_ok.mp h).2 with hone | ⟨t, ht, heq⟩
  · exact ⟨by omega, by omega⟩
  · have hformed := hts t ht
    exact ⟨heq ▸ hformed.dimension_pos, heq ▸ hformed.dimension_le⟩

theorem broadcast_congr {ts ts' : List Shape} {s : Shape}
    (hdim : ts.map dimension = ts'.map dimension) (h : broadcast ts = .ok s) :
    broadcast ts' = .ok ⟨commonLength ts', s.dimension⟩ := by
  rw [broadcast_eq_ok] at h ⊢
  exact ⟨rfl, foldlM_meetDimension_congr 1 hdim ▸ h.2⟩

theorem one_le_maxLength : 1 ≤ maxLength := by decide

/-- One element with components. -/
theorem Sized.single {hollow : Prop} {d : Nat} (hd : 0 < d) : Shape.Sized hollow ⟨1, d⟩ :=
  ⟨.inl Nat.one_pos, one_le_maxLength, hd⟩

theorem Sized.of_commonLength {hollow : Prop} {ts : List Shape} {s : Shape}
    (hts : ∀ t ∈ ts, t.Sized hollow) (hlength : s.length = commonLength ts)
    (hdimension : 0 < s.dimension) : s.Sized hollow where
  nonempty := by
    by_cases hhollow : hollow
    · exact .inr hhollow
    · rw [hlength]
      exact .inl (commonLength_pos fun t ht => (hts t ht).nonempty.resolve_right hhollow)
  length_le := by
    rw [hlength]
    exact commonLength_le one_le_maxLength fun t ht => (hts t ht).length_le
  dimension_pos := hdimension

theorem sized_of_broadcast {hollow : Prop} {ts : List Shape} {s : Shape}
    (hts : ∀ t ∈ ts, t.Sized hollow) (h : broadcast ts = .ok s) : s.Sized hollow := by
  obtain ⟨hlength, hdim⟩ := broadcast_eq_ok.mp h
  exact .of_commonLength hts hlength
    (foldlM_meetDimension_pos Nat.one_pos (fun t ht => (hts t ht).dimension_pos) hdim)

end Shape

/-! ### Operations element by element -/

/-- The wanted elements of an operand: a single element stands for all of them. -/
def Series.gatherOperand (valid : List Int) (v : Series) : Series :=
  v.gather (if v.length = 1 then [0] else valid)

/-- An operation on `n` operands whose element `i` is found from element `i` of each, broadcast, and
whose check of shapes tells its dimension by their dimensions. -/
structure Pointwise (n : Nat) (check : List Shape → Except EvalError.Cause Shape)
    (combine : List Series → Except EvalError.Cause Series)
    (value : List (Nat → Float32) → Nat → Float32) : Prop where
  length_eq : ∀ {ts s}, ts.length = n → check ts = .ok s → s.length = Shape.commonLength ts
  dimension_pos : ∀ {ts s}, ts.length = n → (∀ t ∈ ts, 0 < t.dimension) → check ts = .ok s →
    0 < s.dimension
  congr : ∀ {ts ts' s}, ts.length = n → ts.map Shape.dimension = ts'.map Shape.dimension →
    check ts = .ok s → check ts' = .ok ⟨Shape.commonLength ts', s.dimension⟩
  combine_eq : ∀ {vs}, vs.length = n → (∀ v ∈ vs, v.Regular) →
    combine vs = (check (vs.map Series.shape)).map fun s =>
      Series.ofFn s fun i c => value (vs.map fun v => v.broadcastAt i) c

namespace Pointwise

variable {n : Nat} {check : List Shape → Except EvalError.Cause Shape}
  {combine : List Series → Except EvalError.Cause Series}
  {value : List (Nat → Float32) → Nat → Float32} {ts : List Shape} {s : Shape} {vs : List Series}
  {v : Series}

theorem sized {hollow : Prop} (h : Pointwise n check combine value) (hn : ts.length = n)
    (hts : ∀ t ∈ ts, t.Sized hollow) (hcheck : check ts = .ok s) : s.Sized hollow :=
  .of_commonLength hts (h.length_eq hn hcheck)
    (h.dimension_pos hn (fun t ht => (hts t ht).dimension_pos) hcheck)

theorem combine_of_check (h : Pointwise n check combine value) (hn : vs.length = n)
    (hvs : ∀ v ∈ vs, v.Regular) (hcheck : check (vs.map Series.shape) = .ok s) :
    combine vs = .ok (Series.ofFn s fun i c => value (vs.map fun v => v.broadcastAt i) c) := by
  rw [h.combine_eq hn hvs, hcheck]
  rfl

theorem check_of_combine (h : Pointwise n check combine value) (hn : vs.length = n)
    (hvs : ∀ v ∈ vs, v.Regular) (hcombine : combine vs = .ok v) :
    check (vs.map Series.shape) = .ok v.shape ∧
      v = Series.ofFn v.shape fun i c => value (vs.map fun v => v.broadcastAt i) c := by
  rw [h.combine_eq hn hvs] at hcombine
  obtain ⟨s, hs, rfl⟩ := map_eq_ok.mp hcombine
  simp [hs]

/-- The operands that are asked for wanted elements have the lengths one and `valid.length`. -/
theorem commonLength_gatherOperand (vs : List Series) (valid : List Int) :
    (Shape.commonLength ((vs.map (Series.gatherOperand valid)).map Series.shape) = 1 ∧
        ∀ u ∈ vs, u.length = 1) ∨
      Shape.commonLength ((vs.map (Series.gatherOperand valid)).map Series.shape) =
        valid.length := by
  by_cases hones : ∀ u ∈ vs, u.length = 1
  · refine .inl ⟨Shape.commonLength_of_ones fun t ht => ?_, hones⟩
    simp only [List.map_map, List.mem_map, Function.comp_apply] at ht
    obtain ⟨u, hu, rfl⟩ := ht
    simp [Series.gatherOperand, hones u hu]
  · obtain ⟨u, hu, hne⟩ : ∃ u ∈ vs, u.length ≠ 1 := by simpa using hones
    refine .inr (Shape.commonLength_of_two (t := (u.gatherOperand valid).shape) ?_ ?_ ?_)
    · exact List.mem_map_of_mem (List.mem_map_of_mem hu)
    · simp [Series.gatherOperand, hne]
    · intro t ht
      simp only [List.map_map, List.mem_map, Function.comp_apply] at ht
      obtain ⟨w, -, rfl⟩ := ht
      by_cases hw : w.length = 1 <;> simp [Series.gatherOperand, hw]

/-- Element `k` of the wanted elements is the element at the wanted index. -/
theorem broadcastAt_gatherOperand {valid : List Int} {u : Series} {k i : Nat}
    (hk : k < valid.length) (hi : valid[k] = i) (k' : Nat) (hk' : u.length ≠ 1 → k' = k) :
    (u.gatherOperand valid).broadcastAt k' = u.broadcastAt i := by
  funext c
  rw [Series.broadcastAt_eq_read, Series.broadcastAt_eq_read]
  by_cases hone : u.length = 1
  · simp only [Series.gatherOperand, hone, if_true, Series.length_gather,
      Series.dimension_gather, List.length_singleton]
    exact Series.read_gather_getElem u (S := [0]) (k := 0) (by simp) _
  · obtain rfl := hk' hone
    have hplace : (if valid.length = 1 then 0 else k') = k' := by
      split_ifs <;> omega
    simp only [Series.gatherOperand, hone, if_false, Series.length_gather,
      Series.dimension_gather, hplace]
    rw [Series.read_gather_getElem u hk, hi]

/-- Applying the operation to wanted elements only, and spreading the result. -/
theorem scatter_eq (h : Pointwise n check combine value) (hn : vs.length = n)
    (hvs : ∀ v ∈ vs, v.Regular) (hcombine : combine vs = .ok v) (S : List Int) :
    ∃ w, combine (vs.map (Series.gatherOperand (S.filter (inRange v.length)))) = .ok w ∧
      w.scatter S v.length = v.gather S := by
  obtain ⟨hcheck, hv⟩ := h.check_of_combine hn hvs hcombine
  generalize hvalid : S.filter (inRange v.length) = valid
  have hdimensions : (vs.map Series.shape).map Shape.dimension =
      ((vs.map (Series.gatherOperand valid)).map Series.shape).map Shape.dimension := by
    simp only [List.map_map]
    exact List.map_congr_left fun u _ => by simp [Series.gatherOperand, Series.shape]
  have hcheck' := h.congr (by simpa using hn) hdimensions hcheck
  have hregular : ∀ u ∈ vs.map (Series.gatherOperand valid), u.Regular := by
    intro u hu
    obtain ⟨w, -, rfl⟩ := List.mem_map.mp hu
    exact Series.regular_gather _ _
  have hcombine' := h.combine_of_check (by simpa using hn) hregular hcheck'
  refine ⟨_, hcombine', Series.scatter_eq_gather ?_ (Series.regular_ofFn _ _)
    (by simp [Series.shape]) fun k hk c hc => ?_⟩
  · rw [hv]
    exact Series.regular_ofFn _ _
  simp only [hvalid] at hk ⊢
  -- the index in range that element `k` was computed for
  have hmem : valid[k] ∈ S.filter (inRange v.length) := hvalid ▸ List.getElem_mem hk
  obtain ⟨hnonneg, hlt⟩ := inRange_iff.mp (List.mem_filter.mp hmem).2
  obtain ⟨i, hi⟩ := Int.eq_ofNat_of_zero_le hnonneg
  have hin : i < v.length := by omega
  generalize hs : (⟨Shape.commonLength ((vs.map (Series.gatherOperand valid)).map Series.shape),
    v.shape.dimension⟩ : Shape) = s'
  have hslength : s'.length =
      Shape.commonLength ((vs.map (Series.gatherOperand valid)).map Series.shape) := by rw [← hs]
  have hsdim : s'.dimension = v.dimension := by rw [← hs]; rfl
  have hcases := commonLength_gatherOperand vs valid
  rw [← hslength] at hcases
  have hc' : (if s'.dimension = 1 then 0 else c) = c := by split_ifs <;> omega
  have hk' : (if s'.length = 1 then 0 else k) < s'.length := by split_ifs <;> omega
  rw [Series.broadcastAt_eq_read, Series.length_ofFn, Series.dimension_ofFn, hc',
    Series.read_ofFn _ hk' (by omega), hi, hv,
    Series.read_ofFn (s := v.shape) _ hin hc, List.map_map]
  refine congrArg (value · c) (List.map_congr_left fun u hu => ?_)
  refine broadcastAt_gatherOperand hk hi _ fun hne => ?_
  rcases hcases with ⟨-, hones⟩ | hlength
  · exact absurd (hones u hu) hne
  · split_ifs <;> omega

end Pointwise

/-! ### The operations of the language -/

theorem Series.map_eq_ofFn {v : Series} (hv : v.Regular) (f : Float32 → Float32) :
    v.map f = ofFn v.shape fun i c => f (v.broadcastAt i c) := by
  have hmap : (v.map f).Regular := by
    intro c hc
    obtain ⟨values, hvalues, rfl⟩ := List.mem_map.mp hc
    rw [Array.size_map]
    exact hv values hvalues
  have hshape : (v.map f).shape = v.shape := by simp [map, shape, dimension]
  refine ext_read hmap (regular_ofFn _ _) (by simp [hshape]) fun i hi c hc => ?_
  have hi : i < v.length := hi
  have hc : c < v.dimension := by simpa [map, dimension] using hc
  have hsize := hv.size_channel hc
  have hchannel : (v.map f).channel c = (v.channel c).map f := by
    have hc : c < v.channels.length := hc
    simp [channel, map, hc]
  rw [read_ofFn (s := v.shape) _ hi hc, broadcastAt_of_lt hi hc, read, hchannel, read,
    readAt_natCast, readAt_natCast]
  simp [hsize, hi]

theorem pointwise_map (f : Float32 → Float32) :
    Pointwise 1 (fun shapes => .ok (shapes.headD .scalar))
      (fun values => .ok ((values.headD default).map f))
      (fun elements c => f (elements.headD (fun _ => Scalar.nan) c)) where
  length_eq {ts s} hn h := by
    obtain ⟨t, rfl⟩ := List.length_eq_one_iff.mp hn
    obtain rfl : t = s := by simpa using h
    exact (Shape.commonLength_singleton t).symm
  dimension_pos {ts s} hn hts h := by
    obtain ⟨t, rfl⟩ := List.length_eq_one_iff.mp hn
    obtain rfl : t = s := by simpa using h
    exact hts t List.mem_cons_self
  congr {ts ts' s} hn hdim h := by
    obtain ⟨t, rfl⟩ := List.length_eq_one_iff.mp hn
    obtain ⟨t', rfl⟩ := List.length_eq_one_iff.mp (by simpa using (congrArg List.length hdim).symm)
    obtain rfl : t = s := by simpa using h
    have hdim : t.dimension = t'.dimension := by simpa using hdim
    rw [Shape.commonLength_singleton, hdim]
    rfl
  combine_eq {vs} hn hvs := by
    obtain ⟨v, rfl⟩ := List.length_eq_one_iff.mp hn
    exact congrArg Except.ok (Series.map_eq_ofFn (hvs v List.mem_cons_self) f)

theorem pointwise_zipMap (n : Nat) (cause : DimensionMismatch → EvalError.Cause)
    (f : List Float32 → Float32) :
    Pointwise n (fun shapes => (Shape.broadcast shapes).mapError cause)
      (fun values => (Series.zipMap values f).mapError cause)
      (fun elements c => f (elements.map fun element => element c)) where
  length_eq _ h := (Shape.broadcast_eq_ok.mp (mapError_eq_ok.mp h)).1
  dimension_pos _ hts h := Shape.foldlM_meetDimension_pos Nat.one_pos hts
    (Shape.broadcast_eq_ok.mp (mapError_eq_ok.mp h)).2
  congr _ hdim h := mapError_eq_ok.mpr (Shape.broadcast_congr hdim (mapError_eq_ok.mp h))
  combine_eq {vs} _ _ := by
    simp only [Series.zipMap, List.map_map]
    cases Shape.broadcast (vs.map Series.shape) <;> rfl

theorem foldlM_meetDimension_ones : ∀ {ts : List Shape}, (∀ t ∈ ts, t.dimension = 1) →
    ts.foldlM Shape.meetDimension 1 = .ok 1
  | [], _ => rfl
  | t :: ts, h => by
    rw [List.foldlM_cons, Shape.meetDimension, if_pos (h t List.mem_cons_self)]
    exact foldlM_meetDimension_ones fun u hu => h u (List.mem_cons_of_mem _ hu)

theorem vectorShape_eq_ok {ts : List Shape} {s : Shape} : Meaning.vectorShape ts = .ok s ↔
    (∀ t ∈ ts, t.dimension = 1) ∧ s = ⟨Shape.commonLength ts, ts.length⟩ := by
  unfold Meaning.vectorShape
  by_cases hones : ∀ t ∈ ts, t.dimension = 1
  · have hany : ts.any (·.dimension ≠ 1) = false := by simpa using hones
    have hbroadcast : Shape.broadcast ts = .ok ⟨Shape.commonLength ts, 1⟩ :=
      Shape.broadcast_eq_ok.mpr ⟨rfl, foldlM_meetDimension_ones hones⟩
    simp only [hany, hbroadcast, Meaning.differing, Except.mapError]
    constructor
    · intro h
      exact ⟨hones, (pure_eq_ok.mp h).symm⟩
    · rintro ⟨-, rfl⟩
      rfl
  · have hany : ts.any (·.dimension ≠ 1) = true := by simpa using hones
    simp only [hany, if_true]
    constructor
    · intro h
      cases h
    · rintro ⟨h, -⟩
      exact absurd h hones

theorem pointwise_vector {n : Nat} (hn : 0 < n) :
    Pointwise n Meaning.vectorShape Meaning.vectorOf
      (fun elements c => elements.getD c (fun _ => Scalar.nan) 0) where
  length_eq _ h := by rw [(vectorShape_eq_ok.mp h).2]
  dimension_pos hts _ h := by
    rw [(vectorShape_eq_ok.mp h).2]
    exact hts ▸ hn
  congr {ts ts' s} _ hdim h := by
    obtain ⟨hones, rfl⟩ := vectorShape_eq_ok.mp h
    have hlength : ts.length = ts'.length := by simpa using congrArg List.length hdim
    refine vectorShape_eq_ok.mpr ⟨fun t ht => ?_, by rw [hlength]⟩
    have hmem : t.dimension ∈ ts.map Shape.dimension := hdim ▸ List.mem_map_of_mem ht
    obtain ⟨u, hu, hut⟩ := List.mem_map.mp hmem
    exact hut ▸ hones u hu
  combine_eq {vs} _ _ := by
    unfold Meaning.vectorOf
    cases hshape : Meaning.vectorShape (vs.map Series.shape) with
    | error e => rfl
    | ok s =>
      obtain ⟨-, rfl⟩ := vectorShape_eq_ok.mp hshape
      refine congrArg (fun channels => Except.ok (Series.mk _ channels)) ?_
      refine List.ext_getElem (by simp) fun c hc _ => ?_
      have hc : c < vs.length := by simpa using hc
      simp [hc]

end VectorScript
