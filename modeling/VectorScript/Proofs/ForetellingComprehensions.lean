import VectorScript.Proofs.ForetellingCollections

/-!
# Foretelling of comprehensions

A comprehension evaluates its body for elements of its source.  All values need all elements; some
values need the elements at the same indices.  The shape of a body that gives one element each time
is taken from the first element alone, unless it may vary.  A comprehension with a condition keeps
what the body gives where the condition holds, so it may be empty.
-/

namespace VectorScript.Meaning.Foretells

open Filter Comprehension

variable {hollow : Prop}

theorem sized_elementOf {source : Series} (h : source.Sized hollow) (i : Nat) :
    (elementOf source i).Sized hollow := by
  refine ⟨Series.regular_gather _ _, ?_⟩
  rw [elementOf, Series.shape_gather]
  exact .single h.sized.dimension_pos

/-! ### What a loop over the source collects -/

theorem collect_eq_ok {c : Comprehension Plain} {source : Series} {b b' : Builder} :
    c.collect source b = .ok b' ↔ ∃ vs : Nat → Series,
      (∀ i < source.length, (c.body (elementOf source i)).values .all = .ok (vs i)) ∧
        ((List.range source.length).map vs).foldlM c.append b = .ok b' := by
  simp only [collect, Answering.ofExcept_plain]
  rw [foldlM_bind_eq_ok]
  constructor
  · rintro ⟨ys, hys, h⟩
    obtain ⟨vs, rfl, hvs⟩ := mapM_eq_ok_map.mp hys
    exact ⟨vs, fun i hi => hvs i (List.mem_range.mpr hi), h⟩
  · rintro ⟨vs, hvs, h⟩
    exact ⟨_, mapM_eq_ok_map.mpr ⟨vs, rfl, fun i hi => hvs i (List.mem_range.mp hi)⟩, h⟩

/-- Series that a comprehension may put together. -/
structure Collectible (hollow : Prop) (c : Rules) (n d : Nat) (vs : Nat → Series) : Prop where
  sized : ∀ i < n, (vs i).Sized hollow
  dimension : ∀ i < n, 0 < (vs i).length → (vs i).dimension = d
  allows : ∀ i < n, c.Allows (vs i).length

theorem Collectible.uniform {c : Rules} {n d : Nat} {vs : Nat → Series}
    (h : Collectible hollow c n d vs) : Series.Uniform d ((List.range n).map vs) :=
  uniform_map_range h.sized h.dimension

/-- The builders that a comprehension starts from. -/
def Starts (b : Builder) (d : Nat) : Prop := b = .empty ∨ b = .ofDimension d

theorem Starts.holds {b : Builder} {d : Nat} (h : Starts b d) : b.Holds d [] := by
  rcases h with rfl | rfl
  · exact Builder.holds_empty d
  · exact Builder.holds_ofDimension d

/-- Pushing series of one dimension gives their concatenation. -/
theorem finish_of_foldlM_push {d : Nat} {ws : List Series} {b b' : Builder} (hb : Starts b d)
    (hd : 0 < d) (hempty : b = .ofDimension d ∨ ((∀ w ∈ ws, w.length = 0) → d = 1))
    (huniform : Series.Uniform d ws)
    (h : (ws.filter (0 < ·.length)).foldlM Builder.push b = .ok b') :
    b'.length = Routing.total (ws.map Series.length) ∧ b'.finish = Series.concat d ws := by
  have hdims : ∀ w ∈ ws.filter (0 < ·.length), w.dimension = d := by
    intro w hw
    obtain ⟨hmem, hpos⟩ := List.mem_filter.mp hw
    exact (huniform w hmem).2 (by simpa using hpos)
  obtain ⟨b'', hb'', hholds, hbdim⟩ := hb.holds.foldlM_push hdims
  obtain rfl : b'' = b' := Except.ok.inj (hb''.symm.trans h)
  rw [List.nil_append] at hholds
  have hfinish : b''.finish = Series.concat d ws := by
    rw [hholds.finish hd fun hopen => ?_, Series.concat_filter huniform]
    -- an open dimension means that nothing was pushed to an open builder
    by_cases hnil : ws.filter (0 < ·.length) = []
    · rw [hnil] at h
      obtain rfl := pure_eq_ok.mp h
      rcases hempty with rfl | hempty
      · exact absurd hopen (Nat.pos_iff_ne_zero.mp hd)
      · exact hempty fun w hw => by simpa using List.filter_eq_nil_iff.mp hnil w hw
    · have := hbdim hnil
      omega
  refine ⟨?_, hfinish⟩
  rw [hholds.length, ← Series.length_concat (d := d), Series.concat_filter huniform,
    Series.length_concat]

/-- Appending gives the concatenation, unless it is too long. -/
theorem Collectible.foldlM_append {c : Rules} {n d : Nat} {vs : Nat → Series}
    (h : Collectible hollow c n d vs) (hd : 0 < d)
    (hlimit : Routing.total (lengthsOf n vs) ≤ c.limit) :
    ∃ b, ((List.range n).map vs).foldlM c.append (.ofDimension d) = .ok b ∧
      b.finish = Series.concat d ((List.range n).map vs) := by
  have hall : ∀ w ∈ (List.range n).map vs, (0 < w.length → w.dimension = d) ∧
      c.Allows w.length := by
    intro w hw
    obtain ⟨i, hi, rfl⟩ := List.mem_map.mp hw
    have hi := List.mem_range.mp hi
    exact ⟨h.dimension i hi, h.allows i hi⟩
  obtain ⟨b, hb⟩ := Rules.foldlM_append (Builder.holds_ofDimension d) hall
    (Nat.le_trans (Nat.le_of_eq (Nat.zero_add _)) hlimit)
  exact ⟨b, hb, (finish_of_foldlM_push (.inr rfl) hd (.inl rfl) h.uniform
    (Rules.push_of_foldlM_append hb).1).2⟩

/-- What could be appended can be appended in the long run. -/
theorem eventually_foldlM_append {c : Rules} : ∀ {ws : List Series} {b b' : Builder},
    ws.foldlM c.append b = .ok b' →
    ∀ᶠ N in atTop, ws.foldlM ({ c with limit := N } : Rules).append b = .ok b'
  | [], _, _, h => .of_forall fun _ => h
  | w :: ws, b, b', h => by
    rw [List.foldlM_cons] at h
    obtain ⟨b₁, hfirst, hrest⟩ := bind_eq_ok.mp h
    obtain ⟨hallows, hpush⟩ := Rules.append_eq_ok.mp hfirst
    filter_upwards [eventually_foldlM_append hrest, eventually_ge_atTop b₁.length] with N hN hlimit
    have hfirst : ({ c with limit := N } : Rules).append b w = .ok b₁ :=
      Rules.append_eq_ok.mpr
        ⟨hallows, hpush.imp_right fun hpush => ⟨hpush.1, hpush.2.1, hlimit⟩⟩
    rw [List.foldlM_cons, hfirst]
    exact hN

/-- Whatever could be appended to nothing is of one dimension. -/
theorem uniform_of_append_empty {c : Rules} {ws : List Series} {b : Builder}
    (hws : ∀ w ∈ ws, w.Sized hollow) (h : ws.foldlM c.append .empty = .ok b) :
    ∃ d, 0 < d ∧ Series.Uniform d ws ∧ b.length = Routing.total (ws.map Series.length) ∧
      b.finish = Series.concat d ws ∧ ((∀ w ∈ ws, w.length = 0) → d = 1) := by
  obtain ⟨hpush, -⟩ := Rules.push_of_foldlM_append h
  have hdim : ∃ d, 0 < d ∧ (∀ w ∈ ws, 0 < w.length → w.dimension = d) ∧
      ((∀ w ∈ ws, w.length = 0) → d = 1) := by
    by_cases hnil : ws.filter (0 < ·.length) = []
    · refine ⟨1, Nat.one_pos, fun w hw hpos => ?_, fun _ => rfl⟩
      exact absurd hpos (by simpa using List.filter_eq_nil_iff.mp hnil w hw)
    · obtain ⟨d, hd, hdim⟩ := Builder.uniform_of_foldlM_push_empty hnil hpush fun w hw =>
        (hws w (List.mem_filter.mp hw).1).sized.dimension_pos
      refine ⟨d, hd, fun w hw hpos => hdim w (List.mem_filter.mpr ⟨hw, by simpa using hpos⟩),
        fun hzero => absurd (List.filter_eq_nil_iff.mpr fun w hw => ?_) hnil⟩
      simp [hzero w hw]
  obtain ⟨d, hd, hdim, hempty⟩ := hdim
  have huniform : Series.Uniform d ws := fun w hw => ⟨(hws w hw).regular, hdim w hw⟩
  obtain ⟨hlength, hfinish⟩ := finish_of_foldlM_push (.inl rfl) hd (.inr hempty) huniform hpush
  exact ⟨d, hd, huniform, hlength, hfinish, hempty⟩

theorem collectible_of_append_empty {c : Rules} {n : Nat} {vs : Nat → Series} {b : Builder}
    (hsized : ∀ i < n, (vs i).Sized hollow)
    (h : ((List.range n).map vs).foldlM c.append .empty = .ok b) :
    ∃ d, 0 < d ∧ Collectible hollow c n d vs ∧
      b.finish = Series.concat d ((List.range n).map vs) ∧ (n = 0 → d = 1) := by
  have hin : ∀ i < n, vs i ∈ (List.range n).map vs := fun i hi =>
    List.mem_map_of_mem (List.mem_range.mpr hi)
  obtain ⟨d, hd, huniform, -, hfinish, hempty⟩ := uniform_of_append_empty (fun w hw => by
    obtain ⟨i, hi, rfl⟩ := List.mem_map.mp hw
    exact hsized i (List.mem_range.mp hi)) h
  refine ⟨d, hd, ⟨hsized, fun i hi => (huniform _ (hin i hi)).2, fun i hi =>
    (Rules.push_of_foldlM_append h).2 _ (hin i hi)⟩, hfinish, fun hzero => hempty ?_⟩
  simp [hzero]

/-- Whatever could be appended to nothing of a dimension is of that dimension. -/
theorem collectible_of_append_ofDimension {c : Rules} {n d : Nat} {vs : Nat → Series} {b : Builder}
    (hd : 0 < d) (hsized : ∀ i < n, (vs i).Sized hollow)
    (h : ((List.range n).map vs).foldlM c.append (.ofDimension d) = .ok b) :
    Collectible hollow c n d vs ∧ b.length = Routing.total (lengthsOf n vs) ∧
      b.finish = Series.concat d ((List.range n).map vs) ∧ b.length ≤ c.limit := by
  have hin : ∀ i < n, vs i ∈ (List.range n).map vs := fun i hi =>
    List.mem_map_of_mem (List.mem_range.mpr hi)
  obtain ⟨hpush, hallows⟩ := Rules.push_of_foldlM_append h
  have hpos : ∀ w ∈ ((List.range n).map vs).filter (0 < ·.length), 0 < w.dimension := by
    intro w hw
    obtain ⟨i, hi, rfl⟩ := List.mem_map.mp (List.mem_filter.mp hw).1
    exact (hsized i (List.mem_range.mp hi)).sized.dimension_pos
  have hdim : ∀ i < n, 0 < (vs i).length → (vs i).dimension = d := fun i hi hlength =>
    Builder.dimension_of_foldlM_push hpush hpos hd _
      (List.mem_filter.mpr ⟨hin i hi, by simpa using hlength⟩)
  obtain ⟨hlength, hfinish⟩ := finish_of_foldlM_push (.inr rfl) hd (.inl rfl)
    (uniform_map_range hsized hdim) hpush
  exact ⟨⟨hsized, hdim, fun i hi => hallows _ (hin i hi)⟩, hlength, hfinish,
    Rules.length_le_of_foldlM_append h (Nat.zero_le _)⟩

/-! ### The shape when the body gives one element -/

theorem checkSingle_eq_ok {c : Rules} {dimension dimension' : Option Nat} {t : Shape} :
    c.checkSingle dimension t = .ok dimension' ↔
      t.length = 1 ∧ (∀ d, dimension = some d → t.dimension = d) ∧
        dimension' = some t.dimension := by
  unfold Rules.checkSingle
  by_cases hlength : t.length = 1
  · rw [if_neg (not_not_intro hlength)]
    cases dimension with
    | none => simp [hlength, eq_comm]
    | some d =>
      by_cases hd : t.dimension = d
      · simp [hlength, hd, eq_comm]
      · simp [hd, Ne.symm hd]
  · simp [hlength]

/-- A property of the first shape and of the others. -/
theorem forall_lt_succ_iff_map {n : Nat} {t : Nat → Shape} {p : Shape → Prop} :
    (∀ i < n + 1, p (t i)) ↔ p (t 0) ∧ ∀ u ∈ ((List.range n).map Nat.succ).map t, p u := by
  rw [Nat.forall_lt_succ_left]
  simp only [List.forall_mem_map, List.mem_range]

theorem foldlM_checkSingle {c : Rules} : ∀ {ts : List Shape} {d : Nat} {dimension : Option Nat},
    ts.foldlM c.checkSingle (some d) = .ok dimension ↔
      (∀ t ∈ ts, t = ⟨1, d⟩) ∧ dimension = some d
  | [], d, dimension => by
    rw [List.foldlM_nil, pure_eq_ok]
    simp [eq_comm]
  | t :: ts, d, dimension => by
    rw [List.foldlM_cons, bind_eq_ok, List.forall_mem_cons]
    constructor
    · rintro ⟨dimension', hcheck, h⟩
      obtain ⟨hlength, hdim, rfl⟩ := checkSingle_eq_ok.mp hcheck
      obtain rfl := hdim d rfl
      obtain ⟨hts, rfl⟩ := foldlM_checkSingle.mp h
      exact ⟨⟨by rw [← hlength], hts⟩, rfl⟩
    · rintro ⟨⟨rfl, hts⟩, rfl⟩
      exact ⟨some d, checkSingle_eq_ok.mpr ⟨rfl, by simp, rfl⟩, foldlM_checkSingle.mpr ⟨hts, rfl⟩⟩

theorem foldlM_checkSingle_none {c : Rules} {n : Nat} (hn : 0 < n) {t : Nat → Shape}
    {dimension : Option Nat} :
    ((List.range n).map t).foldlM c.checkSingle none = .ok dimension ↔
      ∃ d, (∀ i < n, t i = ⟨1, d⟩) ∧ dimension = some d := by
  obtain ⟨n, rfl⟩ : ∃ m, n = m + 1 := ⟨n - 1, by omega⟩
  rw [List.range_succ_eq_map, List.map_cons, List.foldlM_cons, bind_eq_ok]
  have hall := fun d => forall_lt_succ_iff_map (n := n) (t := t) (p := (· = ⟨1, d⟩))
  constructor
  · rintro ⟨dimension', hcheck, h⟩
    obtain ⟨hlength, -, rfl⟩ := checkSingle_eq_ok.mp hcheck
    obtain ⟨hts, rfl⟩ := foldlM_checkSingle.mp h
    exact ⟨(t 0).dimension, (hall _).mpr ⟨by rw [← hlength], hts⟩, rfl⟩
  · rintro ⟨d, h, rfl⟩
    obtain ⟨h0, hts⟩ := (hall d).mp h
    exact ⟨some d, checkSingle_eq_ok.mpr ⟨by rw [h0], by simp, by rw [h0]⟩,
      foldlM_checkSingle.mpr ⟨hts, rfl⟩⟩

section SingleShape

variable {c : Comprehension Plain} {t s : Shape} {d : Nat}

theorem shapes_eq_ok {source : Series} {dimension : Option Nat} (hlength : 0 < source.length) :
    (List.range source.length).foldlM (fun dimension i => do
        let t ← (c.body (elementOf source i)).shape
        Answering.ofExcept (c.checkSingle dimension t)) none = .ok dimension ↔
      ∃ d, (∀ i < source.length, (c.body (elementOf source i)).shape = .ok ⟨1, d⟩) ∧
        dimension = some d := by
  simp only [Answering.ofExcept_plain]
  rw [foldlM_bind_eq_ok]
  constructor
  · rintro ⟨ts, hts, h⟩
    obtain ⟨t, rfl, ht⟩ := mapM_eq_ok_map.mp hts
    obtain ⟨d, hd, rfl⟩ := (foldlM_checkSingle_none hlength).mp h
    exact ⟨d, fun i hi => hd i hi ▸ ht i (List.mem_range.mpr hi), rfl⟩
  · rintro ⟨d, hd, rfl⟩
    exact ⟨_, mapM_eq_ok_map.mpr ⟨fun _ => ⟨1, d⟩, rfl, fun i hi => hd i (List.mem_range.mp hi)⟩,
      (foldlM_checkSingle_none hlength).mpr ⟨d, fun _ _ => rfl, rfl⟩⟩

theorem singleShape_of_empty (ht : c.source.shape = .ok t) (hzero : t.length = 0) :
    c.singleShape = .ok ⟨0, 1⟩ := by
  rw [Comprehension.singleShape, ht, ok_bind, if_pos hzero]
  rfl

theorem singleShape_of_varies (hvaries : c.varies) (ht : c.source.shape = .ok t)
    (hpos : 0 < t.length) {source : Series} (hsource : c.source.values .all = .ok source)
    (hlength : 0 < source.length)
    (hbody : ∀ i < source.length, (c.body (elementOf source i)).shape = .ok ⟨1, d⟩) :
    c.singleShape = .ok ⟨t.length, d⟩ := by
  rw [singleShape, ht, ok_bind, if_neg (by omega), if_pos hvaries, hsource, ok_bind]
  exact bind_eq_ok.mpr ⟨some d, (shapes_eq_ok hlength).mpr ⟨d, hbody, rfl⟩, rfl⟩

theorem singleShape_of_fixed (hfixed : ¬ c.varies) (ht : c.source.shape = .ok t)
    (hpos : 0 < t.length) {first : Series} (hfirst : c.source.values (.at [0]) = .ok first)
    (hbody : (c.body first).shape = .ok ⟨1, d⟩) : c.singleShape = .ok ⟨t.length, d⟩ := by
  rw [singleShape, ht, ok_bind, if_neg (by omega), if_neg hfixed, hfirst, ok_bind, hbody, ok_bind,
    Answering.ofExcept_plain, checkSingle_eq_ok.mpr ⟨rfl, by simp, rfl⟩]
  rfl

/-- What was asked for when the shape was found. -/
theorem of_singleShape (h : c.singleShape = .ok s) (hsource : ∀ {t}, c.source.shape = .ok t →
    ∀ {v}, c.source.values .all = .ok v → v.length = t.length) :
    ∃ t, c.source.shape = .ok t ∧ (t.length = 0 ∧ s = ⟨0, 1⟩ ∨ 0 < t.length ∧ s.length = t.length ∧
      ((c.varies ∧ ∃ source, c.source.values .all = .ok source ∧
          ∀ i < source.length, (c.body (elementOf source i)).shape = .ok ⟨1, s.dimension⟩) ∨
        (¬ c.varies ∧ ∃ first, c.source.values (.at [0]) = .ok first ∧
          (c.body first).shape = .ok ⟨1, s.dimension⟩))) := by
  obtain ⟨t, ht, h⟩ := bind_eq_ok.mp h
  refine ⟨t, ht, ?_⟩
  by_cases hzero : t.length = 0
  · rw [if_pos hzero] at h
    exact .inl ⟨hzero, (pure_eq_ok.mp h).symm⟩
  have hpos : 0 < t.length := Nat.pos_of_ne_zero hzero
  rw [if_neg hzero] at h
  refine .inr ⟨hpos, ?_⟩
  by_cases hvaries : c.varies
  · rw [if_pos hvaries] at h
    obtain ⟨source, hall, h⟩ := bind_eq_ok.mp h
    obtain ⟨dimension, hdimension, h⟩ := bind_eq_ok.mp h
    obtain ⟨d, hbody, rfl⟩ := (shapes_eq_ok (by rw [hsource ht hall]; exact hpos)).mp hdimension
    obtain rfl := pure_eq_ok.mp h
    exact ⟨rfl, .inl ⟨hvaries, source, hall, hbody⟩⟩
  · rw [if_neg hvaries] at h
    obtain ⟨first, hfirst, h⟩ := bind_eq_ok.mp h
    obtain ⟨u, hu, h⟩ := bind_eq_ok.mp h
    obtain ⟨dimension, hdimension, h⟩ := bind_eq_ok.mp h
    rw [Answering.ofExcept_plain] at hdimension
    obtain ⟨hlength, -, rfl⟩ := checkSingle_eq_ok.mp hdimension
    obtain rfl := pure_eq_ok.mp h
    refine ⟨rfl, .inr ⟨hvaries, first, hfirst, ?_⟩⟩
    rw [hu, ← hlength]
    rfl

end SingleShape

/-! ### Parts that foretell -/

/-- The parts of a comprehension foretell those of a family under growing limits. -/
structure PartsForetell (hollow : Prop) (c : Comprehension Plain)
    (C : Nat → Comprehension Plain) : Prop where
  rules : ∀ N, (C N).toRules = { c.toRules with limit := N }
  source : Foretells hollow c.source fun N => (C N).source
  body : ∀ x, x.Sized hollow → Foretells hollow (c.body x) fun N => (C N).body x
  /-- A shape that does not vary and is there does not vary in the family. -/
  fixed : ¬ c.varies → ∀ x s, (c.body x).shape = .ok s → ∀ N, ¬ (C N).varies

variable {c : Comprehension Plain} {C : Nat → Comprehension Plain}

/-- Limits do not matter for what may be put together. -/
theorem PartsForetell.collectible (h : PartsForetell hollow c C) {n d : Nat} {vs : Nat → Series}
    (hvs : Collectible hollow c.toRules n d vs) (N : Nat) :
    Collectible hollow (C N).toRules n d vs := by
  rw [h.rules N]
  exact ⟨hvs.sized, hvs.dimension, hvs.allows⟩

/-- What was appended is appended by the family. -/
theorem PartsForetell.append (h : PartsForetell hollow c C) {ws : List Series} {b b' : Builder}
    (hb : ws.foldlM c.append b = .ok b') :
    ∀ᶠ N in atTop, ws.foldlM (C N).append b = .ok b' := by
  simp only [h.rules]
  exact eventually_foldlM_append hb

theorem eventually_singleShape_of_settles {source : Series}
    (hsource : SettlesFully (fun N => (C N).source) source) {d : Nat}
    (hempty : source.length = 0 → d = 1)
    (hbody : ∀ i < source.length,
      ∀ᶠ N in atTop, ((C N).body (elementOf source i)).shape = .ok ⟨1, d⟩) :
    ∀ᶠ N in atTop, (C N).singleShape = .ok ⟨source.length, d⟩ := by
  filter_upwards [hsource.shape, hsource.elements [0], hsource.all, eventually_forall_lt hbody]
    with N hshape hfirst hall hbodies
  by_cases hzero : source.length = 0
  · rw [hzero, hempty hzero]
    exact singleShape_of_empty hshape hzero
  have hpos : 0 < source.length := Nat.pos_of_ne_zero hzero
  by_cases hvaries : (C N).varies
  · exact singleShape_of_varies hvaries hshape hpos hall hpos hbodies
  · exact singleShape_of_fixed hvaries hshape hpos hfirst (hbodies 0 hpos)

theorem singleShape (h : PartsForetell hollow c C) {s : Shape} (hs : c.singleShape = .ok s) :
    s.Sized hollow ∧ ∀ᶠ N in atTop, (C N).singleShape = .ok s := by
  obtain ⟨t, ht, hcases⟩ := of_singleShape hs fun {t} ht {v} hv =>
    (congrArg Shape.length (h.source.shape_eq_of_all ht hv)).symm
  obtain ⟨htsized, ht'⟩ := h.source.shape ht
  rcases hcases with ⟨hzero, rfl⟩ | ⟨hpos, hlength, hcases⟩
  · refine ⟨⟨hzero ▸ htsized.nonempty, Nat.zero_le _, Nat.one_pos⟩, ?_⟩
    filter_upwards [ht'] with N hN
    exact singleShape_of_empty hN hzero
  rw [show s = ⟨t.length, s.dimension⟩ by rw [← hlength]]
  rcases hcases with ⟨hvaries, source, hsource, hbody⟩ | ⟨hfixed, first, hfirst, hbody⟩
  · obtain ⟨hsized, hsettles⟩ := h.source.all hsource
    have hsame : source.length = t.length :=
      (congrArg Shape.length (h.source.shape_eq_of_all ht hsource)).symm
    have hbodies : ∀ i < source.length, Shape.Sized hollow ⟨1, s.dimension⟩ ∧
        ∀ᶠ N in atTop, ((C N).body (elementOf source i)).shape = .ok ⟨1, s.dimension⟩ :=
      fun i hi => (h.body _ (sized_elementOf hsized i)).shape (hbody i hi)
    refine ⟨⟨htsized.nonempty, htsized.length_le,
      (hbodies 0 (by omega)).1.dimension_pos⟩, ?_⟩
    rw [← hsame]
    exact eventually_singleShape_of_settles hsettles (fun hzero => by omega)
      fun i hi => (hbodies i hi).2
  · -- nothing is known of the elements after the first, and nothing is needed
    obtain ⟨source, hsized, rfl, hsettles⟩ := h.source.elements hfirst
    obtain ⟨hbsized, hbody'⟩ := (h.body _ (sized_elementOf hsized 0)).shape hbody
    refine ⟨⟨htsized.nonempty, htsized.length_le, hbsized.dimension_pos⟩, ?_⟩
    filter_upwards [ht', hsettles.elements [0] fun i hi _ => hi, hbody'] with N hN hN' hN''
    exact singleShape_of_fixed (h.fixed hfixed _ _ hbody N) hN hpos hN' hN''

/-! ### One element each time -/

/-- The series that give one element each. -/
theorem concat_singles {r : Rules} {n d : Nat} {vs : Nat → Series} (hruns : ¬ r.makesRuns)
    (h : Collectible hollow r n d vs) :
    (∀ i < n, (vs i).length = 1) ∧ Routing.total (lengthsOf n vs) = n ∧
      ∀ i < n, ∀ c < d, (Series.concat d ((List.range n).map vs)).read i c = (vs i).read 0 c := by
  have hone : ∀ i < n, (vs i).length = 1 := fun i hi => (h.allows i hi).resolve_right hruns
  have hone' : ∀ w ∈ (List.range n).map vs, w.length = 1 := by
    intro w hw
    obtain ⟨i, hi, rfl⟩ := List.mem_map.mp hw
    exact hone i (List.mem_range.mp hi)
  refine ⟨hone, ?_, fun i hi c hc => ?_⟩
  · rw [lengthsOf, Routing.total_eq_length (by
      intro k hk
      obtain ⟨w, hw, rfl⟩ := List.mem_map.mp hk
      exact hone' w hw)]
    simp
  · rw [Series.read_concat_singles h.uniform hone' hc (by simpa using hi)]
    simp

theorem natCast_of_mem_valid {n : Nat} {S : List Int} {x : Int} (h : x ∈ S.filter (inRange n)) :
    ∃ i < n, x = (i : Int) := by
  obtain ⟨hnonneg, hlt⟩ := inRange_iff.mp (List.mem_filter.mp h).2
  obtain ⟨i, rfl⟩ := Int.eq_ofNat_of_zero_le hnonneg
  exact ⟨i, by omega, rfl⟩

/-- Element `k` of what was asked for is element `valid[k]` of the source. -/
theorem elementOf_gather {source : Series} (h : source.Sized hollow) {valid : List Int} {k i : Nat}
    (hk : k < valid.length) (hi : valid[k] = (i : Int)) :
    elementOf (source.gather valid) k = elementOf source i := by
  rw [elementOf, Series.gather_single_gather h.regular hk, hi]
  rfl

/-- The body for the wanted elements only. -/
theorem single_elements {n d : Nat} {source : Series} {vs : Nat → Series} {S : List Int}
    (hruns : ¬ c.makesRuns) (hd : 0 < d) (hsized : source.Sized hollow)
    (hvs : Collectible hollow c.toRules n d vs) (hshape : c.singleShape = .ok ⟨n, d⟩)
    (hsource : c.source.values (.at (S.filter (inRange n))) =
      .ok (source.gather (S.filter (inRange n))))
    (hbody : ∀ i < n, (i : Int) ∈ S.filter (inRange n) →
      (c.body (elementOf source i)).values .all = .ok (vs i))
    (hlimit : (S.filter (inRange n)).length ≤ c.limit) :
    c.single.values (.at S) = .ok ((Series.concat d ((List.range n).map vs)).gather S) := by
  generalize hvalid : S.filter (inRange n) = valid at hsource hbody hlimit
  have hplace : ∀ k, (hk : k < valid.length) → ∃ i < n, valid[k] = (i : Int) := by
    intro k hk
    have hmem : valid[k] ∈ S.filter (inRange n) := hvalid ▸ List.getElem_mem hk
    exact natCast_of_mem_valid hmem
  -- the source was asked for `valid` only: its element `k` is the source's element `valid[k]`
  have hvalues : ∀ k < (source.gather valid).length,
      (c.body (elementOf (source.gather valid) k)).values .all =
        .ok (vs (valid.getD k 0).toNat) := by
    intro k hk
    have hk : k < valid.length := hk
    obtain ⟨i, hi, hik⟩ := hplace k hk
    rw [elementOf_gather hsized hk hik, List.getD_eq_getElem _ _ hk, hik, Int.toNat_natCast]
    exact hbody i hi (hik ▸ List.getElem_mem hk)
  obtain ⟨hone, htotal, hread⟩ := concat_singles hruns hvs
  have hws : Collectible hollow c.toRules valid.length d fun k => vs (valid.getD k 0).toNat := by
    have hget : ∀ k < valid.length, (valid.getD k 0).toNat < n := by
      intro k hk
      obtain ⟨i, hi, hik⟩ := hplace k hk
      rw [List.getD_eq_getElem _ _ hk, hik, Int.toNat_natCast]
      exact hi
    exact ⟨fun k hk => hvs.sized _ (hget k hk), fun k hk => hvs.dimension _ (hget k hk),
      fun k hk => hvs.allows _ (hget k hk)⟩
  obtain ⟨-, htotal', hread'⟩ := concat_singles hruns hws
  obtain ⟨b, hb, hfinish⟩ := hws.foldlM_append hd (by rw [htotal']; exact hlimit)
  have hcollect := collect_eq_ok.mpr ⟨_, hvalues, hb⟩
  have hn : (Series.concat d ((List.range n).map vs)).length = n := htotal
  refine bind_eq_ok.mpr ⟨_, hshape, ?_⟩
  simp only [hvalid, hsource, ok_bind, hcollect]
  refine congrArg Except.ok ?_
  rw [hfinish]
  conv_lhs => rw [← hn]
  refine Series.scatter_eq_gather (Series.regular_concat hvs.uniform)
    (Series.regular_concat hws.uniform) (by simp) fun k hk e he => ?_
  simp only [hn, hvalid] at hk ⊢
  rw [Series.dimension_concat] at he
  obtain ⟨i, hi, hik⟩ := hplace k hk
  have hkw : k < (Series.concat d ((List.range valid.length).map
      fun k => vs (valid.getD k 0).toNat)).length := Nat.lt_of_lt_of_eq hk htotal'.symm
  rw [Series.broadcastAt_of_lt hkw (by simpa using he), hread' k hk e he, hik, hread i hi e he,
    List.getD_eq_getElem _ _ hk, hik, Int.toNat_natCast]

theorem settles_single (hruns : ¬ c.makesRuns) (h : PartsForetell hollow c C) {n d : Nat}
    (hd : 0 < d) {source : Series} {vs : Nat → Series} {D : Int → Prop}
    (hsized : source.Sized hollow) (hvs : Collectible hollow c.toRules n d vs)
    (hshape : ∀ᶠ N in atTop, (C N).singleShape = .ok ⟨n, d⟩)
    (hsource : Settles (fun N => (C N).source) source fun i => D i ∧ inRange n i)
    (hbody : ∀ i < n, D i →
      ∀ᶠ N in atTop, ((C N).body (elementOf source i)).values .all = .ok (vs i)) :
    Settles (fun N => (C N).single) (Series.concat d ((List.range n).map vs)) D := by
  have htotal : Routing.total (lengthsOf n vs) = n := (concat_singles hruns hvs).2.1
  have hlen : (Series.concat d ((List.range n).map vs)).length = n := htotal
  constructor
  · refine hshape.mono fun N hN => ?_
    rw [Series.shape, Series.dimension_concat, hlen]
    exact hN
  · intro S hS
    rw [hlen] at hS
    have hvalid : ∀ i ∈ S.filter (inRange n), inRange source.length i → D i ∧ inRange n i := by
      intro i hi _
      obtain ⟨hmem, hrange⟩ := List.mem_filter.mp hi
      exact ⟨hS i hmem hrange, hrange⟩
    have hbodies : ∀ i < n, ∀ᶠ N in atTop, (i : Int) ∈ S.filter (inRange n) →
        ((C N).body (elementOf source i)).values .all = .ok (vs i) := by
      intro i hi
      by_cases hmem : (i : Int) ∈ S.filter (inRange n)
      · have hD := hS i (List.mem_filter.mp hmem).1 (List.mem_filter.mp hmem).2
        exact (hbody i hi hD).mono fun N hN _ => hN
      · exact .of_forall fun N hin => absurd hin hmem
    filter_upwards [hshape, hsource.elements _ hvalid, eventually_forall_lt hbodies,
      eventually_ge_atTop (S.filter (inRange n)).length] with N hN hN' hN'' hlimit
    have hrules := h.rules N
    exact single_elements (by rw [hrules]; exact hruns) hd hsized (h.collectible hvs N) hN hN' hN''
      (by rw [hrules]; exact hlimit)

/-- The bodies for wanted elements; those for other elements are made up. -/
theorem bodies_of_collect (h : PartsForetell hollow c C) (hruns : ¬ c.makesRuns) {n d : Nat}
    (hd : 0 < d) {source : Series} (hsized : source.Sized hollow) {valid : List Int}
    (hvalid : ∀ x ∈ valid, ∃ i < n, x = (i : Int)) {b : Builder}
    (hb : c.collect (source.gather valid) (.ofDimension d) = .ok b) :
    ∃ vs : Nat → Series, Collectible hollow c.toRules n d vs ∧
      (∀ i < n, (i : Int) ∈ valid → (c.body (elementOf source i)).values .all = .ok (vs i)) ∧
      (∀ i < n, (i : Int) ∈ valid →
        ∀ᶠ N in atTop, ((C N).body (elementOf source i)).values .all = .ok (vs i)) ∧
      valid.length ≤ c.limit := by
  obtain ⟨ws, hws, hb⟩ := collect_eq_ok.mp hb
  rw [Series.length_gather] at hws hb
  have hwsized : ∀ k < valid.length, (ws k).Sized hollow := by
    intro k hk
    obtain ⟨i, -, hi⟩ := hvalid _ (List.getElem_mem hk)
    have hk' := elementOf_gather hsized hk hi ▸ hws k hk
    exact ((h.body _ (sized_elementOf hsized i)).all hk').1
  obtain ⟨hcollectible, hlength, -, hlimit⟩ := collectible_of_append_ofDimension hd hwsized hb
  obtain ⟨hone, htotal, -⟩ := concat_singles hruns hcollectible
  rw [hlength, htotal] at hlimit
  have hbodies : ∀ i : Nat, ∃ v : Series, v.Sized hollow ∧ v.dimension = d ∧ v.length = 1 ∧
      ((i : Int) ∈ valid → (c.body (elementOf source i)).values .all = .ok v ∧
        ∀ᶠ N in atTop, ((C N).body (elementOf source i)).values .all = .ok v) := by
    intro i
    by_cases hi : (i : Int) ∈ valid
    · obtain ⟨k, hk, hik⟩ := List.getElem_of_mem hi
      have hbody := elementOf_gather hsized hk hik ▸ hws k hk
      have hlength := hone k hk
      exact ⟨ws k, hwsized k hk, hcollectible.dimension k hk (by omega), hlength, fun _ =>
        ⟨hbody, ((h.body _ (sized_elementOf hsized i)).all hbody).2.all⟩⟩
    · refine ⟨Series.nan ⟨1, d⟩, ?_, ?_, rfl, fun hin => absurd hin hi⟩ <;> rw [Series.nan_eq_ofFn]
      · exact Series.sized_ofFn (.single hd) _
      · exact congrArg Shape.dimension (Series.shape_ofFn _ _)
  choose vs hvs using hbodies
  exact ⟨vs, ⟨fun i _ => (hvs i).1, fun i _ _ => (hvs i).2.1, fun i _ => .inl (hvs i).2.2.1⟩,
    fun i _ hi => ((hvs i).2.2.2 hi).1, fun i _ hi => ((hvs i).2.2.2 hi).2, hlimit⟩

theorem single (hruns : ¬ c.makesRuns) (h : PartsForetell hollow c C) :
    Foretells hollow c.single fun N => (C N).single where
  shape hs := singleShape h hs
  all {u} hu := by
    obtain ⟨source, hsource, hu⟩ := bind_eq_ok.mp hu
    obtain ⟨b, hb, hu⟩ := bind_eq_ok.mp hu
    obtain rfl := pure_eq_ok.mp hu
    obtain ⟨hsized, hsettles⟩ := h.source.all hsource
    obtain ⟨vs, hvalues, hb⟩ := collect_eq_ok.mp hb
    have hbody : ∀ i < source.length, (vs i).Sized hollow ∧
        SettlesFully (fun N => (C N).body (elementOf source i)) (vs i) := fun i hi =>
      (h.body _ (sized_elementOf hsized i)).all (hvalues i hi)
    obtain ⟨d, hd, hvs, hfinish, hempty⟩ :=
      collectible_of_append_empty (fun i hi => (hbody i hi).1) hb
    obtain ⟨hone, htotal, -⟩ := concat_singles hruns hvs
    rw [hfinish]
    refine ⟨sized_concat hd hsized.sized.nonempty hvs.sized hvs.dimension
      (by rw [htotal]; exact hsized.sized.length_le), Settles.fully (settles_single hruns h hd
      hsized hvs (eventually_singleShape_of_settles hsettles hempty fun i hi => ?_)
      (hsettles.settles _) fun i hi _ => (hbody i hi).2.all) ?_⟩
    · have hshape := (hbody i hi).2.shape
      have hdim := hvs.dimension i hi (by rw [hone i hi]; exact Nat.one_pos)
      rwa [Series.shape, hone i hi, hdim] at hshape
    · filter_upwards [hsettles.all, eventually_forall_lt fun i hi => (hbody i hi).2.all,
        h.append hb] with N hN hN' hb'
      exact bind_eq_ok.mpr ⟨source, hN, bind_eq_ok.mpr
        ⟨b, collect_eq_ok.mpr ⟨vs, hN', hb'⟩, congrArg Except.ok hfinish⟩⟩
  elements {S w} hw := by
    have hsingle := hw
    obtain ⟨s, hs, hw⟩ := bind_eq_ok.mp hw
    obtain ⟨u, hsource, hw⟩ := bind_eq_ok.mp hw
    obtain ⟨b, hb, -⟩ := bind_eq_ok.mp hw
    obtain ⟨hssized, hshape⟩ := singleShape h hs
    obtain ⟨source, hsized, rfl, hsettles⟩ := h.source.elements hsource
    have hd := hssized.dimension_pos
    obtain ⟨vs, hvs, hbody, hbody', hlimit⟩ := bodies_of_collect h hruns hd hsized
      (fun x hx => natCast_of_mem_valid hx) hb
    have hvalues := single_elements hruns hd hsized hvs hs hsource hbody hlimit
    obtain rfl := Except.ok.inj (hsingle.symm.trans hvalues)
    obtain ⟨-, htotal, -⟩ := concat_singles hruns hvs
    refine ⟨_, sized_concat hd hssized.nonempty hvs.sized hvs.dimension
      (by rw [htotal]; exact hssized.length_le), rfl,
      settles_single hruns h hd hsized hvs hshape ?_ fun i hi hmem => hbody' i hi
        (List.mem_filter.mpr ⟨hmem, inRange_iff.mpr ⟨by omega, by omega⟩⟩)⟩
    · simpa only [List.mem_filter] using hsettles

/-! ### A run of elements each time -/

/-- The runs of given shapes. -/
structure RunsOf (ts : List Shape) (p : Runs) : Prop where
  lengths : p.lengths.toList = ts.map Shape.length
  dimension : ∀ t ∈ ts, 0 < t.length → p.dimension = some t.dimension
  empty : (∀ t ∈ ts, t.length = 0) → p.dimension = none
  total : p.total = min (Routing.total (ts.map Shape.length)) maxLength

theorem RunsOf.snoc {r : Rules} {ts : List Shape} {p p' : Runs} {t : Shape} (h : RunsOf ts p)
    (hp : r.addRun p t = .ok p') : RunsOf (ts ++ [t]) p' := by
  have htotal : min (p.total + t.length) maxLength =
      min (Routing.total ((ts ++ [t]).map Shape.length)) maxLength := by
    rw [List.map_append, List.map_singleton, Builder.total_append, h.total]
    omega
  have hlengths : (p.lengths.push t.length).toList = (ts ++ [t]).map Shape.length := by
    rw [Array.toList_push, h.lengths, List.map_append, List.map_singleton]
  unfold Rules.addRun at hp
  by_cases hzero : t.length = 0
  · -- an empty run leaves the dimension as it is
    rw [if_pos hzero] at hp
    obtain rfl := Except.ok.inj hp
    refine ⟨hlengths, fun u hu hpos => ?_, fun hempty => ?_, htotal⟩
    · rcases List.mem_append.mp hu with hu | hu
      · exact h.dimension u hu hpos
      · obtain rfl := List.mem_singleton.mp hu
        omega
    · exact h.empty fun u hu => hempty u (List.mem_append_left _ hu)
  · rw [if_neg hzero] at hp
    split_ifs at hp with hdiffers
    obtain rfl := Except.ok.inj hp
    refine ⟨hlengths, fun u hu hpos => ?_, fun hempty => ?_, htotal⟩
    · rcases List.mem_append.mp hu with hu | hu
      · have hdim := h.dimension u hu hpos
        have hsame : u.dimension = t.dimension := by simpa [hdim] using hdiffers
        rw [hsame]
      · obtain rfl := List.mem_singleton.mp hu
        rfl
    · exact absurd (hempty t (by simp)) hzero

theorem RunsOf.foldlM {r : Rules} : ∀ {rest ts : List Shape} {p p' : Runs}, RunsOf ts p →
    rest.foldlM r.addRun p = .ok p' → RunsOf (ts ++ rest) p'
  | [], ts, p, p', h, hp => by
    obtain rfl := pure_eq_ok.mp hp
    simpa using h
  | t :: rest, ts, p, p', h, hp => by
    rw [List.foldlM_cons] at hp
    obtain ⟨p₁, hfirst, hrest⟩ := bind_eq_ok.mp hp
    simpa using RunsOf.foldlM (h.snoc hfirst) hrest

theorem runsOf_nil : RunsOf [] ⟨#[], none, 0⟩ := ⟨rfl, by simp, fun _ => rfl, rfl⟩

theorem runs_eq_ok {source : Series} {p : Runs} : c.runs source = .ok p ↔
    (∃ t : Nat → Shape, (∀ i < source.length, (c.body (elementOf source i)).shape = .ok (t i)) ∧
      ((List.range source.length).map t).foldlM c.addRun ⟨#[], none, 0⟩ = .ok p) ∧
      p.total ≤ c.limit := by
  simp only [runs, Answering.ofExcept_plain]
  rw [bind_eq_ok]
  constructor
  · rintro ⟨p', hp', h⟩
    obtain ⟨ts, hts, hfold⟩ := foldlM_bind_eq_ok.mp hp'
    obtain ⟨t, rfl, ht⟩ := mapM_eq_ok_map.mp hts
    split_ifs at h with hlimit
    · cases h
    obtain rfl := pure_eq_ok.mp h
    exact ⟨⟨t, fun i hi => ht i (List.mem_range.mpr hi), hfold⟩, Nat.le_of_not_lt hlimit⟩
  · rintro ⟨⟨t, ht, hfold⟩, hlimit⟩
    refine ⟨p, foldlM_bind_eq_ok.mpr ⟨_, mapM_eq_ok_map.mpr ⟨t, rfl, fun i hi =>
      ht i (List.mem_range.mp hi)⟩, hfold⟩, ?_⟩
    rw [if_neg (Nat.not_lt.mpr hlimit)]
    rfl

section Runs

variable {n : Nat} {t : Nat → Shape} {p : Runs}

/-- The dimension of runs with elements. -/
theorem RunsOf.dimension_eq (h : RunsOf ((List.range n).map t) p) :
    ∀ i < n, 0 < (t i).length → (t i).dimension = p.dimension.getD 1 := by
  intro i hi hpos
  rw [h.dimension (t i) (List.mem_map_of_mem (List.mem_range.mpr hi)) hpos]
  rfl

theorem RunsOf.dimension_pos (h : RunsOf ((List.range n).map t) p)
    (ht : ∀ i < n, (t i).Sized hollow) : 0 < p.dimension.getD 1 := by
  refine dimension_pos_of_fits ht h.dimension_eq fun hempty => ?_
  rw [h.empty fun u hu => ?_]
  · rfl
  · obtain ⟨i, hi, rfl⟩ := List.mem_map.mp hu
    exact hempty i (List.mem_range.mp hi)

theorem RunsOf.lengthsOf (h : RunsOf ((List.range n).map t) p) {v : Nat → Series}
    (hv : ∀ i < n, (v i).shape = t i) : p.lengths.toList = Foretells.lengthsOf n v := by
  rw [h.lengths, Foretells.lengthsOf, List.map_map, List.map_map]
  exact List.map_congr_left fun i hi => congrArg Shape.length (hv i (List.mem_range.mp hi)).symm

theorem RunsOf.total_eq (h : RunsOf ((List.range n).map t) p) {v : Nat → Series}
    (hv : ∀ i < n, (v i).shape = t i)
    (htotal : Routing.total (Foretells.lengthsOf n v) ≤ maxLength) :
    p.total = Routing.total (Foretells.lengthsOf n v) := by
  rw [h.total, ← h.lengths, h.lengthsOf hv, Nat.min_eq_left htotal]

end Runs

/-- Families of runs that settle where they are asked. -/
theorem settles_ofRuns {source : Series} {n : Nat} {p : Runs} {v : Nat → Series} {D : Int → Prop}
    (hp : RunsOf ((List.range n).map fun i => (v i).shape) p)
    (huniform : Series.Uniform (p.dimension.getD 1) ((List.range n).map v))
    (htotal : Routing.total (lengthsOf n v) ≤ maxLength)
    (hbody : ∀ k < n, ∀ T : List Int, T ≠ [] →
      (∀ x ∈ T, ∃ i, inRange (Routing.total (lengthsOf n v)) i ∧ D i ∧
        Routing.ownerOf (lengthsOf n v) i = k ∧ Routing.placeOf (lengthsOf n v) i = x) →
      ∀ᶠ N in atTop, ((C N).body (elementOf source k)).values (.at T) = .ok ((v k).gather T)) :
    Settles (fun N => (C N).ofRuns source p)
      (Series.concat (p.dimension.getD 1) ((List.range n).map v)) D := by
  constructor
  · refine .of_forall fun N => congrArg Except.ok ?_
    rw [Series.shape, Series.dimension_concat, hp.total_eq (fun _ _ => rfl) htotal]
    rfl
  · intro S hS
    simp only [Comprehension.ofRuns, hp.lengthsOf fun _ _ => rfl]
    exact eventually_gatherSegments huniform htotal hbody hS

theorem ofRuns (h : PartsForetell hollow c C) {source : Series} {t : Nat → Shape} {p : Runs}
    (hsized : source.Sized hollow)
    (ht : ∀ i < source.length, (c.body (elementOf source i)).shape = .ok (t i))
    (hp : RunsOf ((List.range source.length).map t) p) :
    Foretells hollow (c.ofRuns source p) fun N => (C N).ofRuns source p := by
  have hbodies := fun i => h.body _ (sized_elementOf hsized i)
  have htsized := fun i (hi : i < source.length) => ((hbodies i).shape (ht i hi)).1
  have hd := hp.dimension_pos htsized
  have hn : 0 < source.length ∨ hollow := hsized.sized.nonempty
  refine ⟨fun {s} hs => ?_, fun {u} hu => ?_, fun {S w} hw => ?_⟩
  · obtain rfl := pure_eq_ok.mp hs
    refine ⟨⟨?_, ?_, hd⟩, .of_forall fun N => rfl⟩
    · refine (total_pos_or_hollow hn htsized).imp_left fun hpos => ?_
      have hone := Shape.one_le_maxLength
      have htotal := hp.total
      rw [List.map_map] at htotal
      simp only [Function.comp_def] at htotal
      simp only [htotal]
      omega
    · rw [hp.total]
      exact Nat.min_le_right _ _
  · obtain ⟨b, hb, hu⟩ := bind_eq_ok.mp hu
    obtain ⟨hcounted, rfl⟩ := Builder.build_eq_ok.mp (Answering.liftAt_eq_ok.mp hu)
    obtain ⟨vs, hvalues, hb⟩ := collect_eq_ok.mp hb
    have hbody := fun i hi => (hbodies i).all (hvalues i hi)
    -- the shapes of the bodies were found first; the values have them
    have hshape : ∀ i < source.length, t i = (vs i).shape := fun i hi =>
      (hbodies i).shape_eq_of_all (ht i hi) (hvalues i hi)
    obtain ⟨hvs, hlength, hfinish, -⟩ :=
      collectible_of_append_ofDimension hd (fun i hi => (hbody i hi).1) hb
    have htotal : Routing.total (lengthsOf source.length vs) ≤ maxLength := hlength ▸ hcounted
    rw [List.map_congr_left fun i hi => hshape i (List.mem_range.mp hi)] at hp
    rw [hfinish]
    refine ⟨sized_concat hd hn hvs.sized hvs.dimension htotal,
      Settles.fully (settles_ofRuns hp hvs.uniform htotal fun k hk T _ _ =>
        (hbody k hk).2.elements T) ?_⟩
    filter_upwards [eventually_forall_lt fun i hi => (hbody i hi).2.all, h.append hb] with N hN hb'
    exact bind_eq_ok.mpr ⟨b, collect_eq_ok.mpr ⟨vs, hN, hb'⟩,
      Answering.liftAt_eq_ok.mpr (Builder.build_eq_ok.mpr ⟨hcounted, hfinish⟩)⟩
  · simp only [Comprehension.ofRuns, hp.lengths, List.map_map] at hw
    obtain ⟨v, hv, htotal, rfl, hsettles⟩ := of_gatherSegments_foretold
      (fun k _ => hbodies k) ht hp.dimension_eq (fun _ _ _ => rfl) hw
    have hshape : ∀ i < source.length, t i = (v i).shape := fun i hi => (hv i hi).2.symm
    rw [List.map_congr_left fun i hi => hshape i (List.mem_range.mp hi)] at hp
    have hvsized : ∀ i < source.length, (v i).Sized hollow := fun i hi => (hv i hi).1
    refine ⟨_, sized_concat hd hn hvsized hp.dimension_eq htotal, rfl,
      settles_ofRuns hp (uniform_map_range hvsized hp.dimension_eq) htotal fun k hk T hne hT =>
        elements_of_asked (hsettles k hk) hne hT⟩

theorem nested (h : PartsForetell hollow c C) :
    Foretells hollow c.nested fun N => (C N).nested := by
  refine after fun {m} hm => ?_
  obtain ⟨source, hsource, hm⟩ := bind_eq_ok.mp hm
  obtain ⟨p, hp, hm⟩ := bind_eq_ok.mp hm
  obtain rfl := pure_eq_ok.mp hm
  obtain ⟨hsized, hsettles⟩ := h.source.all hsource
  obtain ⟨⟨t, ht, hfold⟩, -⟩ := runs_eq_ok.mp hp
  refine ⟨_, ofRuns h hsized ht (runsOf_nil.foldlM hfold), ?_⟩
  filter_upwards [hsettles.all, eventually_forall_lt fun i hi =>
    ((h.body _ (sized_elementOf hsized i)).shape (ht i hi)).2, eventually_ge_atTop p.total]
    with N hN hN' hlimit
  refine bind_eq_ok.mpr ⟨source, hN, bind_eq_ok.mpr ⟨p, runs_eq_ok.mpr ⟨⟨t, hN', ?_⟩, ?_⟩, rfl⟩⟩
  · rw [h.rules N]
    exact hfold
  · rw [h.rules N]
    exact hlimit

/-- A comprehension without a condition. -/
theorem comprehension (h : PartsForetell hollow c C) :
    Foretells hollow c.meaning fun N => (C N).meaning := by
  have hmakes : ∀ N, (C N).makesRuns = c.makesRuns := fun N => by rw [h.rules N]
  unfold Comprehension.meaning
  simp only [hmakes]
  split_ifs with hruns
  · exact nested h
  · exact single hruns h

/-! ### With a condition -/

/-- What the body gives for an element that fulfils the condition. -/
def kept (condition body : Meaning Plain) : Plain (Option Series) := do
  if holds (← condition.values .all) then return some (← body.values .all)
  else return none

theorem kept_eq_ok {condition body : Meaning Plain} {o : Option Series} :
    kept condition body = .ok o ↔ ∃ x, condition.values .all = .ok x ∧
      (holds x ∧ (∃ v, body.values .all = .ok v ∧ o = some v) ∨ ¬ holds x ∧ o = none) := by
  rw [kept, bind_eq_ok]
  refine exists_congr fun x => and_congr_right fun _ => ?_
  by_cases hx : holds x
  · rw [if_pos hx, bind_eq_ok]
    simp only [hx, true_and, not_true, false_and, or_false]
    exact exists_congr fun v => and_congr_right fun _ => pure_eq_ok.trans eq_comm
  · rw [if_neg hx]
    simp only [hx, Bool.false_eq_true, false_and, false_or, not_false_iff, true_and]
    exact pure_eq_ok.trans eq_comm

/-- What is left out changes nothing. -/
theorem foldlM_elim {r : Rules} {os : Nat → Option Series} : ∀ (is : List Nat) (b : Builder),
    (is.map os).foldlM (fun b o => o.elim (.ok b) (r.append b)) b =
      (is.filterMap os).foldlM r.append b
  | [], _ => rfl
  | i :: is, b => by
    rw [List.map_cons, List.foldlM_cons]
    cases ho : os i with
    | none =>
      rw [List.filterMap_cons_none ho]
      exact foldlM_elim is b
    | some v =>
      rw [List.filterMap_cons_some ho, List.foldlM_cons]
      exact bind_congr fun b' => foldlM_elim is b'

theorem collectWhen_eq_ok {condition : Series → Meaning Plain} {source : Series} {b : Builder} :
    c.collectWhen condition source = .ok b ↔ ∃ os : Nat → Option Series,
      (∀ i < source.length,
        kept (condition (elementOf source i)) (c.body (elementOf source i)) = .ok (os i)) ∧
        ((List.range source.length).filterMap os).foldlM c.append .empty = .ok b := by
  have hsteps : c.collectWhen condition source = (List.range source.length).foldlM (fun b i =>
      kept (condition (elementOf source i)) (c.body (elementOf source i)) >>= fun o =>
        o.elim (.ok b) (c.append b)) .empty := by
    simp only [collectWhen, Answering.ofExcept_plain]
    congr 1
    funext b i
    simp only [kept, bind_assoc]
    refine bind_congr fun x => ?_
    split_ifs
    · simp only [bind_assoc]
      rfl
    · rfl
  rw [hsteps, foldlM_bind_eq_ok]
  constructor
  · rintro ⟨ys, hys, h⟩
    obtain ⟨os, rfl, hos⟩ := mapM_eq_ok_map.mp hys
    exact ⟨os, fun i hi => hos i (List.mem_range.mpr hi), (foldlM_elim _ _).symm.trans h⟩
  · rintro ⟨os, hos, h⟩
    exact ⟨_, mapM_eq_ok_map.mpr ⟨os, rfl, fun i hi => hos i (List.mem_range.mp hi)⟩,
      (foldlM_elim _ _).trans h⟩

/-- What an element contributes is foretold by the condition and the body. -/
theorem eventually_kept {m m' : Meaning Plain} {M M' : Nat → Meaning Plain}
    (h : Foretells hollow m M) (h' : Foretells hollow m' M') {o : Option Series}
    (ho : kept m m' = .ok o) :
    (∀ v, o = some v → v.Sized hollow) ∧ ∀ᶠ N in atTop, kept (M N) (M' N) = .ok o := by
  obtain ⟨x, hx, hcases⟩ := kept_eq_ok.mp ho
  have hx' := (h.all hx).2.all
  rcases hcases with ⟨hholds, v, hv, rfl⟩ | ⟨hfails, rfl⟩
  · obtain ⟨hsized, hsettles⟩ := h'.all hv
    refine ⟨fun u hu => Option.some.inj hu ▸ hsized, ?_⟩
    filter_upwards [hx', hsettles.all] with N hN hN'
    exact kept_eq_ok.mpr ⟨x, hN, .inl ⟨hholds, v, hN', rfl⟩⟩
  · refine ⟨by simp, ?_⟩
    filter_upwards [hx'] with N hN
    exact kept_eq_ok.mpr ⟨x, hN, .inr ⟨hfails, rfl⟩⟩

/-- A comprehension with a condition may be empty. -/
theorem filtered (hhollow : hollow) (h : PartsForetell hollow c C)
    {condition : Series → Meaning Plain} {Condition : Nat → Series → Meaning Plain}
    (hcondition : ∀ x, x.Sized hollow → Foretells hollow (condition x) fun N => Condition N x) :
    Foretells hollow (c.filtered condition) fun N => (C N).filtered (Condition N) := by
  refine after fun {m} hm => ?_
  obtain ⟨source, hsource, hm⟩ := bind_eq_ok.mp hm
  obtain ⟨b, hb, hm⟩ := bind_eq_ok.mp hm
  obtain ⟨v, hv, hm⟩ := bind_eq_ok.mp hm
  obtain rfl := pure_eq_ok.mp hm
  obtain ⟨hcounted, rfl⟩ := Builder.build_eq_ok.mp (Answering.liftAt_eq_ok.mp hv)
  obtain ⟨hsized, hsettles⟩ := h.source.all hsource
  obtain ⟨os, hos, hb⟩ := collectWhen_eq_ok.mp hb
  have hkept := fun i (hi : i < source.length) => eventually_kept
    (hcondition _ (sized_elementOf hsized i)) (h.body _ (sized_elementOf hsized i)) (hos i hi)
  have hws : ∀ v ∈ (List.range source.length).filterMap os, v.Sized hollow := by
    intro v hv
    obtain ⟨i, hi, ho⟩ := List.mem_filterMap.mp hv
    exact (hkept i (List.mem_range.mp hi)).1 v ho
  obtain ⟨d, hd, huniform, hlength, hfinish, -⟩ := uniform_of_append_empty hws hb
  refine ⟨_, const (v := b.finish) ?_, ?_⟩
  · rw [hfinish]
    refine ⟨Series.regular_concat huniform, .inr hhollow, ?_, ?_⟩
    · rw [Series.shape, Series.length_concat, ← hlength]
      exact hcounted
    · rw [Series.shape, Series.dimension_concat]
      exact hd
  · filter_upwards [hsettles.all, eventually_forall_lt fun i hi => (hkept i hi).2, h.append hb]
      with N hN hN' hb'
    exact bind_eq_ok.mpr ⟨source, hN, bind_eq_ok.mpr
      ⟨b, collectWhen_eq_ok.mpr ⟨os, hN', hb'⟩, bind_eq_ok.mpr
        ⟨b.finish, Answering.liftAt_eq_ok.mpr (Builder.build_eq_ok.mpr ⟨hcounted, rfl⟩), rfl⟩⟩⟩

end VectorScript.Meaning.Foretells
