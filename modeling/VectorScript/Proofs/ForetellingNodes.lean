import VectorScript.Evaluation
import VectorScript.Proofs.Foretelling
import VectorScript.Proofs.KernelLaws

/-!
# Foretelling, node by node

If the parts of a node foretell families, the node foretells the node of these families.  Each time
there are three requests to follow.  A node that succeeds has asked its parts for something, and
what they answered tells what the parts of the family settle on.
-/

namespace VectorScript.Meaning.Foretells

open Filter

variable {hollow : Prop}

/-! ### Element-wise nodes -/

section Elementwise

variable {ι : Type} {items : List ι} {site : Site}
  {check : List Shape → Except EvalError.Cause Shape}
  {combine : List Series → Except EvalError.Cause Series}
  {value : List (Nat → Float32) → Nat → Float32}

theorem elementwise_shape {f : ι → Meaning Plain} {t : ι → Shape} {s : Shape}
    (hshape : ∀ i ∈ items, (f i).shape = .ok (t i)) (hcheck : check (items.map t) = .ok s) :
    (Meaning.elementwise site check combine (items.map f)).shape = .ok s :=
  bind_eq_ok.mpr ⟨items.map t, mapM_map_eq_ok.mpr ⟨t, rfl, hshape⟩,
    Answering.liftAt_eq_ok.mpr hcheck⟩

/-- Operands that answer for the wanted elements are enough. -/
theorem elementwise_elements {f : ι → Meaning Plain} {v : ι → Series} {u : Series} {S : List Int}
    (hpointwise : Pointwise items.length check combine value)
    (hregular : ∀ i ∈ items, (v i).Regular) (hcombine : combine (items.map v) = .ok u)
    (hshape : ∀ i ∈ items, (f i).shape = .ok (v i).shape)
    (helements : ∀ i ∈ items, (f i).values
      (.at (if (v i).length = 1 then [0] else S.filter (inRange u.length))) =
        .ok ((v i).gatherOperand (S.filter (inRange u.length)))) :
    (Meaning.elementwise site check combine (items.map f)).values (.at S) = .ok (u.gather S) := by
  have hregular' : ∀ w ∈ items.map v, w.Regular := by
    intro w hw
    obtain ⟨i, hi, rfl⟩ := List.mem_map.mp hw
    exact hregular i hi
  have hcheck := (hpointwise.check_of_combine (by simp) hregular' hcombine).1
  rw [List.map_map] at hcheck
  obtain ⟨w, hw, hscatter⟩ := hpointwise.scatter_eq (by simp) hregular' hcombine S
  rw [List.map_map] at hw
  refine bind_eq_ok.mpr ⟨_, mapM_map_eq_ok.mpr ⟨_, rfl, hshape⟩, bind_eq_ok.mpr
    ⟨u.shape, Answering.liftAt_eq_ok.mpr hcheck, bind_eq_ok.mpr ⟨_, ?_, bind_eq_ok.mpr
      ⟨w, Answering.liftAt_eq_ok.mpr hw, congrArg Except.ok hscatter⟩⟩⟩⟩
  rw [List.zip_map']
  exact mapM_map_eq_ok.mpr ⟨_, rfl, helements⟩

/-- What an element-wise node has asked for when it has answered for some elements. -/
theorem elements_of_elementwise {f : ι → Meaning Plain} {S : List Int} {w : Series}
    (h : (Meaning.elementwise site check combine (items.map f)).values (.at S) = .ok w) :
    ∃ (t : ι → Shape) (s : Shape) (ws : ι → Series),
      (∀ i ∈ items, (f i).shape = .ok (t i)) ∧ check (items.map t) = .ok s ∧
        ∀ i ∈ items, (f i).values
          (.at (if (t i).length = 1 then [0] else S.filter (inRange s.length))) = .ok (ws i) := by
  obtain ⟨shapes, hshapes, h⟩ := bind_eq_ok.mp h
  obtain ⟨t, rfl, ht⟩ := mapM_map_eq_ok.mp hshapes
  obtain ⟨s, hs, h⟩ := bind_eq_ok.mp h
  obtain ⟨values, hvalues, -⟩ := bind_eq_ok.mp h
  rw [List.zip_map'] at hvalues
  obtain ⟨ws, -, hws⟩ := mapM_map_eq_ok.mp hvalues
  exact ⟨t, s, ws, ht, Answering.liftAt_eq_ok.mp hs, hws⟩

theorem elementwise {f : ι → Meaning Plain} {F : Nat → ι → Meaning Plain}
    (h : ∀ i ∈ items, Foretells hollow (f i) fun n => F n i)
    (hpointwise : Pointwise items.length check combine value) :
    Foretells hollow (.elementwise site check combine (items.map f)) fun n =>
      .elementwise site check combine (items.map (F n)) where
  shape {s} hs := by
    obtain ⟨shapes, hshapes, hs⟩ := bind_eq_ok.mp hs
    obtain ⟨t, rfl, ht⟩ := mapM_map_eq_ok.mp hshapes
    have hcheck := Answering.liftAt_eq_ok.mp hs
    constructor
    · refine hpointwise.sized (by simp) (fun u hu => ?_) hcheck
      obtain ⟨i, hi, rfl⟩ := List.mem_map.mp hu
      exact ((h i hi).shape (ht i hi)).1
    · filter_upwards [eventually_forall_mem fun i hi => ((h i hi).shape (ht i hi)).2] with n hn
      exact elementwise_shape hn hcheck
  all {u} hu := by
    obtain ⟨values, hvalues, hu⟩ := bind_eq_ok.mp hu
    obtain ⟨v, rfl, hv⟩ := mapM_map_eq_ok.mp hvalues
    have hcombine := Answering.liftAt_eq_ok.mp hu
    have hsettles : ∀ i ∈ items, SettlesFully (fun n => F n i) (v i) :=
      fun i hi => ((h i hi).all (hv i hi)).2
    have hregular : ∀ i ∈ items, (v i).Regular := fun i hi => ((h i hi).all (hv i hi)).1.regular
    have hregular' : ∀ w ∈ items.map v, w.Regular := by
      intro w hw
      obtain ⟨i, hi, rfl⟩ := List.mem_map.mp hw
      exact hregular i hi
    obtain ⟨hcheck, hofFn⟩ := hpointwise.check_of_combine (by simp) hregular' hcombine
    rw [List.map_map] at hcheck
    have hshapes := eventually_forall_mem fun i hi => (hsettles i hi).shape
    refine ⟨⟨by rw [hofFn]; exact Series.regular_ofFn _ _, ?_⟩, ?_, fun S => ?_, ?_⟩
    · refine hpointwise.sized (by simp) (fun t ht => ?_) hcheck
      obtain ⟨i, hi, rfl⟩ := List.mem_map.mp ht
      exact ((h i hi).all (hv i hi)).1.sized
    · exact hshapes.mono fun n hn => elementwise_shape hn hcheck
    · have helements := eventually_forall_mem fun i hi => (hsettles i hi).elements
        (if (v i).length = 1 then [0] else S.filter (inRange u.length))
      filter_upwards [hshapes, helements] with n hn hn'
      exact elementwise_elements hpointwise hregular hcombine hn hn'
    · filter_upwards [eventually_forall_mem fun i hi => (hsettles i hi).all] with n hn
      exact bind_eq_ok.mpr ⟨_, mapM_map_eq_ok.mpr ⟨_, rfl, hn⟩, Answering.liftAt_eq_ok.mpr hcombine⟩
  elements {S w} hw := by
    obtain ⟨t, s, ws, ht, hcheck, hws⟩ := elements_of_elementwise hw
    have hparts : ∀ i ∈ items, ∃ v : Series, v.Sized hollow ∧ ws i = v.gather
          (if (t i).length = 1 then [0] else S.filter (inRange s.length)) ∧
        Settles (fun n => F n i) v
          (· ∈ if (t i).length = 1 then [0] else S.filter (inRange s.length)) :=
      fun i hi => (h i hi).elements (hws i hi)
    choose! v hsized hgather hsettles using hparts
    have hshape : ∀ i ∈ items, t i = (v i).shape := fun i hi =>
      (h i hi).shape_eq_of_settles (ht i hi) (hsettles i hi)
    rw [List.map_congr_left hshape] at hcheck
    have hregular : ∀ u ∈ items.map v, u.Regular := by
      intro u hu
      obtain ⟨i, hi, rfl⟩ := List.mem_map.mp hu
      exact (hsized i hi).regular
    have hcombine := hpointwise.combine_of_check (s := s) (by simp) hregular
      (by rw [List.map_map]; exact hcheck)
    -- the elements that were not asked for are whatever the operation gives for them
    generalize hu : Series.ofFn s _ = u at hcombine
    have hus : u.shape = s := by rw [← hu, Series.shape_ofFn]
    have hlength : u.length = s.length := congrArg Shape.length hus
    refine ⟨u, ⟨by rw [← hu]; exact Series.regular_ofFn _ _, ?_⟩, ?_, ?_, fun T hT => ?_⟩
    · rw [hus]
      refine hpointwise.sized (by simp) (fun t ht => ?_) hcheck
      obtain ⟨i, hi, rfl⟩ := List.mem_map.mp ht
      exact (hsized i hi).sized
    · refine Except.ok.inj (hw.symm.trans (elementwise_elements hpointwise
        (fun i hi => (hsized i hi).regular) hcombine (fun i hi => hshape i hi ▸ ht i hi)
        fun i hi => ?_))
      have hi' := hws i hi
      rw [hgather i hi, hshape i hi, ← hlength] at hi'
      exact hi'
    · rw [hus]
      filter_upwards [eventually_forall_mem fun i hi => (hsettles i hi).shape] with n hn
      exact elementwise_shape hn hcheck
    · have helements := eventually_forall_mem fun i hi => (hsettles i hi).elements
        (if (v i).length = 1 then [0] else T.filter (inRange u.length)) (by
          intro k hk _
          rw [hshape i hi]
          show k ∈ if (v i).length = 1 then [0] else S.filter (inRange s.length)
          split_ifs at hk ⊢
          · exact hk
          · obtain ⟨hkT, hrange⟩ := List.mem_filter.mp hk
            exact List.mem_filter.mpr ⟨hT k hkT hrange, hlength ▸ hrange⟩)
      filter_upwards [eventually_forall_mem fun i hi => (hsettles i hi).shape, helements]
        with n hn hn'
      exact elementwise_elements hpointwise (fun i hi => (hsized i hi).regular) hcombine hn hn'

end Elementwise

theorem unary {site : Site} {op : UnaryOp} {m : Meaning Plain} {M : Nat → Meaning Plain}
    (h : Foretells hollow m M) :
    Foretells hollow (.unary site op m) fun n => .unary site op (M n) := by
  cases op with
  | plus => exact h
  | negate | not | factorial =>
    have hitems : ∀ _ ∈ [()], Foretells hollow m M := fun _ _ => h
    exact elementwise hitems (pointwise_map _)

theorem binary {site : Site} {op : BinaryOp} {m m' : Meaning Plain} {M M' : Nat → Meaning Plain}
    (h : Foretells hollow m M) (h' : Foretells hollow m' M') :
    Foretells hollow (.binary site op m m') fun n => .binary site op (M n) (M' n) := by
  have hitems : ∀ first ∈ [true, false],
      Foretells hollow (if first then m else m') fun n => if first then M n else M' n := by
    intro first _
    cases first
    · exact h'
    · exact h
  exact elementwise hitems (pointwise_zipMap 2 _ _)

/-! ### Access -/

section Access

variable {m m' : Meaning Plain} {M M' : Nat → Meaning Plain} {site : Site}

/-- The positions that the values of an index name. -/
def positionsOf (p : Series) : List Int := (p.channel 0).toList.map Scalar.toIndex

theorem length_positionsOf {p : Series} (hregular : p.Regular) (hdimension : p.dimension = 1) :
    (positionsOf p).length = p.length := by
  rw [positionsOf, List.length_map, Array.length_toList, hregular.size_channel (by omega)]

theorem toIndex_nan : Scalar.toIndex Scalar.nan = -1 := by decide +kernel

/-- Positions of gathered values: what is not a number names no element. -/
theorem positionsOf_gather {p : Series} (hregular : p.Regular) (hdimension : p.dimension = 1)
    (S : List Int) : positionsOf (p.gather S) = S.map (Series.pick (positionsOf p)) := by
  have hsize := hregular.size_channel (c := 0) (by omega)
  rw [positionsOf, Series.channel_gather (by omega), List.map_map]
  refine List.map_congr_left fun i _ => ?_
  simp only [Function.comp_apply, Series.pick, length_positionsOf hregular hdimension]
  split_ifs with hi
  · obtain ⟨hnonneg, hlt⟩ := inRange_iff.mp hi
    obtain ⟨k, rfl⟩ := Int.eq_ofNat_of_zero_le hnonneg
    have hk : k < (p.channel 0).size := by omega
    simp [positionsOf, Series.read, Series.readAt_natCast, hk]
  · rw [Series.read_of_not_inRange hregular hi, toIndex_nan]

theorem index_shape_eq_ok {s : Shape} : (Meaning.index site m m').shape = .ok s ↔
    ∃ ps ts, m'.shape = .ok ps ∧ ps.dimension = 1 ∧ m.shape = .ok ts ∧
      s = ⟨ps.length, ts.dimension⟩ := by
  constructor
  · intro h
    obtain ⟨ps, hps, h⟩ := bind_eq_ok.mp h
    by_cases hdim : ps.dimension = 1
    · simp only [hdim] at h
      obtain ⟨ts, hts, h⟩ := bind_eq_ok.mp h
      exact ⟨ps, ts, hps, hdim, hts, (pure_eq_ok.mp h).symm⟩
    · simp only [ne_eq, hdim, not_false_eq_true, if_true] at h
      cases h
  · rintro ⟨ps, ts, hps, hdim, hts, rfl⟩
    refine bind_eq_ok.mpr ⟨ps, hps, ?_⟩
    simp only [hdim]
    exact bind_eq_ok.mpr ⟨ts, hts, rfl⟩

theorem index_values_eq_ok {selection : Selection} {w : Series} :
    (Meaning.index site m m').values selection = .ok w ↔
      ∃ p, m'.values selection = .ok p ∧ p.dimension = 1 ∧
        m.values (.at (positionsOf p)) = .ok w := by
  constructor
  · intro h
    obtain ⟨p, hp, h⟩ := bind_eq_ok.mp h
    by_cases hdim : p.dimension = 1
    · simp only [hdim] at h
      exact ⟨p, hp, hdim, h⟩
    · simp only [ne_eq, hdim, not_false_eq_true, if_true] at h
      cases h
  · rintro ⟨p, hp, hdim, hw⟩
    refine bind_eq_ok.mpr ⟨p, hp, ?_⟩
    simp only [hdim]
    exact hw

/-- A family that settles on the target at the positions, and one that settles on these. -/
theorem settles_index {p tv : Series} {D : Int → Prop} (hp : p.Sized hollow)
    (hpdim : p.dimension = 1) (htv : tv.Sized hollow) (hindex : Settles M' p D)
    (htarget : Settles M tv fun k => ∃ i, inRange p.length i ∧ D i ∧
      k = Series.pick (positionsOf p) i) :
    Settles (fun n => .index site (M n) (M' n)) (tv.gather (positionsOf p)) D where
  shape := by
    filter_upwards [hindex.shape, htarget.shape] with n hn hn'
    refine index_shape_eq_ok.mpr ⟨_, _, hn, hpdim, hn', ?_⟩
    rw [Series.shape_gather, length_positionsOf hp.regular hpdim]
    rfl
  elements S hS := by
    have hlength : (tv.gather (positionsOf p)).length = p.length :=
      length_positionsOf hp.regular hpdim
    rw [hlength] at hS
    have hpositions : ∀ k ∈ S.map (Series.pick (positionsOf p)), inRange tv.length k →
        ∃ i, inRange p.length i ∧ D i ∧ k = Series.pick (positionsOf p) i := by
      intro k hk hrange
      obtain ⟨i, hi, rfl⟩ := List.mem_map.mp hk
      by_cases hin : inRange p.length i
      · exact ⟨i, hin, hS i hi hin, rfl⟩
      · rw [Series.pick, length_positionsOf hp.regular hpdim, if_neg hin] at hrange
        simp [inRange_iff] at hrange
    filter_upwards [hindex.elements S hS, htarget.elements _ hpositions] with n hn hn'
    refine index_values_eq_ok.mpr ⟨_, hn, by simpa using hpdim, ?_⟩
    rw [positionsOf_gather hp.regular hpdim, hn', Series.gather_gather htv.regular]

theorem sized_gather_positionsOf {p tv : Series} (hp : p.Sized hollow)
    (hpdim : p.dimension = 1) (htv : tv.Sized hollow) :
    (tv.gather (positionsOf p)).Sized hollow := by
  refine ⟨Series.regular_gather _ _, ?_⟩
  rw [Series.shape_gather, length_positionsOf hp.regular hpdim]
  exact ⟨hp.sized.nonempty, hp.sized.length_le, htv.sized.dimension_pos⟩

theorem index (h : Foretells hollow m M) (h' : Foretells hollow m' M') :
    Foretells hollow (.index site m m') fun n => .index site (M n) (M' n) where
  shape {s} hs := by
    obtain ⟨ps, ts, hps, hdim, hts, rfl⟩ := index_shape_eq_ok.mp hs
    obtain ⟨hpsized, hps'⟩ := h'.shape hps
    obtain ⟨htsized, hts'⟩ := h.shape hts
    refine ⟨⟨hpsized.nonempty, hpsized.length_le, htsized.dimension_pos⟩, ?_⟩
    filter_upwards [hps', hts'] with n hn hn'
    exact index_shape_eq_ok.mpr ⟨ps, ts, hn, hdim, hn', rfl⟩
  all {w} hw := by
    obtain ⟨p, hp, hdim, hw⟩ := index_values_eq_ok.mp hw
    obtain ⟨hpsized, hpsettles⟩ := h'.all hp
    obtain ⟨tv, htv, rfl, htsettles⟩ := h.elements hw
    have hsettles : Settles (fun n => .index site (M n) (M' n)) (tv.gather (positionsOf p))
        fun _ => True := by
      refine settles_index hpsized hdim htv (hpsettles.settles _)
        ⟨htsettles.shape, fun S hS => htsettles.elements S fun k hk hrange => ?_⟩
      obtain ⟨i, hi, -, rfl⟩ := hS k hk hrange
      obtain ⟨hnonneg, hlt⟩ := inRange_iff.mp hi
      rw [Series.pick, length_positionsOf hpsized.regular hdim, if_pos hi, List.getD_eq_getElem _ _
        (by rw [length_positionsOf hpsized.regular hdim]; omega)]
      exact List.getElem_mem _
    refine ⟨sized_gather_positionsOf hpsized hdim htv, hsettles.fully ?_⟩
    filter_upwards [hpsettles.all, htsettles.elements _ fun k hk _ => hk] with n hn hn'
    exact index_values_eq_ok.mpr ⟨p, hn, hdim, hn'⟩
  elements {S w} hw := by
    obtain ⟨pw, hpw, hdim, hw⟩ := index_values_eq_ok.mp hw
    obtain ⟨p, hpsized, rfl, hpsettles⟩ := h'.elements hpw
    have hdim : p.dimension = 1 := by simpa using hdim
    rw [positionsOf_gather hpsized.regular hdim] at hw
    obtain ⟨tv, htv, rfl, htsettles⟩ := h.elements hw
    refine ⟨tv.gather (positionsOf p), sized_gather_positionsOf hpsized hdim htv,
      (Series.gather_gather htv.regular _ _).symm, settles_index hpsized hdim htv hpsettles
        ⟨htsettles.shape, fun T hT => htsettles.elements T fun k hk hrange => ?_⟩⟩
    obtain ⟨i, -, hi, rfl⟩ := hT k hk hrange
    exact List.mem_map_of_mem hi

/-! ### Components -/

theorem channelsOf_eq_ok {components : String} {d : Nat} {picks : List Nat}
    (h : channelsOf components d = .ok picks) :
    picks.length = components.toList.length ∧ ∀ c ∈ picks, c < d := by
  simp only [channelsOf] at h
  split_ifs at h with hall
  obtain rfl := Except.ok.inj h
  exact ⟨by simp, by simpa using List.all_eq_true.mp hall⟩

theorem swizzle_values_eq_ok {components : String} {selection : Selection} {w : Series} :
    (Meaning.swizzle site components m).values selection = .ok w ↔
      ∃ v picks, m.values selection = .ok v ∧ channelsOf components v.dimension = .ok picks ∧
        w = v.components picks := by
  constructor
  · intro h
    obtain ⟨v, hv, h⟩ := bind_eq_ok.mp h
    obtain ⟨picks, hpicks, h⟩ := bind_eq_ok.mp h
    exact ⟨v, picks, hv, Answering.liftAt_eq_ok.mp hpicks, (pure_eq_ok.mp h).symm⟩
  · rintro ⟨v, picks, hv, hpicks, rfl⟩
    exact bind_eq_ok.mpr ⟨v, hv, bind_eq_ok.mpr ⟨picks, Answering.liftAt_eq_ok.mpr hpicks, rfl⟩⟩

theorem swizzle_shape_eq_ok {components : String} {s : Shape} :
    (Meaning.swizzle site components m).shape = .ok s ↔
      ∃ t picks, m.shape = .ok t ∧ channelsOf components t.dimension = .ok picks ∧
        s = ⟨t.length, picks.length⟩ := by
  constructor
  · intro h
    obtain ⟨t, ht, h⟩ := bind_eq_ok.mp h
    obtain ⟨picks, hpicks, h⟩ := bind_eq_ok.mp h
    exact ⟨t, picks, ht, Answering.liftAt_eq_ok.mp hpicks, (pure_eq_ok.mp h).symm⟩
  · rintro ⟨t, picks, ht, hpicks, rfl⟩
    exact bind_eq_ok.mpr ⟨t, ht, bind_eq_ok.mpr ⟨picks, Answering.liftAt_eq_ok.mpr hpicks, rfl⟩⟩

theorem settles_swizzle (site : Site) {components : String} {v : Series} {picks : List Nat}
    {D : Int → Prop} (hpicks : channelsOf components v.dimension = .ok picks) (h : Settles M v D) :
    Settles (fun n => .swizzle site components (M n)) (v.components picks) D where
  shape := by
    filter_upwards [h.shape] with n hn
    exact swizzle_shape_eq_ok.mpr ⟨v.shape, picks, hn, hpicks, v.shape_components picks⟩
  elements S hS := by
    filter_upwards [h.elements S hS] with n hn
    exact swizzle_values_eq_ok.mpr ⟨v.gather S, picks, hn, by simpa using hpicks,
      (Series.components_gather (channelsOf_eq_ok hpicks).2 S).symm⟩

theorem swizzle {components : String} (hne : components.toList ≠ []) (h : Foretells hollow m M) :
    Foretells hollow (.swizzle site components m) fun n => .swizzle site components (M n) := by
  have hpos : ∀ {d picks}, channelsOf components d = .ok picks → 0 < picks.length := by
    intro d picks hpicks
    rw [(channelsOf_eq_ok hpicks).1]
    exact List.length_pos_iff.mpr hne
  have hcomponents : ∀ {v : Series} {picks}, v.Sized hollow →
      channelsOf components v.dimension = .ok picks → (v.components picks).Sized hollow := by
    intro v picks hv hpicks
    refine ⟨Series.regular_components hv.regular (channelsOf_eq_ok hpicks).2, ?_⟩
    rw [Series.shape_components]
    exact ⟨hv.sized.nonempty, hv.sized.length_le, hpos hpicks⟩
  refine ⟨fun {s} hs => ?_, fun {w} hw => ?_, fun {S w} hw => ?_⟩
  · obtain ⟨t, picks, ht, hpicks, rfl⟩ := swizzle_shape_eq_ok.mp hs
    obtain ⟨hsized, ht'⟩ := h.shape ht
    refine ⟨⟨hsized.nonempty, hsized.length_le, hpos hpicks⟩, ?_⟩
    filter_upwards [ht'] with n hn
    exact swizzle_shape_eq_ok.mpr ⟨t, picks, hn, hpicks, rfl⟩
  · obtain ⟨v, picks, hv, hpicks, rfl⟩ := swizzle_values_eq_ok.mp hw
    obtain ⟨hvsized, hsettles⟩ := h.all hv
    have hsettles' := settles_swizzle site hpicks (hsettles.settles fun _ => True)
    refine ⟨hcomponents hvsized hpicks, hsettles'.fully ?_⟩
    filter_upwards [hsettles.all] with n hn
    exact swizzle_values_eq_ok.mpr ⟨v, picks, hn, hpicks, rfl⟩
  · obtain ⟨vw, picks, hvw, hpicks, rfl⟩ := swizzle_values_eq_ok.mp hw
    obtain ⟨v, hvsized, rfl, hsettles⟩ := h.elements hvw
    rw [Series.dimension_gather] at hpicks
    exact ⟨v.components picks, hcomponents hvsized hpicks,
      Series.components_gather (channelsOf_eq_ok hpicks).2 S, settles_swizzle site hpicks hsettles⟩

end Access

/-! ### Conditionals -/

theorem nan_eq_const (s : Shape) : (Meaning.nan s : Meaning Plain) = .const (Series.nan s) := by
  have hshape : (Series.nan s).shape = s := by rw [Series.nan_eq_ofFn, Series.shape_ofFn]
  rw [Meaning.nan, Meaning.const, hshape]

theorem nan {s : Shape} (hs : s.Sized hollow) : Foretells hollow (.nan s) fun _ => .nan s := by
  rw [nan_eq_const]
  refine const ?_
  rw [Series.nan_eq_ofFn]
  exact Series.sized_ofFn hs _

theorem conditional {site : Site} {m₁ m₂ m₃ : Meaning Plain} {M₁ M₂ M₃ : Nat → Meaning Plain}
    (h₁ : Foretells hollow m₁ M₁) (h₂ : Foretells hollow m₂ M₂) (h₃ : Foretells hollow m₃ M₃) :
    Foretells hollow (.conditional site m₁ m₂ m₃) fun n =>
      .conditional site (M₁ n) (M₂ n) (M₃ n) := by
  refine after fun {m} hm => ?_
  obtain ⟨t, ht, hm⟩ := bind_eq_ok.mp hm
  have ht' := (h₂.shape ht).2
  -- a condition that is one number chooses a branch; otherwise elements are chosen one by one
  by_cases hscalar : t = .scalar
  · rw [if_pos hscalar] at hm
    obtain ⟨cv, hcv, hm⟩ := bind_eq_ok.mp hm
    have hcv' := (h₂.all hcv).2.all
    by_cases hnan : cv.first.isNaN
    · rw [if_pos hnan] at hm
      obtain ⟨s, hs, hm⟩ := bind_eq_ok.mp hm
      obtain rfl := pure_eq_ok.mp hm
      obtain ⟨hsized, hs'⟩ := h₁.shape hs
      refine ⟨fun _ => .nan s, nan hsized, ?_⟩
      filter_upwards [ht', hcv', hs'] with n hn hn' hn''
      simp only [hn, hn', hn'', ok_bind, hscalar, if_true, hnan]
      rfl
    · rw [if_neg hnan] at hm
      by_cases hzero : cv.first != 0
      · rw [if_pos hzero] at hm
        obtain rfl := pure_eq_ok.mp hm
        refine ⟨M₁, h₁, ?_⟩
        filter_upwards [ht', hcv'] with n hn hn'
        simp only [hn, hn', ok_bind, hscalar, if_true, hnan, hzero]
        rfl
      · rw [if_neg hzero] at hm
        obtain rfl := pure_eq_ok.mp hm
        refine ⟨M₃, h₃, ?_⟩
        filter_upwards [ht', hcv'] with n hn hn'
        simp only [hn, hn', ok_bind, hscalar, if_true, hnan, hzero]
        rfl
  · rw [if_neg hscalar] at hm
    obtain rfl := pure_eq_ok.mp hm
    have hitems : ∀ i ∈ [(m₁, M₁), (m₂, M₂), (m₃, M₃)], Foretells hollow i.1 fun n => i.2 n := by
      simp [h₁, h₂, h₃]
    refine ⟨_, elementwise hitems
      (pointwise_zipMap 3 (fun e => .differingDimensions e.expected e.found) choose), ?_⟩
    filter_upwards [ht'] with n hn
    simp only [hn, ok_bind, hscalar, if_false]
    rfl

/-! ### Ranges -/

theorem le_two_mul_keep53 (n : Nat) : n ≤ 2 * Scalar.keep53 n := by
  unfold Scalar.keep53
  split_ifs with hsmall
  · omega
  · have hunit : 0 < Nat.pow 2 (n.log2 + 1 - 53) := Nat.pow_pos (by decide)
    have hle : Nat.pow 2 (n.log2 + 1 - 53) ≤ n :=
      Nat.le_trans (Nat.pow_le_pow_right (by decide) (by omega)) (Nat.log2_self_le (by omega))
    simp only
    generalize Nat.pow 2 (n.log2 + 1 - 53) = unit at hunit hle ⊢
    have hkept : unit ≤ n / unit * unit :=
      Nat.le_mul_of_pos_left unit (Nat.div_pos hle hunit)
    have hsum := Nat.div_add_mod' n unit
    have hrest := Nat.mod_lt n hunit
    have hnext : (n / unit + 1) * unit = n / unit * unit + unit := Nat.succ_mul _ _
    split_ifs <;> omega

theorem ofBounds_eq_ok {limit : Nat} {lower upper : Float32} {r : Range}
    (h : Range.ofBounds limit lower upper = .ok r) :
    0 < r.length ∧ r.length ≤ maxLength ∧
      ∀ᶠ n in atTop, Range.ofBounds n lower upper = .ok r := by
  simp only [Range.ofBounds] at h ⊢
  split_ifs at h ⊢ with hfinite hle hlimit
  obtain rfl := Except.ok.inj h
  generalize hd : Scalar.keep53 (Scalar.toInt upper - Scalar.toInt lower).toNat = d
  have hlength := le_two_mul_keep53 (d + 1)
  refine ⟨Nat.lt_min.mpr ⟨by omega, by decide⟩, Nat.min_le_right _ _, ?_⟩
  filter_upwards [eventually_ge_atTop (2 * Scalar.keep53 (d + 1))] with n hn
  have hkeep := le_two_mul_keep53 n
  rw [if_neg (by omega)]

/-- The answers of a range are those of a known series. -/
theorem range_eq_const (r : Range) :
    (⟨pure ⟨r.length, 1⟩, fun selection => pure (r.values selection)⟩ : Meaning Plain) =
      .const (r.values .all) := by
  have hshape : (r.values .all).shape = ⟨r.length, 1⟩ := by simp [Range.values]
  rw [Meaning.const, hshape]
  congr 1
  funext selection
  cases selection with
  | all => rfl
  | «at» indices =>
    refine congrArg Except.ok ?_
    show Series.ofValues (indices.map r.readAt).toArray = (r.values .all).gather indices
    rw [Series.gather_eq]
    simp only [Series.ofValues, List.size_toArray, List.length_map]
    refine congrArg (Series.mk _) ?_
    show [(indices.map r.readAt).toArray] = [_]
    congr 3
    funext i
    unfold Range.readAt
    split_ifs with hi
    · obtain ⟨hnonneg, hlt⟩ := inRange_iff.mp hi
      obtain ⟨k, rfl⟩ := Int.eq_ofNat_of_zero_le hnonneg
      have hk : k < r.length := by omega
      simp [Series.read, Series.channel, Range.values, Series.ofValues, Series.readAt_natCast, hk]
    · exact (Series.read_of_not_inRange (Series.regular_ofValues _)
        (by simpa [Series.ofValues] using hi) 0).symm

theorem bound_eq_ok {site : Site} {m : Meaning Plain} {x : Float32} :
    Meaning.bound site m = .ok x ↔
      m.shape = .ok .scalar ∧ ∃ v, m.values .all = .ok v ∧ v.first = x := by
  constructor
  · intro h
    obtain ⟨s, hs, h⟩ := bind_eq_ok.mp h
    by_cases hscalar : s = .scalar
    · simp only [hscalar] at h
      obtain ⟨v, hv, h⟩ := bind_eq_ok.mp h
      exact ⟨hscalar ▸ hs, v, hv, pure_eq_ok.mp h⟩
    · simp only [ne_eq, hscalar, not_false_eq_true, if_true] at h
      cases h
  · rintro ⟨hs, v, hv, rfl⟩
    exact bind_eq_ok.mpr ⟨.scalar, hs, bind_eq_ok.mpr ⟨v, hv, rfl⟩⟩

theorem bound {site : Site} {m : Meaning Plain} {M : Nat → Meaning Plain} (h : Foretells hollow m M)
    {x : Float32} (hx : Meaning.bound site m = .ok x) :
    ∀ᶠ n in atTop, Meaning.bound site (M n) = .ok x := by
  obtain ⟨hs, v, hv, hfirst⟩ := bound_eq_ok.mp hx
  filter_upwards [(h.shape hs).2, (h.all hv).2.all] with n hn hn'
  exact bound_eq_ok.mpr ⟨hn, v, hn', hfirst⟩

theorem range {site lowerSite upperSite : Site} {limit : Nat} {m m' : Meaning Plain}
    {M M' : Nat → Meaning Plain} (h : Foretells hollow m M) (h' : Foretells hollow m' M') :
    Foretells hollow (.range site lowerSite upperSite limit m m') fun n =>
      .range site lowerSite upperSite n (M n) (M' n) := by
  refine after fun {found} hfound => ?_
  obtain ⟨lo, hlo, hfound⟩ := bind_eq_ok.mp hfound
  obtain ⟨hi, hhi, hfound⟩ := bind_eq_ok.mp hfound
  obtain ⟨r, hr, hfound⟩ := bind_eq_ok.mp hfound
  obtain rfl := pure_eq_ok.mp hfound
  obtain ⟨hpos, hle, hr'⟩ := ofBounds_eq_ok (Answering.liftAt_eq_ok.mp hr)
  refine ⟨fun _ => ⟨pure ⟨r.length, 1⟩, fun selection => pure (r.values selection)⟩, ?_, ?_⟩
  · rw [range_eq_const]
    refine const ⟨Series.regular_ofValues _, ?_⟩
    exact ⟨.inl (by simpa [Range.values] using hpos), by simpa [Range.values] using hle,
      Nat.one_pos⟩
  · filter_upwards [h.bound hlo, h'.bound hhi, hr'] with n hn hn' hn''
    exact bind_eq_ok.mpr ⟨lo, hn, bind_eq_ok.mpr ⟨hi, hn', bind_eq_ok.mpr
      ⟨r, Answering.liftAt_eq_ok.mpr hn'', rfl⟩⟩⟩

/-! ### Builtins -/

/-- Nodes that find a whole series for every selection and then select from it. -/
theorem of_selected {m : Meaning Plain} {M : Nat → Meaning Plain} (compute : Plain Series)
    (Compute : Nat → Plain Series)
    (hm : ∀ selection, m.values selection = compute >>= fun v => pure (v.select selection))
    (hM : ∀ n selection, (M n).values selection = Compute n >>= fun v => pure (v.select selection))
    (hshape : ∀ {s}, m.shape = .ok s → s.Sized hollow ∧ ∀ᶠ n in atTop, (M n).shape = .ok s)
    (hvalue : ∀ {v}, compute = .ok v → v.Sized hollow ∧ (∀ᶠ n in atTop, Compute n = .ok v) ∧
      ∀ᶠ n in atTop, (M n).shape = .ok v.shape) : Foretells hollow m M := by
  have hsettles : ∀ {v}, compute = .ok v → v.Sized hollow ∧ SettlesFully M v := by
    intro v hv
    obtain ⟨hsized, hcompute, hvshape⟩ := hvalue hv
    have hselect : ∀ selection, ∀ᶠ n in atTop,
        (M n).values selection = .ok (v.select selection) := by
      intro selection
      filter_upwards [hcompute] with n hn
      rw [hM, hn]
      rfl
    exact ⟨hsized, hvshape, fun S => hselect (.at S), hselect .all⟩
  refine ⟨hshape, fun {v} hv => ?_, fun {S w} hw => ?_⟩
  · rw [hm] at hv
    obtain ⟨u, hu, hv⟩ := bind_eq_ok.mp hv
    obtain rfl : u = v := pure_eq_ok.mp hv
    exact hsettles hu
  · rw [hm] at hw
    obtain ⟨u, hu, hw⟩ := bind_eq_ok.mp hw
    obtain rfl : u.gather S = w := pure_eq_ok.mp hw
    exact ⟨u, (hsettles hu).1, rfl, (hsettles hu).2.settles _⟩

theorem reduced {f : Array Float32 → Float32} {m : Meaning Plain} {M : Nat → Meaning Plain}
    (h : Foretells hollow m M) : Foretells hollow (.reduced f m) fun n => .reduced f (M n) := by
  refine of_selected (Builtin.reduceChannels f <$> m.values .all)
    (fun n => Builtin.reduceChannels f <$> (M n).values .all) (fun selection => ?_)
    (fun n selection => ?_) (fun {s} hs => ?_) fun {v} hv => ?_
  · simp only [Meaning.reduced]
    cases m.values .all <;> rfl
  · simp only [Meaning.reduced]
    cases (M n).values .all <;> rfl
  · obtain ⟨t, ht, hs⟩ := bind_eq_ok.mp hs
    obtain rfl := pure_eq_ok.mp hs
    obtain ⟨hsized, ht'⟩ := h.shape ht
    refine ⟨.single hsized.dimension_pos, ?_⟩
    filter_upwards [ht'] with n hn
    exact bind_eq_ok.mpr ⟨t, hn, rfl⟩
  · obtain ⟨u, hu, rfl⟩ := map_eq_ok.mp hv
    obtain ⟨hsized, hsettles⟩ := h.all hu
    have hshape : (Builtin.reduceChannels f u).shape = ⟨1, u.dimension⟩ := by
      rw [Builtin.reduceChannels, Series.shape_vector, List.length_map]
      rfl
    rw [hshape]
    refine ⟨⟨Series.regular_vector _, ?_⟩, ?_, ?_⟩
    · rw [hshape]
      exact .single hsized.sized.dimension_pos
    · filter_upwards [hsettles.all] with n hn
      exact map_eq_ok.mpr ⟨u, hn, rfl⟩
    · filter_upwards [hsettles.shape] with n hn
      exact bind_eq_ok.mpr ⟨u.shape, hn, rfl⟩

theorem countedShape_eq_ok {site : Site} {r : Except EvalError.Cause Shape} {s : Shape} :
    (do let t ← Answering.liftAt site r
        return ⟨← Answering.count site t.length, t.dimension⟩ : Plain Shape) = .ok s ↔
      r = .ok s ∧ s.length ≤ maxLength := by
  simp only [bind_eq_ok, Answering.liftAt_eq_ok, Answering.count_eq_ok, pure_eq_ok]
  constructor
  · rintro ⟨t, ht, n, ⟨rfl, hle⟩, rfl⟩
    exact ⟨ht, hle⟩
  · rintro ⟨hs, hle⟩
    exact ⟨s, hs, s.length, ⟨rfl, hle⟩, rfl⟩

theorem whole {ι : Type} {items : List ι} {site : Site} {accepts : Nat → Bool}
    {kernel : List Series → Except EvalError.Cause Series}
    {rule : List Shape → Except EvalError.Cause Shape} {f : ι → Meaning Plain}
    {F : Nat → ι → Meaning Plain} (hfits : Kernel.Fits accepts kernel rule)
    (hcount : accepts items.length) (h : ∀ i ∈ items, Foretells hollow (f i) fun n => F n i) :
    Foretells hollow (.whole site kernel rule (items.map f)) fun n =>
      .whole site kernel rule (items.map (F n)) := by
  refine of_selected
    ((items.map f).mapM (·.values .all) >>= fun vs => Answering.liftAt site (kernel vs))
    (fun n =>
      (items.map (F n)).mapM (·.values .all) >>= fun vs => Answering.liftAt site (kernel vs))
    (fun selection => ?_) (fun n selection => ?_) (fun {s} hs => ?_) fun {v} hv => ?_
  · simp only [Meaning.whole, bind_assoc]
  · simp only [Meaning.whole, bind_assoc]
  · obtain ⟨shapes, hshapes, hs⟩ := bind_eq_ok.mp hs
    obtain ⟨t, rfl, ht⟩ := mapM_map_eq_ok.mp hshapes
    obtain ⟨hrule, hlength⟩ := countedShape_eq_ok.mp hs
    constructor
    · refine hfits.sized (by simpa using hcount) (fun u hu => ?_) hrule hlength
      obtain ⟨i, hi, rfl⟩ := List.mem_map.mp hu
      exact ((h i hi).shape (ht i hi)).1
    · filter_upwards [eventually_forall_mem fun i hi => ((h i hi).shape (ht i hi)).2] with n hn
      exact bind_eq_ok.mpr ⟨_, mapM_map_eq_ok.mpr ⟨t, rfl, hn⟩, hs⟩
  · obtain ⟨values, hvalues, hv⟩ := bind_eq_ok.mp hv
    obtain ⟨u, rfl, hu⟩ := mapM_map_eq_ok.mp hvalues
    have hsized : ∀ w ∈ items.map u, w.Sized hollow := by
      intro w hw
      obtain ⟨i, hi, rfl⟩ := List.mem_map.mp hw
      exact ((h i hi).all (hu i hi)).1
    have hchannels : ∀ w ∈ items.map u, w.Regular ∧ 0 < w.dimension := fun w hw =>
      ⟨(hsized w hw).regular, (hsized w hw).sized.dimension_pos⟩
    obtain ⟨hregular, hrule⟩ :=
      hfits.value (by simpa using hcount) hchannels (Answering.liftAt_eq_ok.mp hv)
    have hlength := hfits.counted (by simpa using hcount) hsized (Answering.liftAt_eq_ok.mp hv)
    refine ⟨⟨hregular, hfits.sized (by simpa using hcount) (fun t ht => ?_) hrule hlength⟩, ?_, ?_⟩
    · obtain ⟨w, hw, rfl⟩ := List.mem_map.mp ht
      exact (hsized w hw).sized
    · filter_upwards [eventually_forall_mem fun i hi => ((h i hi).all (hu i hi)).2.all] with n hn
      exact bind_eq_ok.mpr ⟨_, mapM_map_eq_ok.mpr ⟨u, rfl, hn⟩, hv⟩
    · filter_upwards [eventually_forall_mem fun i hi => ((h i hi).all (hu i hi)).2.shape]
        with n hn
      rw [List.map_map] at hrule
      exact bind_eq_ok.mpr ⟨_, mapM_map_eq_ok.mpr ⟨_, rfl, hn⟩,
        countedShape_eq_ok.mpr ⟨hrule, hlength⟩⟩

theorem builtin_plain (site : Site) (b : Builtin) (args : List (Meaning Plain)) :
    Meaning.builtin site b args = .ofKernel site b.name args b.kernel := rfl

theorem length_eq_one_of_exactly {b : Builtin} {n : Nat} (harity : b.arity = .exactly 1)
    (hcount : b.arity.accepts n) : n = 1 := by
  simpa [harity, Arity.accepts] using hcount

theorem builtin {ι : Type} {items : List ι} {site : Site} {b : Builtin} {f : ι → Meaning Plain}
    {F : Nat → ι → Meaning Plain} (hfits : b.Fits) (hcount : b.arity.accepts items.length)
    (h : ∀ i ∈ items, Foretells hollow (f i) fun n => F n i) :
    Foretells hollow (.builtin site b (items.map f)) fun n =>
      .builtin site b (items.map (F n)) := by
  simp only [builtin_plain]
  unfold Builtin.Fits at hfits
  cases hkernel : b.kernel with
  | map g =>
    simp only [hkernel] at hfits
    have hone := length_eq_one_of_exactly hfits hcount
    exact elementwise h (by rw [hone]; exact pointwise_map g)
  | zip g =>
    exact elementwise h (pointwise_zipMap items.length
      (fun _ => .invalidArgument b.name "arguments differ in dimension") _)
  | reduce g =>
    simp only [hkernel] at hfits
    obtain ⟨i, rfl⟩ := List.length_eq_one_iff.mp (length_eq_one_of_exactly hfits hcount)
    exact (h i List.mem_cons_self).reduced
  | whole kernel rule =>
    simp only [hkernel] at hfits
    exact whole hfits hcount h
  | reserved => exact fail site _

/-- A call of an undeclared name. -/
theorem ofBuiltinCall {ι : Type} {items : List ι} {site : Site} {name : String}
    {f : ι → Meaning Plain} {F : Nat → ι → Meaning Plain}
    (h : ∀ i ∈ items, Foretells hollow (f i) fun n => F n i) :
    Foretells hollow (.ofBuiltinCall site name (items.map f)) fun n =>
      .ofBuiltinCall site name (items.map (F n)) := by
  simp only [Meaning.ofBuiltinCall, List.length_map]
  cases hlookup : Catalog.lookup name items.length with
  | error cause => exact fail site cause
  | ok found =>
    cases found with
    | none =>
      simp only
      split_ifs <;> exact fail site _
    | some b =>
      obtain ⟨hfits, hcount⟩ := Catalog.fits_of_lookup hlookup
      exact builtin hfits hcount h

/-! ### Calls of declared functions -/

/-- A call asks the body with values of the arguments, or with the arguments themselves. -/
theorem call {ι : Type} {items : List ι} {f : ι → Meaning Plain} {F : Nat → ι → Meaning Plain}
    {applied : List Series → Meaning Plain} (Applied : Nat → List Series → Meaning Plain)
    {deferred : Meaning Plain} (Deferred : Nat → Meaning Plain)
    (h : ∀ i ∈ items, Foretells hollow (f i) fun n => F n i)
    (happlied : ∀ vs, (∀ v ∈ vs, v.Sized hollow) → vs.length = items.length →
      Foretells hollow (applied vs) fun n => Applied n vs)
    (hswitch : ∀ v : ι → Series, (∀ i ∈ items, (f i).values .all = .ok (v i)) →
      Foretells hollow (applied (items.map v)) Deferred)
    (hdeferred : Foretells hollow deferred Deferred) :
    Foretells hollow (.call (items.map f) applied deferred) fun n =>
      .call (items.map (F n)) (Applied n) (Deferred n) where
  shape hs := hdeferred.shape hs
  all {w} hw := by
    obtain ⟨values, hvalues, hw⟩ := bind_eq_ok.mp hw
    obtain ⟨v, rfl, hv⟩ := mapM_map_eq_ok.mp hvalues
    have hsettles : ∀ i ∈ items, (v i).Sized hollow ∧ SettlesFully (fun n => F n i) (v i) :=
      fun i hi => (h i hi).all (hv i hi)
    obtain ⟨hsized, hsame⟩ := (happlied (items.map v) (by
      intro u hu
      obtain ⟨i, hi, rfl⟩ := List.mem_map.mp hu
      exact (hsettles i hi).1) (by simp)).all hw
    have hother := ((hswitch v hv).all hw).2
    refine ⟨hsized, hother.shape, hother.elements, ?_⟩
    filter_upwards [hsame.all, eventually_forall_mem fun i hi => (hsettles i hi).2.all]
      with n hn hn'
    exact bind_eq_ok.mpr ⟨_, mapM_map_eq_ok.mpr ⟨v, rfl, hn'⟩, hn⟩
  elements hw := by
    obtain ⟨v, hsized, hgather, hsettles⟩ := hdeferred.elements hw
    exact ⟨v, hsized, hgather, hsettles.shape, hsettles.elements⟩

end VectorScript.Meaning.Foretells
