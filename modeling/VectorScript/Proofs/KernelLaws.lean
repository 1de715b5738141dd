import VectorScript.Builtin.Catalog
import VectorScript.Proofs.Broadcasting
import VectorScript.Proofs.Concatenation

/-!
# Laws of kernels

A builtin that works on whole arguments has a rule for the shape of its result.  Whenever the kernel
succeeds the rule tells the shape of its value (`Catalog.fits_of_lookup`).  What the rule says where
the kernel fails is left open here.  No rule gives more than four components.
-/

namespace VectorScript

/-- A kernel of whole arguments and its rule: the rule tells the shape of every value of the kernel,
and no shape without elements if the arguments have some.  A value has no more elements than can be
counted; the length that the rule finds may be beyond that. -/
structure Kernel.Fits (accepts : Nat → Bool) (f : List Series → Except EvalError.Cause Series)
    (rule : List Shape → Except EvalError.Cause Shape) : Prop where
  value : ∀ {vs v}, accepts vs.length → (∀ u ∈ vs, u.Regular ∧ 0 < u.dimension) → f vs = .ok v →
    v.Regular ∧ rule (vs.map Series.shape) = .ok v.shape
  counted : ∀ {hollow : Prop} {vs v}, accepts vs.length → (∀ u ∈ vs, u.Sized hollow) →
    f vs = .ok v → v.length ≤ maxLength
  sized : ∀ {hollow : Prop} {ts s}, accepts ts.length → (∀ t ∈ ts, t.Sized hollow) →
    rule ts = .ok s → s.length ≤ maxLength → s.Sized hollow
  formed : ∀ {ts s}, accepts ts.length → (∀ t ∈ ts, t.Formed) → rule ts = .ok s → s.Formed

/-- The same for a kernel whose rule finds no length beyond those of the arguments. -/
structure Kernel.Bounded (accepts : Nat → Bool) (f : List Series → Except EvalError.Cause Series)
    (rule : List Shape → Except EvalError.Cause Shape) : Prop where
  value : ∀ {vs v}, accepts vs.length → (∀ u ∈ vs, u.Regular ∧ 0 < u.dimension) → f vs = .ok v →
    v.Regular ∧ rule (vs.map Series.shape) = .ok v.shape
  sized : ∀ {hollow : Prop} {ts s}, accepts ts.length → (∀ t ∈ ts, t.Sized hollow) →
    rule ts = .ok s → s.Sized hollow
  formed : ∀ {ts s}, accepts ts.length → (∀ t ∈ ts, t.Formed) → rule ts = .ok s → s.Formed

theorem Kernel.Bounded.fits {accepts : Nat → Bool}
    {f : List Series → Except EvalError.Cause Series}
    {rule : List Shape → Except EvalError.Cause Shape} (h : Kernel.Bounded accepts f rule) :
    Kernel.Fits accepts f rule where
  value := h.value
  counted {hollow vs v} hn hvs hv := by
    obtain ⟨-, hrule⟩ := h.value hn
      (fun u hu => ⟨(hvs u hu).regular, (hvs u hu).sized.dimension_pos⟩) hv
    have hshapes : ∀ t ∈ vs.map Series.shape, t.Sized hollow := by
      intro t ht
      obtain ⟨u, hu, rfl⟩ := List.mem_map.mp ht
      exact (hvs u hu).sized
    exact (h.sized (by simpa using hn) hshapes hrule).length_le
  sized hn hts hs _ := h.sized hn hts hs
  formed := h.formed

/-- What the evaluation of calls needs to know of a builtin. -/
def Builtin.Fits (b : Builtin) : Prop :=
  match b.kernel with
  | .map _ | .reduce _ => b.arity = .exactly 1
  | .zip _ | .reserved => True
  | .whole f rule => Kernel.Fits b.arity.accepts f rule

namespace Series

theorem regular_vector (components : List Float32) : (vector components).Regular := by
  intro c hc
  obtain ⟨x, -, rfl⟩ := List.mem_map.mp hc
  rfl

theorem regular_ofValues (values : Array Float32) : (ofValues values).Regular := by
  intro c hc
  obtain rfl : c = values := by simpa [ofValues] using hc
  rfl

@[simp] theorem shape_vector (components : List Float32) :
    (vector components).shape = ⟨1, components.length⟩ := by
  simp [vector, shape, dimension]

@[simp] theorem shape_ofValues (values : Array Float32) :
    (ofValues values).shape = ⟨values.size, 1⟩ := rfl

/-- Channels that make a series are of its length. -/
theorem ofChannels?_eq_some {channels : List (Array Float32)} {v : Series}
    (h : ofChannels? channels = some v) : v.channels = channels ∧ v.Regular := by
  cases channels with
  | nil => cases h
  | cons c cs =>
    simp only [ofChannels?] at h
    split_ifs at h with hsize
    obtain rfl := Option.some.inj h
    refine ⟨rfl, fun values hvalues => ?_⟩
    rcases List.mem_cons.mp hvalues with rfl | hvalues
    · rfl
    · simpa using List.all_eq_true.mp hsize.2 values hvalues

/-- Channels of one length make a series of that length. -/
theorem shape_of_ofChannels? {channels : List (Array Float32)} {v : Series} {n : Nat}
    (hsize : ∀ c ∈ channels, c.size = n) (h : ofChannels? channels = some v) :
    v.Regular ∧ v.shape = ⟨n, channels.length⟩ := by
  obtain ⟨hchannels, hregular⟩ := ofChannels?_eq_some h
  refine ⟨hregular, ?_⟩
  cases channels with
  | nil => cases h
  | cons c cs =>
    have hlength : c.size = v.length := hregular c (by simp [hchannels])
    rw [shape, dimension, hchannels, ← hlength, hsize c List.mem_cons_self]

end Series

namespace Builtin

/-! ### Statistics -/

namespace Statistics

theorem size_sorted (values : Array Float32) : (sorted values).size = values.size := by
  simp [sorted, sortedBy]

theorem bounded_count : Kernel.Bounded (Arity.exactly 1).accepts count fun _ => .ok .scalar where
  value {vs v} hn _ h := by
    obtain ⟨u, rfl⟩ := List.length_eq_one_iff.mp (by simpa [Arity.accepts] using hn)
    obtain rfl := Except.ok.inj h
    exact ⟨Series.regular_vector [_], rfl⟩
  sized {hollow ts s} _ _ h := by
    obtain rfl := Except.ok.inj h
    exact .single Nat.one_pos
  formed {ts s} _ _ h := by
    obtain rfl := Except.ok.inj h
    exact Shape.formed_numbers 1

/-- If quantiles are found, there is one for each that was asked for. -/
theorem size_of_quantiles {qs values result : Array Float32}
    (h : quantiles qs values = .ok result) : result.size = qs.size := by
  obtain ⟨xs, hxs, h⟩ := bind_eq_ok.mp h
  obtain rfl := pure_eq_ok.mp h
  have hlength := (mapM_eq_ok.mp hxs).length_eq
  simpa using hlength.symm

theorem size_of_mapM_quantiles {qs : Array Float32} {n : Nat} (hn : qs.size = n)
    {channels results : List (Array Float32)} (h : channels.mapM (quantiles qs) = .ok results) :
    ∀ c ∈ results, c.size = n := by
  have hsizes := (mapM_eq_ok.mp h).flip.imp fun c values hc =>
    And.intro ((size_of_quantiles hc).trans hn) hc
  exact ((List.forall₂_and_left _ _).mp hsizes).1

theorem bounded_quantile : Kernel.Bounded (Arity.exactly 2).accepts quantile quantileShape where
  value {vs v} hn hvs h := by
    obtain ⟨u, q, rfl⟩ := List.length_eq_two.mp (by simpa [Arity.accepts] using hn)
    have hu := hvs u (by simp)
    have hq := hvs q (by simp)
    simp only [quantile] at h
    split_ifs at h with hdim
    obtain ⟨channels, hchannels, h⟩ := bind_eq_ok.mp h
    split at h
    · rename_i w hw
      obtain rfl := pure_eq_ok.mp h
      obtain ⟨hregular, hshape⟩ := Series.shape_of_ofChannels? (n := q.length)
        (size_of_mapM_quantiles (hq.1.size_channel (by omega)) hchannels) hw
      refine ⟨hregular, ?_⟩
      rw [hshape, ← (mapM_eq_ok.mp hchannels).length_eq]
      have hqdim : q.shape.dimension = 1 := not_not.mp hdim
      simp only [List.map_cons, List.map_nil, quantileShape, hqdim]
      rfl
    · cases h
  sized {hollow ts s} hn hts h := by
    obtain ⟨t, q, rfl⟩ := List.length_eq_two.mp (by simpa [Arity.accepts] using hn)
    have ht := hts t (by simp)
    have hq := hts q (by simp)
    simp only [quantileShape] at h
    split_ifs at h
    obtain rfl := Except.ok.inj h
    exact ⟨hq.nonempty, hq.length_le, ht.dimension_pos⟩
  formed {ts s} hn hts h := by
    obtain ⟨t, q, rfl⟩ := List.length_eq_two.mp (by simpa [Arity.accepts] using hn)
    have ht := hts t (by simp)
    simp only [quantileShape] at h
    split_ifs at h
    obtain rfl := Except.ok.inj h
    exact ⟨ht.dimension_pos, ht.dimension_le⟩

theorem bounded_paired (name : String) (f : Array Float32 → Array Float32 → Float32) :
    Kernel.Bounded (Arity.exactly 2).accepts (paired name f) (pairedShape name) where
  value {vs v} hn hvs h := by
    obtain ⟨a, b, rfl⟩ := List.length_eq_two.mp (by simpa [Arity.accepts] using hn)
    obtain ⟨s, hs, h⟩ := bind_eq_ok.mp h
    obtain rfl := pure_eq_ok.mp h
    refine ⟨Series.regular_vector _, ?_⟩
    rw [pairedShape, List.map_cons, List.map_cons, List.map_nil, hs]
    simp [pure, Except.pure]
  sized {hollow ts s} _ hts h := by
    obtain ⟨t, ht, h⟩ := bind_eq_ok.mp h
    obtain rfl := pure_eq_ok.mp h
    exact .single (Shape.sized_of_broadcast hts (mapError_eq_ok.mp ht)).dimension_pos
  formed {ts s} _ hts h := by
    obtain ⟨t, ht, h⟩ := bind_eq_ok.mp h
    obtain rfl := pure_eq_ok.mp h
    have hformed := Shape.formed_of_broadcast hts (mapError_eq_ok.mp ht)
    exact ⟨hformed.dimension_pos, hformed.dimension_le⟩

end Statistics

/-! ### Arrangement -/

namespace Arrangement

theorem uniformDimension_eq_ok {name : String} {t : Shape} {ts : List Shape} {d : Nat} :
    uniformDimension name (t :: ts) = .ok d ↔ t.dimension = d ∧ ∀ u ∈ ts, u.dimension = d := by
  simp only [uniformDimension]
  split_ifs with h
  · simp only [List.all_eq_true, decide_eq_true_eq] at h
    constructor
    · rintro ⟨⟩
      exact ⟨rfl, h⟩
    · rintro ⟨rfl, -⟩
      rfl
  · constructor
    · rintro ⟨⟩
    · rintro ⟨rfl, hall⟩
      exact absurd (by simpa using hall) h

/-- The common dimension is that of an argument. -/
theorem exists_dimension_of_uniformDimension {name : String} {ts : List Shape} {d : Nat}
    (hn : (Arity.atLeast 1).accepts ts.length) (h : uniformDimension name ts = .ok d) :
    ∃ t ∈ ts, t.dimension = d := by
  obtain ⟨t, ts, rfl⟩ := List.exists_cons_of_length_pos
    (Nat.lt_of_lt_of_le Nat.one_pos (by simpa [Arity.accepts] using hn))
  exact ⟨t, List.mem_cons_self, (uniformDimension_eq_ok.mp h).1⟩

theorem length_of_join {vs : List Series} {v : Series} (h : join vs = .ok v) :
    v.length ≤ maxLength := by
  obtain ⟨b, -, h⟩ := bind_eq_ok.mp h
  exact Builder.length_of_build h

theorem fits_join : Kernel.Fits (Arity.atLeast 1).accepts join joinShape where
  counted _ _ h := length_of_join h
  value {vs v} hn hvs h := by
    obtain ⟨u, vs, rfl⟩ := List.exists_cons_of_length_pos
      (Nat.lt_of_lt_of_le Nat.one_pos (by simpa [Arity.accepts] using hn))
    obtain ⟨b, hb, h⟩ := bind_eq_ok.mp h
    obtain ⟨-, rfl⟩ := Builder.build_eq_ok.mp h
    have hpos : ∀ w ∈ u :: vs, 0 < w.dimension := fun w hw => (hvs w hw).2
    have hpush := mapError_eq_ok.mp hb
    obtain ⟨d, hd, hdim⟩ := Builder.uniform_of_foldlM_push_empty (by simp) hpush hpos
    obtain ⟨b', hb', hholds, hbdim⟩ := (Builder.holds_empty d).foldlM_push hdim
    obtain rfl : b' = b := by simpa [hb'] using hpush
    have huniform : Series.Uniform d (u :: vs) := fun w hw => ⟨(hvs w hw).1, fun _ => hdim w hw⟩
    have hfinish := hholds.finish hd fun hzero => by
      have := hbdim (by simp)
      omega
    rw [hfinish]
    refine ⟨Series.regular_concat (by simpa using huniform), bind_eq_ok.mpr ⟨d, ?_, ?_⟩⟩
    · refine uniformDimension_eq_ok.mpr ⟨hdim u List.mem_cons_self, fun t ht => ?_⟩
      obtain ⟨w, hw, rfl⟩ := List.mem_map.mp ht
      exact hdim w (List.mem_cons_of_mem _ hw)
    · have htotal : (((u :: vs).map Series.shape).map Shape.length).foldl (· + ·) 0 =
          Routing.total ((u :: vs).map Series.length) := by
        rw [List.map_map]
        rfl
      rw [htotal]
      simp [Series.shape, pure, Except.pure]
  sized {hollow ts s} hn hts h hlength := by
    obtain ⟨d, hd, h⟩ := bind_eq_ok.mp h
    obtain rfl := pure_eq_ok.mp h
    obtain ⟨t, ht, rfl⟩ := exists_dimension_of_uniformDimension hn hd
    refine ⟨(hts t ht).nonempty.imp_left fun hpos => ?_, hlength, (hts t ht).dimension_pos⟩
    exact Nat.lt_of_lt_of_le hpos (Routing.le_total_of_mem (List.mem_map_of_mem ht))
  formed {ts s} hn hts h := by
    obtain ⟨d, hd, h⟩ := bind_eq_ok.mp h
    obtain rfl := pure_eq_ok.mp h
    obtain ⟨t, ht, rfl⟩ := exists_dimension_of_uniformDimension hn hd
    exact ⟨(hts t ht).dimension_pos, (hts t ht).dimension_le⟩

theorem size_foldl_push {α : Type} (f : α → Float32) : ∀ (xs : List α) (values : Array Float32),
    (xs.foldl (fun values x => values.push (f x)) values).size = values.size + xs.length
  | [], values => rfl
  | x :: xs, values => by
    rw [List.foldl_cons, size_foldl_push f xs, Array.size_push, List.length_cons]
    omega

theorem size_foldl_rows {α β : Type} (f : β → α → Float32) (xs : List α) :
    ∀ (rows : List β) (values : Array Float32),
      (rows.foldl (fun values i => xs.foldl (fun values x => values.push (f i x)) values)
        values).size = values.size + rows.length * xs.length
  | [], values => by simp
  | i :: rows, values => by
    rw [List.foldl_cons, size_foldl_rows f xs rows, size_foldl_push, List.length_cons,
      Nat.succ_mul]
    omega

theorem rows_pos {lengths : List Nat} (hne : lengths ≠ []) (hpos : ∀ n ∈ lengths, 0 < n) :
    0 < rows lengths := by
  unfold rows
  cases hmin : lengths.min? with
  | none => exact absurd (List.min?_eq_none_iff.mp hmin) hne
  | some n => exact hpos n (List.min?_eq_some_iff.mp hmin).1

theorem mul_length_le_total {k : Nat} : ∀ {lengths : List Nat}, (∀ n ∈ lengths, k ≤ n) →
    k * lengths.length ≤ Routing.total lengths
  | [], _ => Nat.le_refl 0
  | n :: rest, h => by
    obtain ⟨hn, hrest⟩ := List.forall_mem_cons.mp h
    have := mul_length_le_total hrest
    rw [Routing.total_cons, List.length_cons, Nat.mul_succ]
    omega

/-- Interleaved rows are part of all elements together. -/
theorem rows_mul_length_le (lengths : List Nat) :
    rows lengths * lengths.length ≤ Routing.total lengths := by
  refine mul_length_le_total fun n hn => ?_
  unfold rows
  cases hmin : lengths.min? with
  | none => exact Nat.zero_le _
  | some k => exact (List.min?_eq_some_iff.mp hmin).2 n hn

theorem length_of_interleave {vs : List Series} {v : Series} (h : interleave vs = .ok v) :
    v.length ≤ maxLength := by
  obtain ⟨d, -, h⟩ := bind_eq_ok.mp h
  obtain ⟨_, hlength, h⟩ := bind_eq_ok.mp h
  obtain rfl := pure_eq_ok.mp h
  exact Builder.reserve_eq_ok.mp hlength

theorem fits_interleave : Kernel.Fits (Arity.atLeast 1).accepts interleave interleaveShape where
  counted _ _ h := length_of_interleave h
  value {vs v} _ _ h := by
    obtain ⟨d, hd, h⟩ := bind_eq_ok.mp h
    obtain ⟨_, -, h⟩ := bind_eq_ok.mp h
    obtain rfl := pure_eq_ok.mp h
    constructor
    · intro c hc
      obtain ⟨k, -, rfl⟩ := List.mem_map.mp hc
      rw [size_foldl_rows]
      simp
    · have hlengths : (vs.map Series.shape).map Shape.length = vs.map Series.length := by
        rw [List.map_map]
        rfl
      refine bind_eq_ok.mpr ⟨d, hd, ?_⟩
      simp [hlengths, Series.shape, Series.dimension, pure, Except.pure]
  sized {hollow ts s} hn hts h hlength := by
    obtain ⟨d, hd, h⟩ := bind_eq_ok.mp h
    obtain rfl := pure_eq_ok.mp h
    obtain ⟨t, ht, rfl⟩ := exists_dimension_of_uniformDimension hn hd
    have hne : ts ≠ [] := List.ne_nil_of_mem ht
    refine ⟨?_, hlength, (hts t ht).dimension_pos⟩
    by_cases hhollow : hollow
    · exact .inr hhollow
    · have hrows : 0 < rows (ts.map Shape.length) := rows_pos (by simpa using hne) fun n hmem => by
        obtain ⟨u, hu, rfl⟩ := List.mem_map.mp hmem
        exact (hts u hu).nonempty.resolve_right hhollow
      exact .inl (Nat.mul_pos hrows (List.length_pos_iff.mpr hne))
  formed {ts s} hn hts h := by
    obtain ⟨d, hd, h⟩ := bind_eq_ok.mp h
    obtain rfl := pure_eq_ok.mp h
    obtain ⟨t, ht, rfl⟩ := exists_dimension_of_uniformDimension hn hd
    exact ⟨(hts t ht).dimension_pos, (hts t ht).dimension_le⟩

theorem bounded_combineArgs (accepts : Nat → Bool) (name : String)
    (f : Float32 → Float32 → Float32) :
    Kernel.Bounded accepts (combineArgs name f) (broadcastArgs name) where
  value {vs v} _ hvs h := by
    have hpointwise := pointwise_zipMap vs.length
      (fun _ => .invalidArgument name "arguments differ in dimension") (Statistics.combine f)
    obtain ⟨hcheck, hv⟩ := hpointwise.check_of_combine rfl (fun u hu => (hvs u hu).1) h
    refine ⟨?_, hcheck⟩
    rw [hv]
    exact Series.regular_ofFn _ _
  sized _ hts h := Shape.sized_of_broadcast hts (mapError_eq_ok.mp h)
  formed _ hts h := Shape.formed_of_broadcast hts (mapError_eq_ok.mp h)

theorem length_orderBy {κ : Type} (le : κ → κ → Bool) (key : Nat → κ) (n : Nat) :
    (orderBy le key n).length = n := by
  simp [orderBy]

theorem regular_sortBy {κ : Type} (le : κ → κ → Bool) (values : Series) (keys : Nat)
    (key : Nat → κ) : (sortBy le values keys key).Regular :=
  Series.regular_gather _ _

theorem shape_sortBy {κ : Type} (le : κ → κ → Bool) (values : Series) (keys : Nat)
    (key : Nat → κ) :
    (sortBy le values keys key).shape = ⟨min values.length keys, values.dimension⟩ := by
  simp [sortBy, length_orderBy]

theorem bounded_sort : Kernel.Bounded (Arity.between 1 2).accepts sort sortShape where
  value {vs v} _ hvs h := by
    -- one argument is sorted by its own values, of two the second is the key
    rcases vs with _ | ⟨u, _ | ⟨key, _ | ⟨w, rest⟩⟩⟩
    · cases h
    · have hu := hvs u List.mem_cons_self
      simp only [sort] at h
      split at h
      · rename_i w hw
        obtain rfl := Except.ok.inj h
        have hsize : ∀ c ∈ u.channels.map Statistics.sorted, c.size = u.length := by
          intro c hc
          obtain ⟨values, hvalues, rfl⟩ := List.mem_map.mp hc
          rw [Statistics.size_sorted, hu.1 values hvalues]
        obtain ⟨hregular, hshape⟩ := Series.shape_of_ofChannels? hsize hw
        refine ⟨hregular, ?_⟩
        rw [hshape, List.length_map]
        rfl
      · cases h
    · simp only [sort] at h
      split_ifs at h with hdim
      obtain rfl := Except.ok.inj h
      refine ⟨regular_sortBy _ _ _ _, ?_⟩
      have hkey : key.shape.dimension = 1 := not_not.mp hdim
      simp only [List.map_cons, List.map_nil, sortShape, hkey, shape_sortBy]
      rfl
    · cases h
  sized {hollow ts s} _ hts h := by
    rcases ts with _ | ⟨t, _ | ⟨key, _ | ⟨u, rest⟩⟩⟩
    · cases h
    · obtain rfl := Except.ok.inj h
      exact hts t List.mem_cons_self
    · have ht := hts t (by simp)
      have hkey := hts key (by simp)
      simp only [sortShape] at h
      split_ifs at h
      obtain rfl := Except.ok.inj h
      refine ⟨?_, Nat.le_trans (Nat.min_le_left _ _) ht.length_le, ht.dimension_pos⟩
      rcases ht.nonempty with hpos | hhollow
      · exact hkey.nonempty.imp_left fun hpos' => Nat.lt_min.mpr ⟨hpos, hpos'⟩
      · exact .inr hhollow
    · cases h
  formed {ts s} _ hts h := by
    rcases ts with _ | ⟨t, _ | ⟨key, _ | ⟨u, rest⟩⟩⟩
    · cases h
    · obtain rfl := Except.ok.inj h
      exact hts t List.mem_cons_self
    · have ht := hts t (by simp)
      simp only [sortShape] at h
      split_ifs at h
      obtain rfl := Except.ok.inj h
      exact ⟨ht.dimension_pos, ht.dimension_le⟩
    · cases h

end Arrangement

/-! ### Geometry -/

namespace Geometry

theorem broadcast_of_pairShape {name : String} {a b s : Shape}
    (h : pairShape name [a, b] = .ok s) : Shape.broadcast [a, b] = .ok s := by
  simp only [pairShape] at h
  split_ifs at h
  exact mapError_eq_ok.mp h

theorem bounded_pairwise (name : String) (f : List Float32 → List Float32 → Float32) :
    Kernel.Bounded (Arity.exactly 2).accepts (pairwise name f) (pairwiseShape name) where
  value {vs v} hn _ h := by
    obtain ⟨a, b, rfl⟩ := List.length_eq_two.mp (by simpa [Arity.accepts] using hn)
    obtain ⟨s, hs, h⟩ := bind_eq_ok.mp h
    obtain rfl := pure_eq_ok.mp h
    refine ⟨Series.regular_ofValues _, bind_eq_ok.mpr ⟨s, hs, ?_⟩⟩
    simp [pure, Except.pure]
  sized {hollow ts s} hn hts h := by
    obtain ⟨a, b, rfl⟩ := List.length_eq_two.mp (by simpa [Arity.accepts] using hn)
    obtain ⟨t, ht, h⟩ := bind_eq_ok.mp h
    obtain rfl := pure_eq_ok.mp h
    have hsized := Shape.sized_of_broadcast hts (broadcast_of_pairShape ht)
    exact ⟨hsized.nonempty, hsized.length_le, Nat.one_pos⟩
  formed {ts s} _ _ h := by
    obtain ⟨t, -, h⟩ := bind_eq_ok.mp h
    obtain rfl := pure_eq_ok.mp h
    exact Shape.formed_numbers _

theorem bounded_cross : Kernel.Bounded (Arity.exactly 2).accepts cross crossShape where
  value {vs v} hn _ h := by
    obtain ⟨a, b, rfl⟩ := List.length_eq_two.mp (by simpa [Arity.accepts] using hn)
    simp only [cross] at h
    split_ifs at h with hdim
    · cases h
    obtain ⟨s, hs, h⟩ := bind_eq_ok.mp h
    obtain rfl := pure_eq_ok.mp h
    obtain ⟨ha, hb⟩ : a.shape.dimension = 3 ∧ b.shape.dimension = 3 := by
      simpa [Series.shape] using hdim
    constructor
    · intro c hc
      obtain ⟨k, -, rfl⟩ := List.mem_map.mp hc
      simp
    · simp only [crossShape, List.map_cons, List.map_nil, List.any_cons, List.any_nil, ha, hb, hs]
      simp [Series.shape, Series.dimension, pure, Except.pure]
  sized {hollow ts s} _ hts h := by
    simp only [crossShape] at h
    split_ifs at h
    · cases h
    obtain ⟨t, ht, h⟩ := bind_eq_ok.mp h
    obtain rfl := pure_eq_ok.mp h
    have hsized := Shape.sized_of_broadcast hts (mapError_eq_ok.mp ht)
    exact ⟨hsized.nonempty, hsized.length_le, Nat.zero_lt_succ 2⟩
  formed {ts s} _ _ h := by
    simp only [crossShape] at h
    split_ifs at h
    · cases h
    obtain ⟨t, -, h⟩ := bind_eq_ok.mp h
    obtain rfl := pure_eq_ok.mp h
    exact ⟨Nat.zero_lt_succ 2, by simp⟩

/-- A function of one series that keeps its elements apart. -/
theorem bounded_single (name : String) {f : Series → Series} {g : Shape → Shape}
    (hf : ∀ v, v.Regular → (f v).Regular ∧ (f v).shape = g v.shape)
    (hg : ∀ (hollow : Prop) (s : Shape), s.Sized hollow → (g s).Sized hollow)
    (hg' : ∀ s, s.Formed → (g s).Formed) :
    Kernel.Bounded (Arity.exactly 1).accepts (single name f) (singleShape name g) where
  value {vs v} hn hvs h := by
    obtain ⟨u, rfl⟩ := List.length_eq_one_iff.mp (by simpa [Arity.accepts] using hn)
    obtain rfl := Except.ok.inj h
    obtain ⟨hregular, hshape⟩ := hf u (hvs u List.mem_cons_self).1
    exact ⟨hregular, by rw [hshape]; rfl⟩
  sized {hollow ts s} hn hts h := by
    obtain ⟨t, rfl⟩ := List.length_eq_one_iff.mp (by simpa [Arity.accepts] using hn)
    obtain rfl := Except.ok.inj h
    exact hg hollow t (hts t List.mem_cons_self)
  formed {ts s} hn hts h := by
    obtain ⟨t, rfl⟩ := List.length_eq_one_iff.mp (by simpa [Arity.accepts] using hn)
    obtain rfl := Except.ok.inj h
    exact hg' t (hts t List.mem_cons_self)

theorem size_squaredLengths (v : Series) : (squaredLengths v).size = v.length := by
  simp [squaredLengths]

theorem size_lengths (v : Series) : (lengths v).size = v.length := by
  simp [lengths, size_squaredLengths]

theorem bounded_lengths (name : String) {f : Series → Array Float32}
    (hf : ∀ v, (f v).size = v.length) :
    Kernel.Bounded (Arity.exactly 1).accepts (single name fun v => .ofValues (f v))
      (singleShape name fun s => ⟨s.length, 1⟩) :=
  bounded_single name (fun v _ => ⟨Series.regular_ofValues _, by simp [hf]; rfl⟩)
    (fun _ _ hs => ⟨hs.nonempty, hs.length_le, Nat.one_pos⟩) fun _ _ => Shape.formed_numbers _

theorem bounded_normalize : Kernel.Bounded (Arity.exactly 1).accepts (single "normalize" normalize)
    (singleShape "normalize" fun s => s) := by
  refine bounded_single "normalize" (fun v hv => ⟨fun c hc => ?_, ?_⟩) (fun _ _ hs => hs)
    fun _ hs => hs
  · obtain ⟨values, hvalues, rfl⟩ := List.mem_map.mp hc
    simp [hv values hvalues, size_lengths]
    rfl
  · simp [normalize, Series.shape, Series.dimension]

end Geometry

/-! ### The catalog -/

theorem fits_map (name : String) (f : Float32 → Float32) : (map name f).Fits := rfl

theorem fits_zip (name : String) (f : Float32 → Float32 → Float32) : (zip name f).Fits := trivial

theorem fits_reduce (name : String) (f : Array Float32 → Float32) : (reduce name f).Fits := rfl

theorem fits_elementwise : ∀ b ∈ elementwise, b.Fits := by
  simp only [elementwise, List.forall_mem_cons, fits_map, fits_zip, true_and]
  exact ⟨trivial, by simp⟩

theorem fits_statistics : ∀ b ∈ statistics, b.Fits := by
  simp only [statistics, List.forall_mem_cons, fits_reduce, true_and]
  exact ⟨Statistics.bounded_count.fits, Statistics.bounded_quantile.fits,
    (Statistics.bounded_paired _ _).fits, (Statistics.bounded_paired _ _).fits, by simp⟩

theorem fits_arrangement : ∀ b ∈ arrangement, b.Fits := by
  simp only [arrangement, List.forall_mem_cons]
  exact ⟨Arrangement.fits_join, Arrangement.fits_interleave,
    (Arrangement.bounded_combineArgs _ _ _).fits, (Arrangement.bounded_combineArgs _ _ _).fits,
    Arrangement.bounded_sort.fits, by simp⟩

theorem fits_geometry : ∀ b ∈ geometry, b.Fits := by
  simp only [geometry, List.forall_mem_cons]
  exact ⟨Geometry.bounded_cross.fits, (Geometry.bounded_pairwise _ _).fits,
    (Geometry.bounded_pairwise _ _).fits, (Geometry.bounded_pairwise _ _).fits,
    (Geometry.bounded_lengths _ Geometry.size_lengths).fits,
    (Geometry.bounded_lengths _ Geometry.size_squaredLengths).fits,
    Geometry.bounded_normalize.fits, by simp⟩

end Builtin

/-- What holds of the builtins of each family holds of all builtins of the catalog. -/
theorem Catalog.forall_members {p : Builtin → Prop}
    (helementwise : ∀ b ∈ Builtin.elementwise, p b) (hstatistics : ∀ b ∈ Builtin.statistics, p b)
    (harrangement : ∀ b ∈ Builtin.arrangement, p b) (hgeometry : ∀ b ∈ Builtin.geometry, p b)
    {family : Builtin.Family} (hfamily : family ∈ families) : ∀ b ∈ family.members, p b := by
  simp only [families, List.mem_cons, List.not_mem_nil, or_false] at hfamily
  rcases hfamily with rfl | rfl | rfl | rfl
  · exact helementwise
  · exact hstatistics
  · exact harrangement
  · exact hgeometry

/-- What is looked up is one of the builtins of the catalog, and takes the number of arguments. -/
theorem Catalog.mem_of_lookup {name : String} {count : Nat} {b : Builtin}
    (h : lookup name count = .ok (some b)) :
    (∃ family ∈ families, b ∈ family.members) ∧ b.arity.accepts count := by
  simp only [lookup] at h
  split at h
  · rename_i found hfound
    obtain rfl : found = b := by simpa using h
    refine ⟨?_, by simpa using List.find?_some hfound⟩
    exact List.mem_flatMap.mp (List.mem_filter.mp (List.mem_of_find?_eq_some hfound)).1
  · split_ifs at h
    cases h

theorem Catalog.fits_of_lookup {name : String} {count : Nat} {b : Builtin}
    (h : lookup name count = .ok (some b)) : b.Fits ∧ b.arity.accepts count := by
  obtain ⟨⟨family, hfamily, hmem⟩, hcount⟩ := mem_of_lookup h
  exact ⟨forall_members Builtin.fits_elementwise Builtin.fits_statistics Builtin.fits_arrangement
    Builtin.fits_geometry hfamily b hmem, hcount⟩

end VectorScript
