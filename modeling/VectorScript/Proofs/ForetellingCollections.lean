import VectorScript.Evaluation
import VectorScript.Proofs.Foretelling
import VectorScript.Proofs.SegmentLaws

/-!
# Foretelling of collections

Array literals and comprehensions put elements together.  All of their values come from a builder,
some of them from a routing to the parts that hold them.  Parts that are never asked may fail, so
the series that some elements were taken from is made up where it was not looked at.

Items without elements have no say in the dimension of a literal.  But the only item of a literal
answers for single elements itself, with its own dimension, so it must not be empty unless it has
one component.
-/

namespace VectorScript

/-! ### Standing alone -/

/-- A shape that the only item of a literal may have without changing that of the literal: if it is
empty, it has one component. -/
def Shape.StandsAlone (s : Shape) : Prop := s.length = 0 → s.dimension = 1

instance Shape.decidableStandsAlone (s : Shape) : Decidable s.StandsAlone :=
  inferInstanceAs (Decidable (_ → _))

theorem Shape.Sized.standsAlone {hollow : Prop} {s : Shape} (h : s.Sized hollow)
    (hhollow : ¬ hollow) : s.StandsAlone :=
  fun hzero => absurd hzero (Nat.pos_iff_ne_zero.mp (h.nonempty.resolve_right hhollow))

theorem Shape.StandsAlone.dimension_eq {s : Shape} {d : Nat} (h : s.StandsAlone)
    (hdim : 0 < s.length → s.dimension = d) (hempty : s.length = 0 → d = 1) : s.dimension = d := by
  by_cases hzero : s.length = 0
  · rw [h hzero, hempty hzero]
  · exact hdim (Nat.pos_of_ne_zero hzero)

/-- All answers stand alone. -/
structure Meaning.StandsAlone (m : Meaning Plain) : Prop where
  shape : ∀ {s}, m.shape = .ok s → s.StandsAlone
  all : ∀ {v}, m.values .all = .ok v → v.shape.StandsAlone

namespace Meaning.Foretells

open Filter

/-! ### Segments -/

section Segments

variable {hollow : Prop} {site : Site} {n d : Nat} {v : Nat → Series}

/-- The lengths of `n` segments. -/
def lengthsOf (n : Nat) (v : Nat → Series) : List Nat :=
  ((List.range n).map v).map Series.length

theorem length_lengthsOf : (lengthsOf n v).length = n := by simp [lengthsOf]

theorem uniform_map_range (hsized : ∀ k < n, (v k).Sized hollow)
    (hdim : ∀ k < n, 0 < (v k).length → (v k).dimension = d) :
    Series.Uniform d ((List.range n).map v) := by
  intro w hw
  obtain ⟨k, hk, rfl⟩ := List.mem_map.mp hw
  have hk := List.mem_range.mp hk
  exact ⟨(hsized k hk).regular, hdim k hk⟩

/-- Segments have elements, unless they need not have any. -/
theorem total_pos_or_hollow {t : Nat → Shape} (hn : 0 < n ∨ hollow)
    (hsized : ∀ k < n, (t k).Sized hollow) :
    0 < Routing.total ((List.range n).map fun k => (t k).length) ∨ hollow := by
  rcases hn with hn | hhollow
  · refine (hsized 0 hn).nonempty.imp_left fun hpos => ?_
    have hmem : (t 0).length ∈ (List.range n).map fun k => (t k).length :=
      List.mem_map_of_mem (List.mem_range.mpr hn)
    exact Nat.lt_of_lt_of_le hpos (Routing.le_total_of_mem hmem)
  · exact .inr hhollow

theorem sized_concat (hd : 0 < d) (hn : 0 < n ∨ hollow) (hsized : ∀ k < n, (v k).Sized hollow)
    (hdim : ∀ k < n, 0 < (v k).length → (v k).dimension = d)
    (htotal : Routing.total (lengthsOf n v) ≤ maxLength) :
    (Series.concat d ((List.range n).map v)).Sized hollow := by
  refine ⟨Series.regular_concat (uniform_map_range hsized hdim), ?_, htotal, ?_⟩
  · have hpos := total_pos_or_hollow hn fun k hk => (hsized k hk).sized
    rw [Series.shape, Series.length_concat, List.map_map]
    exact hpos
  · rw [Series.shape, Series.dimension_concat]
    exact hd

/-- Only segments are asked. -/
theorem lt_of_requestsOf {lengths : List Nat} {S : List Int} {k : Nat}
    (h : Routing.requestsOf lengths S k ≠ []) : k < lengths.length := by
  obtain ⟨x, hx⟩ := List.exists_mem_of_ne_nil _ h
  obtain ⟨i, -, hrange, rfl, -⟩ := Routing.mem_requestsOf.mp hx
  obtain ⟨p, j, -, -, hlocates⟩ := Routing.locates_ownerOf hrange
  exact hlocates.segment

/-- Segments that answer truly where they are asked are enough. -/
theorem gatherSegments_eq {S : List Int} {segment : Nat → List Int → Plain Series}
    (huniform : Series.Uniform d ((List.range n).map v))
    (htotal : Routing.total (lengthsOf n v) ≤ maxLength)
    (hsegment : ∀ k < n, Routing.requestsOf (lengthsOf n v) S k ≠ [] →
      segment k (Routing.requestsOf (lengthsOf n v) S k) =
        .ok ((v k).gather (Routing.requestsOf (lengthsOf n v) S k))) :
    gatherSegments site (lengthsOf n v) d S segment =
      .ok ((Series.concat d ((List.range n).map v)).gather S) := by
  have hparts : (List.range (Routing.starts 0 (lengthsOf n v)).length).mapM (fun k =>
      let requested := (Routing.ofLengths (lengthsOf n v) S).requests.getD k #[]
      if requested.isEmpty then pure none else some <$> segment k requested.toList) =
        .ok ((List.range n).map fun k =>
          if Routing.requestsOf (lengthsOf n v) S k = [] then none
          else some ((v k).gather (Routing.requestsOf (lengthsOf n v) S k))) := by
    rw [Routing.length_starts, length_lengthsOf]
    refine mapM_eq_ok_map.mpr ⟨_, rfl, fun k hk => ?_⟩
    have hempty : ((Routing.ofLengths (lengthsOf n v) S).requests.getD k #[]).isEmpty ↔
        Routing.requestsOf (lengthsOf n v) S k = [] := by
      rw [Routing.requestsOf, Array.isEmpty_iff, ← Array.toList_eq_nil_iff]
    by_cases hnil : Routing.requestsOf (lengthsOf n v) S k = []
    · rw [if_pos (hempty.mpr hnil), if_pos hnil]
      rfl
    · rw [if_neg (mt hempty.mp hnil), if_neg hnil]
      exact map_eq_ok.mpr ⟨_, hsegment k (List.mem_range.mp hk) hnil, rfl⟩
  rw [gatherSegments_of_le htotal]
  refine bind_eq_ok.mpr ⟨_, hparts, congrArg Except.ok ?_⟩
  refine Routing.assemble_eq_gather huniform fun k hk => ?_
  have hkn : k < n := by simpa using lt_of_requestsOf hk
  have hnil : Routing.requestsOf (lengthsOf n v) S k ≠ [] := hk
  rw [Array.getD_eq_getD_getElem?, List.getD_eq_getElem?_getD]
  simp only [List.getElem?_toArray, List.getElem?_map, List.getElem?_range hkn, Option.map_some,
    Option.getD_some, if_neg hnil]
  rfl

theorem of_gatherSegments {lengths : List Nat} {S : List Int} {w : Series}
    {segment : Nat → List Int → Plain Series}
    (h : gatherSegments site lengths d S segment = .ok w) :
    Routing.total lengths ≤ maxLength ∧ ∀ k < lengths.length, Routing.requestsOf lengths S k ≠ [] →
      ∃ u, segment k (Routing.requestsOf lengths S k) = .ok u := by
  have htotal : Routing.total lengths ≤ maxLength := by
    obtain ⟨starts, -, h⟩ := bind_eq_ok.mp h
    obtain ⟨total, hcount, -⟩ := bind_eq_ok.mp h
    exact (Answering.count_eq_ok.mp hcount).2
  rw [gatherSegments_of_le htotal] at h
  obtain ⟨parts, hparts, -⟩ := bind_eq_ok.mp h
  obtain ⟨_, -, hparts⟩ := mapM_eq_ok_map.mp hparts
  refine ⟨htotal, fun k hk hne => ?_⟩
  have hpart := hparts k (List.mem_range.mpr (by rwa [Routing.length_starts]))
  have hempty : ¬ ((Routing.ofIndices (Routing.starts 0 lengths) (Routing.total lengths)
      S).requests.getD k #[]).isEmpty := by
    rw [Array.isEmpty_iff, ← Array.toList_eq_nil_iff]
    exact hne
  rw [if_neg hempty] at hpart
  obtain ⟨u, hu, -⟩ := map_eq_ok.mp hpart
  exact ⟨u, hu⟩

/-- Families of segments that settle where they are asked. -/
theorem eventually_gatherSegments {D : Int → Prop} {site : Nat → Site}
    {segment : Nat → Nat → List Int → Plain Series}
    (huniform : Series.Uniform d ((List.range n).map v))
    (htotal : Routing.total (lengthsOf n v) ≤ maxLength)
    (hsegment : ∀ k < n, ∀ T : List Int, T ≠ [] →
      (∀ x ∈ T, ∃ i, inRange (Routing.total (lengthsOf n v)) i ∧ D i ∧
        Routing.ownerOf (lengthsOf n v) i = k ∧ Routing.placeOf (lengthsOf n v) i = x) →
      ∀ᶠ N in atTop, segment N k T = .ok ((v k).gather T))
    {S : List Int} (hS : ∀ i ∈ S, inRange (Routing.total (lengthsOf n v)) i → D i) :
    ∀ᶠ N in atTop, gatherSegments (site N) (lengthsOf n v) d S (segment N) =
      .ok ((Series.concat d ((List.range n).map v)).gather S) := by
  have hall : ∀ k < n, ∀ᶠ N in atTop, Routing.requestsOf (lengthsOf n v) S k ≠ [] →
      segment N k (Routing.requestsOf (lengthsOf n v) S k) =
        .ok ((v k).gather (Routing.requestsOf (lengthsOf n v) S k)) := by
    intro k hk
    by_cases hnil : Routing.requestsOf (lengthsOf n v) S k = []
    · exact .of_forall fun N hne => absurd hnil hne
    · refine (hsegment k hk _ hnil fun x hx => ?_).mono fun N hN _ => hN
      obtain ⟨i, hi, hrange, howner, hplace⟩ := Routing.mem_requestsOf.mp hx
      exact ⟨i, hrange, hS i hi hrange, howner, hplace⟩
  filter_upwards [eventually_forall_lt hall] with N hN
  exact gatherSegments_eq huniform htotal hN

/-- Segments that have answered for some elements of a concatenation: those that were asked settle
on series at their places, and the others are made up. -/
theorem of_gatherSegments_foretold {t : Nat → Shape} {f : Nat → Meaning Plain}
    {F : Nat → Nat → Meaning Plain} {S : List Int} {w : Series}
    {segment : Nat → List Int → Plain Series} (h : ∀ k < n, Foretells hollow (f k) fun N => F N k)
    (ht : ∀ k < n, (f k).shape = .ok (t k))
    (hdim : ∀ k < n, 0 < (t k).length → (t k).dimension = d)
    (hsegment : ∀ k < n, ∀ T, segment k T = (f k).values (.at T))
    (hw : gatherSegments site ((List.range n).map fun k => (t k).length) d S segment = .ok w) :
    ∃ v : Nat → Series, (∀ k < n, (v k).Sized hollow ∧ (v k).shape = t k) ∧
      Routing.total (lengthsOf n v) ≤ maxLength ∧
      w = (Series.concat d ((List.range n).map v)).gather S ∧
      ∀ k < n, Routing.requestsOf (lengthsOf n v) S k ≠ [] →
        Settles (fun N => F N k) (v k) (· ∈ Routing.requestsOf (lengthsOf n v) S k) := by
  obtain ⟨htotal, hasked⟩ := of_gatherSegments hw
  rw [List.length_map, List.length_range] at hasked
  generalize hlengths : (List.range n).map (fun k => (t k).length) = lengths at hw htotal hasked
  have hparts : ∀ k, ∃ v : Series, k < n → (v.Sized hollow ∧ v.shape = t k) ∧
      (Routing.requestsOf lengths S k ≠ [] →
        segment k (Routing.requestsOf lengths S k) =
            .ok (v.gather (Routing.requestsOf lengths S k)) ∧
          Settles (fun N => F N k) v (· ∈ Routing.requestsOf lengths S k)) := by
    intro k
    by_cases hk : k < n
    · by_cases hnil : Routing.requestsOf lengths S k = []
      · -- a segment that is not asked may hold anything of its shape
        refine ⟨Series.nan (t k), fun _ => ?_⟩
        rw [Series.nan_eq_ofFn]
        exact ⟨⟨Series.sized_ofFn ((h k hk).shape (ht k hk)).1 _, Series.shape_ofFn _ _⟩,
          fun hne => absurd hnil hne⟩
      · obtain ⟨u, hu⟩ := hasked k hk hnil
        have hu' := hsegment k hk _ ▸ hu
        obtain ⟨v, hvsized, rfl, hsettles⟩ := (h k hk).elements hu'
        exact ⟨v, fun _ => ⟨⟨hvsized, ((h k hk).shape_eq_of_settles (ht k hk) hsettles).symm⟩,
          fun _ => ⟨hu, hsettles⟩⟩⟩
    · exact ⟨default, fun hlt => absurd hlt hk⟩
  choose v hv using hparts
  have hvlengths : lengthsOf n v = lengths := by
    rw [lengthsOf, List.map_map, ← hlengths]
    refine List.map_congr_left fun k hk => ?_
    exact congrArg Shape.length (hv k (List.mem_range.mp hk)).1.2
  have huniform : Series.Uniform d ((List.range n).map v) :=
    uniform_map_range (fun k hk => (hv k hk).1.1) fun k hk hpos =>
      (congrArg Shape.dimension (hv k hk).1.2).trans (hdim k hk ((hv k hk).1.2 ▸ hpos))
  rw [← hvlengths] at hw hv htotal
  refine ⟨v, fun k hk => (hv k hk).1, htotal, ?_, fun k hk hne => ((hv k hk).2 hne).2⟩
  exact Except.ok.inj (hw.symm.trans (gatherSegments_eq huniform htotal
    fun k hk hne => ((hv k hk).2 hne).1))

/-- A segment that settles where it was asked does so wherever wanted elements fall into it. -/
theorem elements_of_asked {M : Nat → Meaning Plain} {lengths : List Nat} {S T : List Int} {k : Nat}
    {u : Series} (h : Routing.requestsOf lengths S k ≠ [] →
      Settles M u (· ∈ Routing.requestsOf lengths S k))
    (hne : T ≠ []) (hT : ∀ x ∈ T, ∃ i, inRange (Routing.total lengths) i ∧ i ∈ S ∧
      Routing.ownerOf lengths i = k ∧ Routing.placeOf lengths i = x) :
    ∀ᶠ N in atTop, (M N).values (.at T) = .ok (u.gather T) := by
  have hasked : ∀ x ∈ T, x ∈ Routing.requestsOf lengths S k := by
    intro x hx
    obtain ⟨i, hrange, hi, howner, hplace⟩ := hT x hx
    exact Routing.mem_requestsOf.mpr ⟨i, hi, hrange, howner, hplace⟩
  obtain ⟨x, hx⟩ := List.exists_mem_of_ne_nil T hne
  exact (h (List.ne_nil_of_mem (hasked x hx))).elements T fun x hx _ => hasked x hx

end Segments

/-! ### Array literals -/

section ArrayLiteral

variable {hollow : Prop} {site : Site} {n : Nat} {rules : Nat → Item.Rules}

theorem addItem_eq_ok {d sum sum' : Nat} {p : Item.Rules × Shape} :
    addItem d sum p = .ok sum' ↔
      ((0 < p.2.length → p.2.dimension = d) ∧ (p.2.length ≤ 1 ∨ p.1.makesRun)) ∧
        sum' = min (sum + p.2.length) maxLength := by
  obtain ⟨r, t⟩ := p
  simp only [addItem]
  split_ifs with hdim hlength
  · obtain ⟨hpos, hne⟩ := hdim
    simp [hpos, hne]
  · obtain ⟨hlong, hrun⟩ := hlength
    have hrun : r.makesRun = false := by simpa using hrun
    simp only [reduceCtorEq, hrun, false_iff]
    rintro ⟨⟨-, h | h⟩, -⟩
    · omega
    · cases h
  · have hdim : 0 < t.length → t.dimension = d := by
      intro hpos
      by_contra hne
      exact hdim ⟨hpos, hne⟩
    have hrun : t.length ≤ 1 ∨ r.makesRun := by
      by_contra hne
      obtain ⟨hone, hrun⟩ := not_or.mp hne
      exact hlength ⟨by omega, by simpa using hrun⟩
    constructor
    · intro h
      exact ⟨⟨hdim, hrun⟩, (Except.ok.inj h).symm⟩
    · rintro ⟨-, rfl⟩
      rfl

/-- The sum of the lengths stops at the greatest length. -/
theorem foldlM_addItem {d : Nat} : ∀ {ps : List (Item.Rules × Shape)} {sum m : Nat},
    sum ≤ maxLength → (ps.foldlM (addItem d) sum = .ok m ↔
      (∀ p ∈ ps, (0 < p.2.length → p.2.dimension = d) ∧ (p.2.length ≤ 1 ∨ p.1.makesRun)) ∧
        m = min (sum + Routing.total (ps.map fun p => p.2.length)) maxLength)
  | [], sum, m, hsum => by
    rw [List.foldlM_nil, pure_eq_ok]
    simp only [List.not_mem_nil, false_imp_iff, implies_true, true_and, List.map_nil,
      Routing.total_nil]
    omega
  | p :: ps, sum, m, hsum => by
    rw [List.foldlM_cons, bind_eq_ok, List.map_cons, Routing.total_cons, List.forall_mem_cons]
    constructor
    · rintro ⟨sum', hsum', h⟩
      obtain ⟨hp, rfl⟩ := addItem_eq_ok.mp hsum'
      obtain ⟨hps, rfl⟩ := (foldlM_addItem (Nat.min_le_right _ _)).mp h
      exact ⟨⟨hp, hps⟩, by omega⟩
    · rintro ⟨⟨hp, hps⟩, rfl⟩
      refine ⟨_, addItem_eq_ok.mpr ⟨hp, rfl⟩, ?_⟩
      exact (foldlM_addItem (Nat.min_le_right _ _)).mpr ⟨hps, by omega⟩

/-- The dimension of some shapes is that of the first one with elements. -/
theorem dimension_of_find? {t : Nat → Shape} {d : Nat}
    (hdim : ∀ k < n, 0 < (t k).length → (t k).dimension = d)
    (hopen : (∀ k < n, (t k).length = 0) → d = 1) :
    ((((List.range n).map t).find? (0 < ·.length)).map Shape.dimension).getD 1 = d := by
  cases hfind : ((List.range n).map t).find? (0 < ·.length) with
  | none =>
    refine (hopen fun k hk => ?_).symm
    have hnone := List.find?_eq_none.mp hfind (t k) (List.mem_map_of_mem (List.mem_range.mpr hk))
    simpa using hnone
  | some u =>
    obtain ⟨k, hk, rfl⟩ := List.mem_map.mp (List.mem_of_find?_eq_some hfind)
    have hpos : 0 < (t k).length := by simpa using List.find?_some hfind
    exact hdim k (List.mem_range.mp hk) hpos

theorem arrayShape_eq_ok {limit : Nat} {t : Nat → Shape} {s : Shape} :
    arrayShape site limit ((List.range n).map rules) ((List.range n).map t) = .ok s ↔
      (∀ k < n, (0 < (t k).length → (t k).dimension = s.dimension) ∧
        ((t k).length ≤ 1 ∨ (rules k).makesRun)) ∧
      ((∀ k < n, (t k).length = 0) → s.dimension = 1) ∧
        s.length = min (Routing.total ((List.range n).map fun k => (t k).length)) maxLength ∧
        s.length ≤ limit := by
  have hfold := fun d m => @foldlM_addItem d ((List.range n).map fun k => (rules k, t k)) 0 m
    (Nat.zero_le _)
  simp only [List.map_map, List.forall_mem_map, List.mem_range, Nat.zero_add] at hfold
  rw [arrayShape]
  simp only [List.zip_map']
  constructor
  · intro h
    obtain ⟨m, hm, h⟩ := bind_eq_ok.mp h
    obtain ⟨hitems, hsum⟩ := (hfold _ _).mp hm
    split_ifs at h with hlimit
    · cases h
    obtain rfl := pure_eq_ok.mp h
    refine ⟨hitems, fun hempty => ?_, hsum, Nat.le_of_not_lt hlimit⟩
    have hnone : ((List.range n).map t).find? (0 < ·.length) = none := by
      refine List.find?_eq_none.mpr fun u hu => ?_
      obtain ⟨k, hk, rfl⟩ := List.mem_map.mp hu
      simp [hempty k (List.mem_range.mp hk)]
    simp only [hnone]
    rfl
  · rintro ⟨hitems, hopen, hsum, hlimit⟩
    rw [dimension_of_find? (fun k hk => (hitems k hk).1) hopen]
    refine bind_eq_ok.mpr ⟨s.length, (hfold _ _).mpr ⟨hitems, hsum⟩, ?_⟩
    rw [if_neg (Nat.not_lt.mpr hlimit)]
    rfl

theorem concatenate_eq_ok {d : Nat} {vs : List Series} {u : Series} (hd : 0 < d)
    (hvs : ∀ w ∈ vs, w.Regular ∧ 0 < w.dimension) : concatenate site d vs = .ok u ↔
      (∀ w ∈ vs, 0 < w.length → w.dimension = d) ∧
        Routing.total (vs.map Series.length) ≤ maxLength ∧ u = Series.concat d vs := by
  rw [concatenate]
  by_cases hdim : ∀ w ∈ vs, 0 < w.length → w.dimension = d
  · have huniform : Series.Uniform d vs := fun w hw => ⟨(hvs w hw).1, hdim w hw⟩
    have hfilter : ∀ w ∈ vs.filter (0 < ·.length), w.dimension = d := by
      intro w hw
      obtain ⟨hmem, hpos⟩ := List.mem_filter.mp hw
      exact hdim w hmem (by simpa using hpos)
    obtain ⟨b, hb, hholds, hbdim⟩ := (Builder.holds_ofDimension d).foldlM_push hfilter
    rw [List.nil_append] at hholds
    have hopen : b.dimension = 0 → d = 1 := by
      intro hzero
      cases hnil : vs.filter (0 < ·.length) with
      | nil =>
        rw [hnil] at hb
        obtain rfl := pure_eq_ok.mp hb
        exact absurd hzero (by simp [Builder.ofDimension]; omega)
      | cons w ws => exact absurd ((hbdim (by simp [hnil])).symm.trans hzero) (by omega)
    have hfinish : b.finish = Series.concat d vs := by
      rw [hholds.finish hd hopen, Series.concat_filter huniform]
    have hlength : b.length = Routing.total (vs.map Series.length) := by
      rw [hholds.length, ← Series.length_concat (d := d), Series.concat_filter huniform,
        Series.length_concat]
    simp only [hb, mapError_eq_ok, Builder.build_eq_ok, hlength, hfinish]
    exact ⟨fun h => ⟨hdim, h.1, h.2.symm⟩, fun h => ⟨h.2.1, h.2.2.symm⟩⟩
  · cases hb : (vs.filter (0 < ·.length)).foldlM Builder.push (.ofDimension d) with
    | error e => simp [hdim]
    | ok b =>
      refine absurd (fun w hw hpos => ?_) hdim
      exact Builder.dimension_of_foldlM_push hb
        (fun w hw => (hvs w (List.mem_filter.mp hw).1).2) hd w
        (List.mem_filter.mpr ⟨hw, by simpa using hpos⟩)

/-- Items by their positions. -/
def itemsOf (n : Nat) (rules : Nat → Item.Rules) (f : Nat → Meaning Plain) : List (Item Plain) :=
  (List.range n).map fun k => { rules k with meaning := f k }

theorem toRules_itemsOf (f : Nat → Meaning Plain) :
    (itemsOf n rules f).map Item.toRules = (List.range n).map rules := by
  rw [itemsOf, List.map_map]
  rfl

theorem getD_itemsOf {f : Nat → Meaning Plain} {k : Nat} (hk : k < n) :
    ((itemsOf n rules f).getD k default).meaning = f k := by
  simp [itemsOf, hk]

theorem arrayLiteral_values_at (limit : Nat) (f : Nat → Meaning Plain) (S : List Int) :
    (Meaning.arrayLiteral site limit (itemsOf n rules f)).values (.at S) = (do
      let shapes ← (itemsOf n rules f).mapM (·.meaning.shape)
      let s ← arrayShape site limit ((List.range n).map rules) shapes
      if n = 1 then (f 0).values (.at S)
      else gatherSegments site (shapes.map Shape.length) s.dimension S fun k wanted =>
        ((itemsOf n rules f).getD k default).meaning.values (.at wanted)) := by
  rw [← toRules_itemsOf f]
  simp only [Meaning.arrayLiteral, Answering.ofExcept_plain]
  match n with
  | 0 => rfl
  | 1 => rfl
  | n + 2 =>
    have hmany : n + 2 ≠ 1 := by omega
    simp only [hmany, if_false, itemsOf, List.range_succ_eq_map, List.map_cons]

section

variable {f : Nat → Meaning Plain} {t : Nat → Shape} {s : Shape} {limit : Nat}

theorem mapM_shape_itemsOf (hshape : ∀ k < n, (f k).shape = .ok (t k)) :
    (itemsOf n rules f).mapM (·.meaning.shape) = .ok ((List.range n).map t) :=
  mapM_map_eq_ok.mpr ⟨t, rfl, fun k hk => hshape k (List.mem_range.mp hk)⟩

theorem arrayLiteral_shape (hshape : ∀ k < n, (f k).shape = .ok (t k))
    (hs : arrayShape site limit ((List.range n).map rules) ((List.range n).map t) = .ok s) :
    (Meaning.arrayLiteral site limit (itemsOf n rules f)).shape = .ok s := by
  refine bind_eq_ok.mpr ⟨_, mapM_shape_itemsOf hshape, ?_⟩
  rw [Answering.ofExcept_plain, toRules_itemsOf]
  exact hs

theorem arrayLiteral_elements {S : List Int} (hshape : ∀ k < n, (f k).shape = .ok (t k))
    (hs : arrayShape site limit ((List.range n).map rules) ((List.range n).map t) = .ok s) :
    (Meaning.arrayLiteral site limit (itemsOf n rules f)).values (.at S) =
      if n = 1 then (f 0).values (.at S)
      else gatherSegments site ((List.range n).map fun k => (t k).length) s.dimension S
        fun k wanted => ((itemsOf n rules f).getD k default).meaning.values (.at wanted) := by
  rw [arrayLiteral_values_at, mapM_shape_itemsOf hshape, ok_bind, hs, ok_bind, List.map_map]
  rfl

/-- What an array literal has asked for when it has answered for some elements. -/
theorem of_arrayLiteral_elements {S : List Int} {w : Series}
    (h : (Meaning.arrayLiteral site limit (itemsOf n rules f)).values (.at S) = .ok w) :
    ∃ t s, (∀ k < n, (f k).shape = .ok (t k)) ∧
      arrayShape site limit ((List.range n).map rules) ((List.range n).map t) = .ok s := by
  rw [arrayLiteral_values_at] at h
  obtain ⟨shapes, hshapes, h⟩ := bind_eq_ok.mp h
  obtain ⟨t, rfl, ht⟩ := mapM_map_eq_ok.mp hshapes
  obtain ⟨s, hs, -⟩ := bind_eq_ok.mp h
  exact ⟨t, s, fun k hk => ht k (List.mem_range.mpr hk), hs⟩

end

theorem concat_one {d : Nat} {v : Nat → Series} (hregular : (v 0).Regular)
    (hdim : (v 0).dimension = d) : Series.concat d ((List.range 1).map v) = v 0 := by
  have huniform : Series.Uniform d [v 0] := fun w hw => by
    obtain rfl : w = v 0 := by simpa using hw
    exact ⟨hregular, fun _ => hdim⟩
  refine Series.ext_read (Series.regular_concat huniform) hregular ?_ fun i hi c hc => ?_
  · simp [Series.shape, hdim]
  · refine Series.read_concat_left huniform ?_ ?_
    · simpa using hc
    · simpa using hi

/-- Items that may stand together. -/
structure Compatible (hollow : Prop) (n : Nat) (rules : Nat → Item.Rules) (v : Nat → Series)
    (d : Nat) : Prop where
  sized : ∀ k < n, (v k).Sized hollow
  fits : ∀ k < n, (0 < (v k).length → (v k).dimension = d) ∧
    ((v k).length ≤ 1 ∨ (rules k).makesRun)
  empty : (∀ k < n, (v k).length = 0) → d = 1
  /-- The only item has the dimension even if it is empty. -/
  lone : n = 1 → (v 0).dimension = d
  total : Routing.total (lengthsOf n v) ≤ maxLength

variable {v : Nat → Series} {d : Nat}

theorem Compatible.uniform (h : Compatible hollow n rules v d) :
    Series.Uniform d ((List.range n).map v) :=
  uniform_map_range h.sized fun k hk => (h.fits k hk).1

/-- The dimension of items that have components. -/
theorem dimension_pos_of_fits {t : Nat → Shape} (hsized : ∀ k < n, (t k).Sized hollow)
    (hdim : ∀ k < n, 0 < (t k).length → (t k).dimension = d)
    (hempty : (∀ k < n, (t k).length = 0) → d = 1) : 0 < d := by
  by_cases hall : ∀ k < n, (t k).length = 0
  · rw [hempty hall]
    exact Nat.one_pos
  · push Not at hall
    obtain ⟨k, hk, hne⟩ := hall
    rw [← hdim k hk (Nat.pos_of_ne_zero hne)]
    exact (hsized k hk).dimension_pos

theorem Compatible.dimension_pos (h : Compatible hollow n rules v d) : 0 < d :=
  dimension_pos_of_fits (fun k hk => (h.sized k hk).sized) (fun k hk => (h.fits k hk).1) h.empty

theorem Compatible.arrayShape (h : Compatible hollow n rules v d) {limit : Nat}
    (hlimit : Routing.total (lengthsOf n v) ≤ limit) :
    arrayShape site limit ((List.range n).map rules) ((List.range n).map fun k => (v k).shape) =
      .ok ⟨Routing.total (lengthsOf n v), d⟩ := by
  refine arrayShape_eq_ok.mpr ⟨h.fits, h.empty, ?_, hlimit⟩
  have htotal : Routing.total ((List.range n).map fun k => (v k).shape.length) =
      Routing.total (lengthsOf n v) := by
    rw [lengthsOf, List.map_map]
    rfl
  rw [htotal, Nat.min_eq_left h.total]

theorem Compatible.sized_concat (h : Compatible hollow n rules v d) (hn : 0 < n) :
    (Series.concat d ((List.range n).map v)).Sized hollow :=
  Foretells.sized_concat h.dimension_pos (.inl hn) h.sized (fun k hk => (h.fits k hk).1) h.total

/-- Families of items that settle where they are asked. -/
theorem settles_arrayLiteral {F : Nat → Nat → Meaning Plain} {D : Int → Prop} (hn : 0 < n)
    (h : Compatible hollow n rules v d)
    (hshape : ∀ k < n, ∀ᶠ N in atTop, (F N k).shape = .ok (v k).shape)
    (hone : n = 1 → ∀ S : List Int, (∀ i ∈ S, inRange (v 0).length i → D i) →
      ∀ᶠ N in atTop, (F N 0).values (.at S) = .ok ((v 0).gather S))
    (hmany : n ≠ 1 → ∀ k < n, ∀ T : List Int, T ≠ [] →
      (∀ x ∈ T, ∃ i, inRange (Routing.total (lengthsOf n v)) i ∧ D i ∧
        Routing.ownerOf (lengthsOf n v) i = k ∧ Routing.placeOf (lengthsOf n v) i = x) →
      ∀ᶠ N in atTop, (F N k).values (.at T) = .ok ((v k).gather T)) :
    Settles (fun N => .arrayLiteral site N (itemsOf n rules (F N)))
      (Series.concat d ((List.range n).map v)) D := by
  have hshapes := eventually_forall_lt hshape
  have hlimit := eventually_ge_atTop (Routing.total (lengthsOf n v))
  have hconcat : (Series.concat d ((List.range n).map v)).shape =
      ⟨Routing.total (lengthsOf n v), d⟩ := by
    rw [Series.shape, Series.dimension_concat]
    rfl
  constructor
  · rw [hconcat]
    filter_upwards [hshapes, hlimit] with N hN hlimit
    exact arrayLiteral_shape hN (h.arrayShape hlimit)
  · intro S hS
    have hanswer : ∀ᶠ N in atTop, (if n = 1 then (F N 0).values (.at S)
        else gatherSegments site (lengthsOf n v) d S fun k wanted =>
          ((itemsOf n rules (F N)).getD k default).meaning.values (.at wanted)) =
            .ok ((Series.concat d ((List.range n).map v)).gather S) := by
      by_cases hn1 : n = 1
      · subst hn1
        rw [concat_one (h.sized 0 hn).regular (h.lone rfl)] at hS ⊢
        simp only [if_true]
        exact hone rfl S hS
      · simp only [hn1, if_false]
        refine eventually_gatherSegments h.uniform h.total (fun k hk T hne hT => ?_) hS
        filter_upwards [hmany hn1 k hk T hne hT] with N hN
        rw [getD_itemsOf hk, hN]
    filter_upwards [hshapes, hlimit, hanswer] with N hN hlimit hanswer
    rw [arrayLiteral_elements hN (h.arrayShape hlimit), ← hanswer]
    simp only [lengthsOf, List.map_map]
    rfl

theorem arrayLiteral_all {limit : Nat} {f : Nat → Meaning Plain}
    (h : Compatible hollow n rules v d) (hlimit : Routing.total (lengthsOf n v) ≤ limit)
    (hvalues : ∀ k < n, (f k).values .all = .ok (v k)) :
    (Meaning.arrayLiteral site limit (itemsOf n rules f)).values .all =
      .ok (Series.concat d ((List.range n).map v)) := by
  refine bind_eq_ok.mpr ⟨(List.range n).map v, mapM_map_eq_ok.mpr ⟨v, rfl, fun k hk =>
    hvalues k (List.mem_range.mp hk)⟩, ?_⟩
  rw [Answering.ofExcept_plain, toRules_itemsOf, List.map_map]
  refine bind_eq_ok.mpr ⟨_, h.arrayShape hlimit, ?_⟩
  rw [Answering.ofExcept_plain]
  refine (concatenate_eq_ok h.dimension_pos fun w hw => ?_).mpr
    ⟨fun w hw => (h.uniform w hw).2, h.total, rfl⟩
  obtain ⟨k, hk, rfl⟩ := List.mem_map.mp hw
  have hsized := h.sized k (List.mem_range.mp hk)
  exact ⟨hsized.regular, hsized.sized.dimension_pos⟩

/-- What has elements stands alone. -/
theorem standsAlone {m : Meaning Plain} {M : Nat → Meaning Plain} (h : Foretells hollow m M)
    (hhollow : ¬ hollow) : m.StandsAlone where
  shape hs := (h.shape hs).1.standsAlone hhollow
  all hv := (h.all hv).1.sized.standsAlone hhollow

variable {f : Nat → Meaning Plain} {F : Nat → Nat → Meaning Plain}

/-- The items of an array literal that has given all its values. -/
theorem of_arrayLiteral_all {limit : Nat} {u : Series}
    (h : ∀ k < n, Foretells hollow (f k) fun N => F N k)
    (halone : n = 1 → (f 0).StandsAlone)
    (hu : (Meaning.arrayLiteral site limit (itemsOf n rules f)).values .all = .ok u) :
    ∃ v d, (∀ k < n, (f k).values .all = .ok (v k)) ∧ Compatible hollow n rules v d ∧
      u = Series.concat d ((List.range n).map v) := by
  obtain ⟨values, hvalues, hu⟩ := bind_eq_ok.mp hu
  obtain ⟨v, rfl, hv⟩ := mapM_map_eq_ok.mp hvalues
  have hv : ∀ k < n, (f k).values .all = .ok (v k) := fun k hk => hv k (List.mem_range.mpr hk)
  have hsized : ∀ k < n, (v k).Sized hollow := fun k hk => ((h k hk).all (hv k hk)).1
  rw [Answering.ofExcept_plain, toRules_itemsOf, List.map_map] at hu
  obtain ⟨s, hs, hu⟩ := bind_eq_ok.mp hu
  rw [Answering.ofExcept_plain] at hu
  obtain ⟨hfits, hempty, -⟩ := arrayShape_eq_ok.mp hs
  have hd : 0 < s.dimension := dimension_pos_of_fits (fun k hk => (hsized k hk).sized)
    (fun k hk => (hfits k hk).1) hempty
  obtain ⟨-, htotal, rfl⟩ := (concatenate_eq_ok hd fun w hw => by
    obtain ⟨k, hk, rfl⟩ := List.mem_map.mp hw
    have hsized := hsized k (List.mem_range.mp hk)
    exact ⟨hsized.regular, hsized.sized.dimension_pos⟩).mp hu
  refine ⟨v, s.dimension, hv, ⟨hsized, hfits, hempty, fun h1 => ?_, htotal⟩, rfl⟩
  subst h1
  exact ((halone rfl).all (hv 0 Nat.one_pos)).dimension_eq (hfits 0 Nat.one_pos).1
    fun hzero => hempty fun k hk => by
      obtain rfl : k = 0 := by omega
      exact hzero

/-- The items of an array literal that has answered for some elements: they answer as series where
they were asked, and the literal as their concatenation. -/
theorem of_arrayLiteral_some {limit : Nat} {S : List Int} {w : Series} (hn : 0 < n)
    (h : ∀ k < n, Foretells hollow (f k) fun N => F N k)
    (halone : n = 1 → (f 0).StandsAlone)
    (hw : (Meaning.arrayLiteral site limit (itemsOf n rules f)).values (.at S) = .ok w) :
    ∃ v d, Compatible hollow n rules v d ∧ w = (Series.concat d ((List.range n).map v)).gather S ∧
      (∀ k < n, ∀ᶠ N in atTop, (F N k).shape = .ok (v k).shape) ∧
      (n = 1 → Settles (fun N => F N 0) (v 0) (· ∈ S)) ∧
      (n ≠ 1 → ∀ k < n, Routing.requestsOf (lengthsOf n v) S k ≠ [] →
        Settles (fun N => F N k) (v k) (· ∈ Routing.requestsOf (lengthsOf n v) S k)) := by
  obtain ⟨t, s, ht, hs⟩ := of_arrayLiteral_elements hw
  have hshape := fun k hk => (h k hk).shape (ht k hk)
  obtain ⟨hfits, hempty, -, -⟩ := arrayShape_eq_ok.mp hs
  rw [arrayLiteral_elements ht hs] at hw
  -- the only item of a literal is asked for the elements itself, without any routing
  by_cases hn1 : n = 1
  · subst hn1
    rw [if_pos rfl] at hw
    obtain ⟨v, hvsized, rfl, hsettles⟩ := (h 0 hn).elements hw
    have hvt : t 0 = v.shape := (h 0 hn).shape_eq_of_settles (ht 0 hn) hsettles
    have honly : ∀ k < 1, t k = v.shape := by
      intro k hk
      obtain rfl : k = 0 := by omega
      exact hvt
    have hdim : v.dimension = s.dimension := by
      have hv : v.shape.StandsAlone := hvt ▸ (halone rfl).shape (ht 0 hn)
      refine hv.dimension_eq (hvt ▸ (hfits 0 hn).1) ?_
      exact fun hzero => hempty fun k hk => honly k hk ▸ hzero
    have hcompatible : Compatible hollow 1 rules (fun _ => v) s.dimension := by
      have hle : v.length ≤ maxLength := hvsized.sized.length_le
      refine ⟨fun _ _ => hvsized, fun k hk => ?_, fun hzero => hempty fun k hk => ?_,
        fun _ => hdim, by simpa [lengthsOf] using hle⟩
      · have := hfits k hk
        rwa [honly k hk] at this
      · rw [honly k hk]
        exact hzero k hk
    refine ⟨fun _ => v, s.dimension, hcompatible, ?_, fun k hk => ?_, fun _ => hsettles,
      fun hne => absurd rfl hne⟩
    · rw [concat_one hvsized.regular hdim]
    · obtain rfl : k = 0 := by omega
      exact hsettles.shape
  · rw [if_neg hn1] at hw
    obtain ⟨v, hv, htotal, rfl, hsettles⟩ := of_gatherSegments_foretold h ht
      (fun k hk => (hfits k hk).1) (fun k hk T => by rw [getD_itemsOf hk]) hw
    refine ⟨v, s.dimension, ⟨fun k hk => (hv k hk).1, fun k hk => ?_,
      fun hzero => hempty fun k hk => ?_, fun h1 => absurd h1 hn1, htotal⟩, rfl, fun k hk => ?_,
      fun h1 => absurd h1 hn1, fun _ => hsettles⟩
    · have := hfits k hk
      rwa [← (hv k hk).2] at this
    · rw [← (hv k hk).2]
      exact hzero k hk
    · rw [(hv k hk).2]
      exact (hshape k hk).2

theorem arrayLiteral {limit : Nat} (hn : 0 < n)
    (h : ∀ k < n, Foretells hollow (f k) fun N => F N k)
    (halone : n = 1 → (f 0).StandsAlone) :
    Foretells hollow (.arrayLiteral site limit (itemsOf n rules f)) fun N =>
      .arrayLiteral site N (itemsOf n rules (F N)) where
  shape {s} hs := by
    obtain ⟨shapes, hshapes, hs⟩ := bind_eq_ok.mp hs
    obtain ⟨t, rfl, ht⟩ := mapM_map_eq_ok.mp hshapes
    have ht : ∀ k < n, (f k).shape = .ok (t k) := fun k hk => ht k (List.mem_range.mpr hk)
    have hsized : ∀ k < n, (t k).Sized hollow := fun k hk => ((h k hk).shape (ht k hk)).1
    rw [Answering.ofExcept_plain, toRules_itemsOf] at hs
    obtain ⟨hfits, hempty, hlength, hlimit⟩ := arrayShape_eq_ok.mp hs
    refine ⟨⟨?_, ?_, ?_⟩, ?_⟩
    · refine (total_pos_or_hollow (.inl hn) hsized).imp_left fun hpos => ?_
      have := Shape.one_le_maxLength
      omega
    · rw [hlength]
      exact Nat.min_le_right _ _
    · exact dimension_pos_of_fits hsized (fun k hk => (hfits k hk).1) hempty
    · filter_upwards [eventually_forall_lt fun k hk => ((h k hk).shape (ht k hk)).2,
        eventually_ge_atTop s.length] with N hN hlimit
      exact arrayLiteral_shape hN (arrayShape_eq_ok.mpr ⟨hfits, hempty, hlength, hlimit⟩)
  all {u} hu := by
    obtain ⟨v, d, hv, hcompatible, rfl⟩ := of_arrayLiteral_all h halone hu
    have hsettles : ∀ k < n, SettlesFully (fun N => F N k) (v k) := fun k hk =>
      ((h k hk).all (hv k hk)).2
    refine ⟨hcompatible.sized_concat hn, Settles.fully (settles_arrayLiteral hn hcompatible
      (fun k hk => (hsettles k hk).shape) (fun h1 S _ => (hsettles 0 hn).elements S)
      fun _ k hk T _ _ => (hsettles k hk).elements T) ?_⟩
    filter_upwards [eventually_forall_lt fun k hk => (hsettles k hk).all, eventually_ge_atTop _]
      with N hN hlimit
    exact arrayLiteral_all hcompatible hlimit hN
  elements {S w} hw := by
    obtain ⟨v, d, hcompatible, rfl, hshape, hone, hmany⟩ := of_arrayLiteral_some hn h halone hw
    refine ⟨_, hcompatible.sized_concat hn, rfl, settles_arrayLiteral hn hcompatible hshape
      (fun h1 T hT => (hone h1).elements T hT) fun hn1 k hk T hne hT =>
        elements_of_asked (hmany hn1 k hk) hne hT⟩

end ArrayLiteral

end Meaning.Foretells

end VectorScript
