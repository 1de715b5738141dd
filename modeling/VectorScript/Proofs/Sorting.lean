import Mathlib
import VectorScript.Proofs.ShapeRules
import VectorScript.Proofs.TotalOrder

/-!
# Sorting

A series is sorted in two ways.  By itself, every channel is put into ascending order, whatever the
others do.  By a key, whole elements are put into the ascending order of their keys, and elements of
equal keys keep their order.  Only elements that have a key, and keys that have an element, count.
This holds for keys of any kind in any order that is total and transitive, that of the bit patterns
of scalars among them.

* `Builtin.Arrangement.positionAt`: the position whose key comes at a place of the order.
* `Builtin.Arrangement.StablySorted`: whole elements in the ascending order of their keys.
* `Builtin.Arrangement.sorts_stably`: both ways of sorting.
-/

namespace VectorScript.Builtin

open Scalar

/-- An order that is transitive and total; different things may be equal in it. -/
structure TotalPreorder {κ : Type} (le : κ → κ → Bool) : Prop where
  trans : ∀ a b c, le a b → le b c → le a c
  total : ∀ a b, le a b || le b a

theorem TotalPreorder.refl {κ : Type} {le : κ → κ → Bool} (h : TotalPreorder le) (a : κ) :
    le a a := by
  simpa using h.total a a

theorem TotalPreorder.comap {κ ι : Type} {le : κ → κ → Bool} (h : TotalPreorder le) (f : ι → κ) :
    TotalPreorder fun i j => le (f i) (f j) :=
  ⟨fun _ _ _ => h.trans _ _ _, fun _ _ => h.total _ _⟩

theorem totalPreorder_patternPrecedes : TotalPreorder patternPrecedes :=
  ⟨patternPrecedes_trans, patternPrecedes_total⟩

theorem totalPreorder_precedes : TotalPreorder precedes :=
  totalPreorder_patternPrecedes.comap Float32.toBits

/-! ### Channels in ascending order -/

namespace Statistics

variable {κ : Type} {le : κ → κ → Bool} (values : Array κ)

theorem sortedBy_perm : (sortedBy le values).toList.Perm values.toList :=
  List.mergeSort_perm _ _

theorem pairwise_sortedBy (h : TotalPreorder le) :
    (sortedBy le values).toList.Pairwise fun x y => le x y :=
  List.pairwise_mergeSort h.trans h.total values.toList

end Statistics

namespace Arrangement

/-! ### The order of the keys -/

section Keys

variable {κ : Type} {le : κ → κ → Bool} (key : Nat → κ) (n : Nat)

theorem orderBy_perm : (orderBy le key n).Perm (List.range n) :=
  List.mergeSort_perm _ _

theorem nodup_orderBy : (orderBy le key n).Nodup :=
  (orderBy_perm key n).nodup_iff.mpr List.nodup_range

theorem lt_of_mem_orderBy {i : Nat} (h : i ∈ orderBy le key n) : i < n :=
  List.mem_range.mp ((orderBy_perm key n).mem_iff.mp h)

theorem pairwise_orderBy (h : TotalPreorder le) :
    (orderBy le key n).Pairwise fun i j => le (key i) (key j) :=
  List.pairwise_mergeSort (h.comap key).trans (h.comap key).total _

/-- A position stays before a later one, unless the key of that one comes first. -/
theorem pair_sublist_orderBy (h : TotalPreorder le) {i j : Nat} (hij : i < j) (hj : j < n)
    (hle : le (key i) (key j)) : [i, j].Sublist (orderBy le key n) := by
  refine List.pair_sublist_mergeSort (h.comap key).trans (h.comap key).total hle ?_
  -- two positions that ascend are a part of all positions, which ascend
  refine List.sublist_of_subperm_of_pairwise (r := (· ≤ ·)) (List.subperm_of_subset ?_ ?_) ?_ ?_
  · simp [Nat.ne_of_lt hij]
  · intro k hk
    simp only [List.mem_cons, List.not_mem_nil, or_false] at hk
    exact List.mem_range.mpr (by omega)
  · simpa using Nat.le_of_lt hij
  · exact List.pairwise_lt_range.imp Nat.le_of_lt

variable (le) in
/-- The position whose key comes at place `k` of the order. -/
def positionAt (k : Fin n) : Fin n :=
  ⟨(orderBy le key n).get (k.cast (length_orderBy le key n).symm),
    lt_of_mem_orderBy key n (List.get_mem _ _)⟩

theorem positionAt_injective : Function.Injective (positionAt le key n) := by
  intro i j h
  have heq := (nodup_orderBy key n).get_inj_iff.mp (Fin.mk.inj h)
  exact Fin.ext (Fin.mk.inj heq)

theorem orderBy_eq_ofFn : orderBy le key n = List.ofFn fun k => (positionAt le key n k : Nat) := by
  refine List.ext_getElem (by simp [length_orderBy]) fun k hk _ => ?_
  rw [List.getElem_ofFn]
  rfl

theorem le_positionAt (h : TotalPreorder le) {i j : Fin n} (hij : i ≤ j) :
    le (key (positionAt le key n i)) (key (positionAt le key n j)) := by
  rcases Fin.lt_or_eq_of_le hij with hij | rfl
  · exact List.pairwise_iff_get.mp (pairwise_orderBy key n h) _ _ hij
  · exact h.refl _

/-- Positions of equal keys keep their order. -/
theorem positionAt_lt (h : TotalPreorder le) {i j : Fin n} (hij : i < j)
    (hkeys : le (key (positionAt le key n j)) (key (positionAt le key n i))) :
    positionAt le key n i < positionAt le key n j := by
  by_contra hle
  have hne : positionAt le key n i ≠ positionAt le key n j := fun heq =>
    absurd (positionAt_injective key n heq) (Fin.ne_of_lt hij)
  have hlt : positionAt le key n j < positionAt le key n i := by omega
  -- else the order holds the two positions the other way round as well
  obtain ⟨f, hf⟩ := List.sublist_iff_exists_fin_orderEmbedding_get_eq.mp
    (pair_sublist_orderBy key n h hlt (positionAt le key n i).isLt hkeys)
  have hj := (nodup_orderBy key n).get_inj_iff.mp (hf 0)
  have hi := (nodup_orderBy key n).get_inj_iff.mp (hf 1)
  have hfs : f 0 < f 1 := f.lt_iff_lt.mpr Nat.zero_lt_one
  rw [← hj, ← hi] at hfs
  exact absurd hfs (not_lt.mpr (Nat.le_of_lt hij))

end Keys

/-! ### Sorted series -/

/-- An element that is gathered has all the components it had before. -/
theorem element?_gather {v : Series} {n : Nat} (f : Fin n → Nat) (hf : ∀ k, f k < v.length)
    (k : Fin n) : (v.gather ((List.ofFn f).map Int.ofNat)).element? k = v.element? (f k) := by
  rw [Series.element?, Series.element?, if_pos (by simp), if_pos (hf k), Series.gather,
    List.map_map]
  refine congrArg some (List.map_congr_left fun c _ => ?_)
  simp [Array.getD_eq_getD_getElem?, Series.readAt]

theorem channel_of_sorted {u v : Series}
    (h : Series.ofChannels? (u.channels.map Statistics.sorted) = some v) {c : Nat}
    (hc : c < v.dimension) : v.channel c = Statistics.sorted (u.channel c) := by
  obtain ⟨hchannels, -⟩ := Series.ofChannels?_eq_some h
  have hc' : c < u.channels.length := by simpa [Series.dimension, hchannels] using hc
  rw [Series.channel, Series.channel, hchannels, List.getD_eq_getElem _ _ (by simpa using hc'),
    List.getElem_map, List.getD_eq_getElem _ _ hc']

/-- A series has the first elements of another, as many as there are keys for, in the ascending
order of their keys; elements of equal keys keep their order. -/
structure StablySorted {κ : Type} (le : κ → κ → Bool) (values : Series) (keys : Nat) (key : Nat → κ)
    (v : Series) : Prop where
  shape : v.shape = ⟨min values.length keys, values.dimension⟩
  order : ∃ p : Equiv.Perm (Fin (min values.length keys)),
    (∀ k : Fin _, v.element? k = values.element? (p k)) ∧
    (∀ i j, i ≤ j → le (key (p i)) (key (p j))) ∧
    ∀ i j, i < j → le (key (p j)) (key (p i)) → p i < p j

theorem stablySorted_sortBy {κ : Type} {le : κ → κ → Bool} (h : TotalPreorder le) (values : Series)
    (keys : Nat) (key : Nat → κ) : StablySorted le values keys key (sortBy le values keys key) := by
  have hbijective : Function.Bijective (positionAt le key (min values.length keys)) :=
    Finite.injective_iff_bijective.mp (positionAt_injective _ _)
  refine ⟨shape_sortBy le values keys key, .ofBijective _ hbijective, fun k => ?_,
    fun i j hij => ?_, fun i j hij hkeys => ?_⟩
  · rw [sortBy, orderBy_eq_ofFn]
    exact element?_gather _ (fun k => Nat.lt_of_lt_of_le (Fin.isLt _) (Nat.min_le_left _ _)) k
  · exact le_positionAt key _ h hij
  · exact positionAt_lt key _ h hij hkeys

theorem sort_by_key {values key : Series} (hkey : key.dimension = 1) :
    sort [values, key] = .ok (sortBy precedes values key.length fun i => key.read i 0) := by
  rw [sort, if_neg (not_not.mpr hkey)]
  rfl

theorem sort_channels {values : Series} (h : values.Formed) : ∃ v, sort [values] = .ok v ∧
    v.shape = values.shape ∧
      ∀ c < v.dimension, v.channel c = Statistics.sorted (values.channel c) := by
  have hcount : (values.channels.map Statistics.sorted).length = values.dimension :=
    List.length_map _
  have hsize : ∀ c ∈ values.channels.map Statistics.sorted, c.size = values.length := by
    simpa [Statistics.size_sorted, Series.Regular] using h.regular
  obtain ⟨v, hv, hshape⟩ := Series.exists_ofChannels? (hcount ▸ h.shape.dimension_pos)
    (hcount ▸ h.shape.dimension_le) hsize
  exact ⟨v, by rw [sort, hv], by rw [hshape, hcount]; rfl, fun c => channel_of_sorted hv⟩

/-- Whatever kind of keys there are, and whatever total order they stand in: sorting by a key puts
whole elements into the ascending order of their keys, and elements of equal keys keep their order;
and sorting a channel puts it into ascending order.  The order of scalars is that of their bit
patterns, which is total on all of them.  In this order the elements of a series are sorted by the
elements of another, and without a key every channel by itself. -/
theorem sorts_stably (values key : Series) (hvalues : values.Formed) (hkey : key.dimension = 1) :
    (∀ {κ : Type} {le : κ → κ → Bool}, TotalPreorder le →
      (∀ (n : Nat) (keys : Nat → κ), StablySorted le values n keys (sortBy le values n keys)) ∧
      ∀ channel : Array κ, (Statistics.sortedBy le channel).toList.Perm channel.toList ∧
        (Statistics.sortedBy le channel).toList.Pairwise fun x y => le x y) ∧
    TotalPreorder patternPrecedes ∧
    (∃ v, sort [values, key] = .ok v ∧
      v = sortBy precedes values key.length (fun i => key.read i 0) ∧
      StablySorted precedes values key.length (fun i => key.read i 0) v) ∧
    ∃ v, sort [values] = .ok v ∧ v.shape = values.shape ∧ ∀ c < v.dimension,
      v.channel c = Statistics.sortedBy precedes (values.channel c) ∧
      (v.channel c).toList.Perm (values.channel c).toList ∧
      (v.channel c).toList.Pairwise fun x y => precedes x y ∧ ¬ y < x := by
  refine ⟨fun h => ⟨stablySorted_sortBy h values, fun channel =>
    ⟨Statistics.sortedBy_perm channel, Statistics.pairwise_sortedBy channel h⟩⟩,
    totalPreorder_patternPrecedes, ⟨_, sort_by_key hkey, rfl, ?_⟩, ?_⟩
  · exact stablySorted_sortBy totalPreorder_precedes values _ _
  · obtain ⟨v, hv, hshape, hchannels⟩ := sort_channels hvalues
    refine ⟨v, hv, hshape, fun c hc => ?_⟩
    rw [hchannels c hc]
    refine ⟨rfl, Statistics.sortedBy_perm _, ?_⟩
    exact (Statistics.pairwise_sortedBy _ totalPreorder_precedes).imp fun h =>
      ⟨h, not_lt_of_precedes h⟩

/-- Three points. -/
def points : Series := ⟨3, [#[3, 1, 2], #[0, 1, 0]]⟩

/-- Keys of which the first and the last are no numbers, without and with a sign. -/
def signedKeys (i : Nat) : UInt32 := [0x7fc00000, 0, 0xffc00000].getD i 0

/-- The points with equal keys stay as they are, without the third, which has no key.  By keys that
are no numbers but for the second, which has a sign in the last, they are turned round. -/
theorem sorts_points_stably : points.Formed ∧ (Series.ofValues #[7, 7]).dimension = 1 ∧
    (∃ v, sort [points, .ofValues #[7, 7]] = .ok v ∧ v.shape = ⟨2, 2⟩ ∧
      v.element? 0 = some [3, 0] ∧ v.element? 1 = some [1, 1]) ∧
    (sortBy patternPrecedes points 3 signedKeys).element? 0 = some [2, 0] ∧
    (sortBy patternPrecedes points 3 signedKeys).element? 1 = some [1, 1] ∧
    (sortBy patternPrecedes points 3 signedKeys).element? 2 = some [3, 0] := by
  have hpoints : points.Formed := ⟨by simp [points, Series.Regular], by decide, by decide⟩
  obtain ⟨hany, hpattern, ⟨v, hv, -, hshape, horder⟩, -⟩ :=
    sorts_stably _ (.ofValues #[7, 7]) hpoints rfl
  have hkept : ∃ p : Equiv.Perm (Fin 2), (∀ k : Fin 2, v.element? k = points.element? (p k)) ∧
      p 0 = 0 ∧ p 1 = 1 := by
    obtain ⟨p, helement, -, hstable⟩ := horder
    have hread : ∀ i : Fin 2, (Series.ofValues #[7, 7]).read i 0 = 7 := by decide +kernel
    have hequal : ∀ i j : Fin 2, precedes ((Series.ofValues #[7, 7]).read i 0)
        ((Series.ofValues #[7, 7]).read j 0) := fun i j => by
      rw [hread i, hread j]
      exact totalPreorder_precedes.refl 7
    have hlt : ∀ p : Equiv.Perm (Fin 2), p 0 < p 1 → p 0 = 0 ∧ p 1 = 1 := by decide
    exact ⟨p, helement, hlt p (hstable (0 : Fin 2) (1 : Fin 2) Nat.zero_lt_one (hequal _ _))⟩
  have hturned : ∃ p : Equiv.Perm (Fin 3), (∀ k : Fin 3,
      (sortBy patternPrecedes points 3 signedKeys).element? k = points.element? (p k)) ∧
        p 0 = 2 ∧ p 1 = 1 ∧ p 2 = 0 := by
    obtain ⟨-, p, helement, hascends, -⟩ := (hany hpattern).1 3 signedKeys
    have hround : ∀ p : Equiv.Perm (Fin 3),
        (∀ i j, i ≤ j → patternPrecedes (signedKeys (p i)) (signedKeys (p j))) →
          p 0 = 2 ∧ p 1 = 1 ∧ p 2 = 0 := by decide
    exact ⟨p, helement, hround p hascends⟩
  obtain ⟨p, hp, hp0, hp1⟩ := hkept
  obtain ⟨q, hq, hq0, hq1, hq2⟩ := hturned
  have hv0 := hp 0
  have hv1 := hp 1
  have hv0' := hq 0
  have hv1' := hq 1
  have hv2' := hq 2
  rw [hp0] at hv0
  rw [hp1] at hv1
  rw [hq0] at hv0'
  rw [hq1] at hv1'
  rw [hq2] at hv2'
  exact ⟨hpoints, rfl, ⟨v, hv, hshape, hv0, hv1⟩, hv0', hv1', hv2'⟩

end Arrangement

end VectorScript.Builtin
