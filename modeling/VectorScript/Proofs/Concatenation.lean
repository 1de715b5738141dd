import VectorScript.Meaning.ArrayLiteral
import VectorScript.Meaning.Comprehension
import VectorScript.Proofs.Failing
import VectorScript.Proofs.SeriesLaws

/-!
# Concatenation

`Series.concat` puts series of one dimension one after the other.  A builder arrives at it step by
step, and a routing reads single elements of it without building it.  Series without elements may
stand among the others with any dimension.
-/

namespace VectorScript

/-! ### Lengths -/

namespace Routing

theorem foldl_add_eq (a : Nat) : ∀ lengths : List Nat, lengths.foldl (· + ·) a = a + total lengths
  | [] => rfl
  | n :: rest => by
    rw [total, List.foldl_cons, List.foldl_cons, foldl_add_eq (a + n) rest,
      foldl_add_eq (0 + n) rest]
    omega

@[simp] theorem total_nil : total [] = 0 := rfl

@[simp] theorem total_cons (n : Nat) (lengths : List Nat) :
    total (n :: lengths) = n + total lengths := by
  rw [total, List.foldl_cons, foldl_add_eq]
  omega

theorem le_total_of_mem {n : Nat} : ∀ {lengths : List Nat}, n ∈ lengths → n ≤ total lengths
  | m :: rest, h => by
    rw [total_cons]
    rcases List.mem_cons.mp h with rfl | h
    · omega
    · have := le_total_of_mem h
      omega

theorem total_eq_length : ∀ {lengths : List Nat}, (∀ n ∈ lengths, n = 1) →
    total lengths = lengths.length
  | [], _ => rfl
  | n :: rest, h => by
    have hn := h n List.mem_cons_self
    have hrest := total_eq_length fun k hk => h k (List.mem_cons_of_mem _ hk)
    rw [total_cons, List.length_cons, hn, hrest]
    omega

end Routing

/-! ### Concatenation of series -/

namespace Series

/-- The elements of some series of dimension `d` in order. -/
def concat (d : Nat) (vs : List Series) : Series :=
  ⟨Routing.total (vs.map length), (List.range d).map fun c =>
    (vs.flatMap fun v => (v.channel c).toList).toArray⟩

variable {d : Nat} {vs : List Series}

@[simp] theorem length_concat : (concat d vs).length = Routing.total (vs.map length) := rfl

@[simp] theorem dimension_concat : (concat d vs).dimension = d := by
  simp [concat, dimension]

/-- Regular series; those with elements have dimension `d`. -/
def Uniform (d : Nat) (vs : List Series) : Prop :=
  ∀ v ∈ vs, v.Regular ∧ (0 < v.length → v.dimension = d)

theorem Uniform.tail {v : Series} (h : Uniform d (v :: vs)) : Uniform d vs :=
  fun w hw => h w (List.mem_cons_of_mem _ hw)

theorem Uniform.size_channel (h : Uniform d vs) {c : Nat} (hc : c < d) :
    ∀ v ∈ vs, (v.channel c).size = v.length := by
  intro v hv
  obtain ⟨hregular, hdim⟩ := h v hv
  by_cases hin : c < v.dimension
  · exact hregular.size_channel hin
  · -- only a series without elements lacks the channel
    have hzero : v.length = 0 := by
      by_contra hne
      exact hin (hdim (Nat.pos_of_ne_zero hne) ▸ hc)
    rw [channel_of_le (Nat.le_of_not_lt hin), hzero]
    rfl

theorem length_flatMap_channel {c : Nat} :
    ∀ {vs : List Series}, (∀ v ∈ vs, (v.channel c).size = v.length) →
      (vs.flatMap fun v => (v.channel c).toList).length = Routing.total (vs.map length)
  | [], _ => rfl
  | v :: vs, h => by
    rw [List.flatMap_cons, List.length_append, List.map_cons, Routing.total_cons,
      length_flatMap_channel fun w hw => h w (List.mem_cons_of_mem _ hw), Array.length_toList,
      h v List.mem_cons_self]

theorem regular_concat (h : Uniform d vs) : (concat d vs).Regular := by
  intro values hvalues
  obtain ⟨c, hc, rfl⟩ := List.mem_map.mp hvalues
  rw [List.size_toArray, length_flatMap_channel (h.size_channel (List.mem_range.mp hc))]
  rfl

theorem channel_concat {c : Nat} (hc : c < d) :
    (concat d vs).channel c = (vs.flatMap fun v => (v.channel c).toList).toArray := by
  simp [channel, concat, hc]

/-- Series without elements add nothing. -/
theorem concat_filter (h : Uniform d vs) :
    concat d (vs.filter (0 < ·.length)) = concat d vs := by
  have hlengths : ∀ vs : List Series, Routing.total ((vs.filter (0 < ·.length)).map length) =
      Routing.total (vs.map length) := by
    intro vs
    induction vs with
    | nil => rfl
    | cons v vs ih =>
      by_cases hv : 0 < v.length
      · rw [List.filter_cons_of_pos (by simpa using hv), List.map_cons, List.map_cons,
          Routing.total_cons, Routing.total_cons, ih]
      · rw [List.filter_cons_of_neg (by simpa using hv), List.map_cons, Routing.total_cons, ih]
        omega
  have hvalues : ∀ c < d, ∀ vs : List Series, (∀ v ∈ vs, (v.channel c).size = v.length) →
      (vs.filter (0 < ·.length)).flatMap (fun v => (v.channel c).toList) =
        vs.flatMap fun v => (v.channel c).toList := by
    intro c _ vs hsize
    induction vs with
    | nil => rfl
    | cons v vs ih =>
      have ih := ih fun w hw => hsize w (List.mem_cons_of_mem _ hw)
      by_cases hv : 0 < v.length
      · rw [List.filter_cons_of_pos (by simpa using hv), List.flatMap_cons, List.flatMap_cons, ih]
      · have hnil : (v.channel c).toList = [] := by
          rw [← List.length_eq_zero_iff, Array.length_toList, hsize v List.mem_cons_self]
          omega
        rw [List.filter_cons_of_neg (by simpa using hv), List.flatMap_cons, ih, hnil,
          List.nil_append]
  rw [concat, hlengths]
  refine congrArg (mk _) (List.map_congr_left fun c hc => ?_)
  have hc := List.mem_range.mp hc
  rw [hvalues c hc vs (h.size_channel hc)]

theorem read_concat_left {v : Series} (h : Uniform d (v :: vs)) {c i : Nat} (hc : c < d)
    (hi : i < v.length) : (concat d (v :: vs)).read i c = v.read i c := by
  have hsize := h.size_channel hc v List.mem_cons_self
  rw [read, channel_concat hc, read, readAt_natCast, readAt_natCast,
    Array.getD_eq_getD_getElem?, Array.getD_eq_getD_getElem?]
  simp [List.getElem?_append_left, hsize, hi]

theorem read_concat_right {v : Series} (h : Uniform d (v :: vs)) {c : Nat} (hc : c < d) (i : Nat) :
    (concat d (v :: vs)).read ((v.length + i : Nat) : Int) c = (concat d vs).read i c := by
  have hsize := h.size_channel hc v List.mem_cons_self
  rw [read, channel_concat hc, read, channel_concat hc, readAt_natCast, readAt_natCast,
    Array.getD_eq_getD_getElem?, Array.getD_eq_getD_getElem?]
  simp [List.getElem?_append_right, hsize]

/-- One element after the other. -/
theorem read_concat_singles : ∀ {vs : List Series}, Uniform d vs → (∀ v ∈ vs, v.length = 1) →
    ∀ {c : Nat}, c < d → ∀ {i : Nat} (hi : i < vs.length),
      (concat d vs).read i c = (vs[i]).read 0 c
  | v :: vs, h, hone, c, hc, 0, _ => by
    have hv := hone v List.mem_cons_self
    exact read_concat_left h hc (by omega)
  | v :: vs, h, hone, c, hc, i + 1, hi => by
    have hv := hone v List.mem_cons_self
    have hstep := read_concat_right h hc i
    rw [hv, Nat.add_comm 1 i] at hstep
    rw [hstep, List.getElem_cons_succ]
    exact read_concat_singles h.tail (fun w hw => hone w (List.mem_cons_of_mem _ hw)) hc
      (by simpa using hi)

end Series

/-! ### Builders -/

namespace Builder

/-- A builder holds series of dimension `d`.  While it holds none its dimension may be open. -/
structure Holds (b : Builder) (d : Nat) (vs : List Series) : Prop where
  parts : b.parts = vs.reverse
  length : b.length = Routing.total (vs.map Series.length)
  dimension : b.dimension = d ∨ vs = [] ∧ b.dimension = 0

theorem holds_empty (d : Nat) : empty.Holds d [] := ⟨rfl, rfl, .inr ⟨rfl, rfl⟩⟩

theorem holds_ofDimension (d : Nat) : (ofDimension d).Holds d [] := ⟨rfl, rfl, .inl rfl⟩

variable {b b' : Builder} {d : Nat} {vs : List Series} {v : Series}

theorem reserve_eq_ok {n : Nat} {u : Unit} : reserve n = .ok u ↔ n ≤ maxLength := by
  unfold reserve
  split_ifs with h
  · simp; omega
  · simp; omega

theorem build_eq_ok : b.build = .ok v ↔ b.length ≤ maxLength ∧ b.finish = v := by
  simp only [build, bind_eq_ok, reserve_eq_ok, pure_eq_ok, exists_and_left, exists_const]

theorem length_finish_le (b : Builder) : b.finish.length ≤ b.length := by
  unfold finish
  split_ifs
  · exact Nat.zero_le _
  · exact Nat.le_refl _

theorem length_of_build (h : b.build = .ok v) : v.length ≤ maxLength := by
  obtain ⟨hlength, rfl⟩ := build_eq_ok.mp h
  exact Nat.le_trans (length_finish_le b) hlength

theorem length_le_of_build {n : Nat} (hb : b.length ≤ n) (h : b.build = .ok v) : v.length ≤ n := by
  obtain ⟨-, rfl⟩ := build_eq_ok.mp h
  exact Nat.le_trans (length_finish_le b) hb

theorem push_eq_ok : b.push v = .ok b' ↔ (b.dimension = 0 ∨ b.dimension = v.dimension) ∧
    b' = ⟨v.dimension, b.length + v.length, v :: b.parts⟩ := by
  unfold push
  split_ifs with h
  · simp [h, eq_comm]
  · simp [h]

theorem foldl_append_channel (c : Nat) :
    ∀ (vs : List Series) (values : Array Float32),
      vs.foldl (fun values v => values ++ v.channel c) values =
        values ++ (vs.flatMap fun v => (v.channel c).toList).toArray
  | [], values => by simp
  | v :: vs, values => by
    rw [List.foldl_cons, foldl_append_channel c vs]
    apply Array.ext'
    simp

theorem Holds.channel (h : b.Holds d vs) (c : Nat) :
    b.channel c = (vs.flatMap fun v => (v.channel c).toList).toArray := by
  rw [Builder.channel, h.parts, List.foldr_reverse, foldl_append_channel]
  simp

theorem Holds.finish (h : b.Holds d vs) (hd : 0 < d) (hopen : b.dimension = 0 → d = 1) :
    b.finish = Series.concat d vs := by
  -- a builder whose dimension is still open holds nothing, and is finished as numbers
  by_cases hzero : b.dimension = 0
  · obtain rfl := hopen hzero
    obtain ⟨rfl, -⟩ := h.dimension.resolve_left (by omega)
    rw [Builder.finish, if_pos hzero]
    rfl
  · have hb : b.dimension = d := h.dimension.resolve_right fun hopen => hzero hopen.2
    rw [Builder.finish, if_neg hzero, hb, h.length]
    exact congrArg (Series.mk _) (List.map_congr_left fun c _ => h.channel c)

theorem Holds.push (h : b.Holds d vs) (hv : v.dimension = d) :
    b.push v = .ok ⟨d, b.length + v.length, v :: b.parts⟩ := by
  refine push_eq_ok.mpr ⟨?_, by rw [hv]⟩
  rcases h.dimension with hb | ⟨-, hb⟩
  · exact .inr (hb.trans hv.symm)
  · exact .inl hb

theorem total_append (n : Nat) : ∀ lengths : List Nat,
    Routing.total (lengths ++ [n]) = Routing.total lengths + n
  | [] => by simp
  | m :: rest => by
    rw [List.cons_append, Routing.total_cons, Routing.total_cons, total_append n rest]
    omega

theorem Holds.snoc (h : b.Holds d vs) :
    (Builder.mk d (b.length + v.length) (v :: b.parts)).Holds d (vs ++ [v]) where
  parts := by simp [h.parts]
  length := by rw [List.map_append, List.map_singleton, total_append, ← h.length]
  dimension := .inl rfl

/-- Pushing series of one dimension holds them all. -/
theorem Holds.foldlM_push : ∀ {ws : List Series} {vs : List Series} {b : Builder}, b.Holds d vs →
    (∀ w ∈ ws, w.dimension = d) → ∃ b', ws.foldlM Builder.push b = .ok b' ∧ b'.Holds d (vs ++ ws) ∧
      (ws ≠ [] → b'.dimension = d)
  | [], vs, b, h, _ => ⟨b, rfl, by simpa using h, fun hne => absurd rfl hne⟩
  | w :: ws, vs, b, h, hws => by
    have hw := hws w List.mem_cons_self
    obtain ⟨b', hb', hholds, hdim⟩ :=
      foldlM_push (h.snoc (v := w)) fun u hu => hws u (List.mem_cons_of_mem _ hu)
    refine ⟨b', ?_, by simpa using hholds, fun _ => ?_⟩
    · rw [List.foldlM_cons, h.push hw]
      exact hb'
    · cases ws with
      | nil =>
        obtain rfl := pure_eq_ok.mp hb'
        rfl
      | cons u us => exact hdim (by simp)

/-- If pushing succeeds, all series have one dimension. -/
theorem dimension_of_foldlM_push : ∀ {ws : List Series} {b b' : Builder},
    ws.foldlM Builder.push b = .ok b' → (∀ w ∈ ws, 0 < w.dimension) → 0 < b.dimension →
    ∀ w ∈ ws, w.dimension = b.dimension
  | [], _, _, _, _, _ => by simp
  | w :: ws, b, b', h, hpos, hb => by
    rw [List.foldlM_cons] at h
    obtain ⟨b₁, hpush, h⟩ := bind_eq_ok.mp h
    obtain ⟨hdim, rfl⟩ := push_eq_ok.mp hpush
    have hw : w.dimension = b.dimension := by omega
    have hrest := dimension_of_foldlM_push h (fun u hu => hpos u (List.mem_cons_of_mem _ hu))
      (hpos w List.mem_cons_self)
    intro u hu
    rcases List.mem_cons.mp hu with rfl | hu
    · exact hw
    · exact (hrest u hu).trans hw

theorem uniform_of_foldlM_push_empty {ws : List Series} (hne : ws ≠ [])
    (h : ws.foldlM Builder.push empty = .ok b') (hpos : ∀ w ∈ ws, 0 < w.dimension) :
    ∃ d, 0 < d ∧ ∀ w ∈ ws, w.dimension = d := by
  obtain ⟨w, ws, rfl⟩ := List.exists_cons_of_ne_nil hne
  have hw := hpos w List.mem_cons_self
  rw [List.foldlM_cons] at h
  obtain ⟨b₁, hpush, h⟩ := bind_eq_ok.mp h
  obtain ⟨-, rfl⟩ := push_eq_ok.mp hpush
  refine ⟨w.dimension, hw, fun u hu => ?_⟩
  rcases List.mem_cons.mp hu with rfl | hu
  · rfl
  · exact dimension_of_foldlM_push h (fun x hx => hpos x (List.mem_cons_of_mem _ hx)) hw u hu

end Builder

/-- The values of a literal are what a builder of its dimension makes of those with elements. -/
theorem Meaning.exists_build_of_concatenate {site : Site} {d : Nat} {vs : List Series} {v : Series}
    (h : concatenate site d vs = .ok v) :
    ∃ b, (vs.filter (0 < ·.length)).foldlM Builder.push (.ofDimension d) = .ok b ∧
      b.build = .ok v := by
  unfold concatenate at h
  split at h
  · rename_i b hb
    exact ⟨b, hb, mapError_eq_ok.mp h⟩
  · cases h

/-! ### What a comprehension appends -/

namespace Comprehension.Rules

variable {c : Rules} {b b' : Builder} {d : Nat} {vs : List Series} {v : Series}

/-- What a body has to give each time: one element, unless it makes runs. -/
def Allows (c : Rules) (n : Nat) : Prop := n = 1 ∨ c.makesRuns

/-- What has elements is pushed, within the limit. -/
theorem append_eq_ok : c.append b v = .ok b' ↔ c.Allows v.length ∧
    (v.length = 0 ∧ b' = b ∨ 0 < v.length ∧ b.push v = .ok b' ∧ b'.length ≤ c.limit) := by
  unfold append Allows
  by_cases hone : v.length ≠ 1 ∧ !c.makesRuns
  · rw [if_pos hone]
    obtain ⟨h1, hruns⟩ := hone
    constructor
    · intro h
      cases h
    · rintro ⟨h | h, -⟩
      · exact absurd h h1
      · simp [h] at hruns
  · have hallows : v.length = 1 ∨ c.makesRuns := by
      by_contra hnot
      exact hone (by simpa using hnot)
    rw [if_neg hone]
    by_cases hzero : v.length = 0
    · simp [hzero] at hallows ⊢
      simp [hallows, eq_comm]
    · have hpos : 0 < v.length := Nat.pos_of_ne_zero hzero
      rw [if_neg hzero]
      cases hpush : b.push v with
      | error e => simp [hzero]
      | ok b₁ =>
        simp only [hallows, hzero, hpos, false_and, false_or, true_and, Except.ok.injEq]
        split_ifs with hlimit
        · constructor
          · intro h
            cases h
          · rintro ⟨rfl, h⟩
            omega
        · simp only [Except.ok.injEq]
          constructor
          · rintro rfl
            exact ⟨rfl, by omega⟩
          · rintro ⟨rfl, -⟩
            rfl

/-- Series of one dimension can be appended, unless they are too many. -/
theorem foldlM_append : ∀ {ws vs : List Series} {b : Builder}, b.Holds d vs →
    (∀ w ∈ ws, (0 < w.length → w.dimension = d) ∧ c.Allows w.length) →
    b.length + Routing.total (ws.map Series.length) ≤ c.limit →
    ∃ b', ws.foldlM c.append b = .ok b'
  | [], _, b, _, _, _ => ⟨b, rfl⟩
  | w :: ws, vs, b, h, hws, hlimit => by
    obtain ⟨hw, hallows⟩ := hws w List.mem_cons_self
    have hrest := fun u (hu : u ∈ ws) => hws u (List.mem_cons_of_mem _ hu)
    rw [List.map_cons, Routing.total_cons] at hlimit
    by_cases hzero : w.length = 0
    · obtain ⟨b', hb'⟩ := foldlM_append h hrest (by omega)
      refine ⟨b', ?_⟩
      rw [List.foldlM_cons, append_eq_ok.mpr ⟨hallows, .inl ⟨hzero, rfl⟩⟩]
      exact hb'
    · have hpos : 0 < w.length := Nat.pos_of_ne_zero hzero
      obtain ⟨b', hb'⟩ := foldlM_append (h.snoc (v := w)) hrest (by simp only; omega)
      refine ⟨b', ?_⟩
      rw [List.foldlM_cons, append_eq_ok.mpr
        ⟨hallows, .inr ⟨hpos, h.push (hw hpos), by simp only; omega⟩⟩]
      exact hb'

/-- If appending succeeds, what was appended was allowed and what has elements could be pushed. -/
theorem push_of_foldlM_append : ∀ {ws : List Series} {b b' : Builder},
    ws.foldlM c.append b = .ok b' →
    (ws.filter (0 < ·.length)).foldlM Builder.push b = .ok b' ∧ ∀ w ∈ ws, c.Allows w.length
  | [], b, b', h => ⟨pure_eq_ok.mpr (pure_eq_ok.mp h), by simp⟩
  | w :: ws, b, b', h => by
    rw [List.foldlM_cons] at h
    obtain ⟨b₁, happend, h⟩ := bind_eq_ok.mp h
    obtain ⟨hallows, hpush⟩ := append_eq_ok.mp happend
    obtain ⟨hrest, hallow⟩ := push_of_foldlM_append h
    refine ⟨?_, List.forall_mem_cons.mpr ⟨hallows, hallow⟩⟩
    rcases hpush with ⟨hzero, rfl⟩ | ⟨hpos, hpush, -⟩
    · rw [List.filter_cons_of_neg (by simp [hzero])]
      exact hrest
    · rw [List.filter_cons_of_pos (by simpa using hpos), List.foldlM_cons, hpush]
      exact hrest

/-- What could be appended did not pass the limit. -/
theorem length_le_of_foldlM_append : ∀ {ws : List Series} {b b' : Builder},
    ws.foldlM c.append b = .ok b' → b.length ≤ c.limit → b'.length ≤ c.limit
  | [], b, b', h, hb => by
    obtain rfl := pure_eq_ok.mp h
    exact hb
  | w :: ws, b, b', h, hb => by
    rw [List.foldlM_cons] at h
    obtain ⟨b₁, happend, hrest⟩ := bind_eq_ok.mp h
    obtain ⟨-, ⟨-, rfl⟩ | ⟨-, -, hb₁⟩⟩ := append_eq_ok.mp happend
    · exact length_le_of_foldlM_append hrest hb
    · exact length_le_of_foldlM_append hrest hb₁

end Comprehension.Rules

end VectorScript
