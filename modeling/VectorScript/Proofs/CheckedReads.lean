import VectorScript.Proofs.KernelLaws

/-!
# Checked reads

Element-wise operations read their operands at places of a larger shape.  Here the same operations
are written so that a read has no result where the operand has no value, instead of one that is not
a number.  On series whose channels are all as long as the series they have the same results, so
every place they read exists.

* `Series.broadcastAt?`: a read that may find nothing.
* `Series.zipMap?`, `Meaning.vectorOf?`, `Series.scatter?`, and the same for the kernels that read
  two arguments: the operations with such reads.
* `Builtin.ReadsWithin`: what a builtin reads of its arguments exists.
-/

namespace VectorScript

/-- If every step finds something, all of it is found. -/
theorem mapM_eq_some_map {α β : Type} {f : α → Option β} {g : α → β} :
    ∀ {xs : List α}, (∀ x ∈ xs, f x = some (g x)) → xs.mapM f = some (xs.map g)
  | [], _ => rfl
  | x :: xs, h => by
    rw [List.mapM_cons, h x List.mem_cons_self,
      mapM_eq_some_map fun y hy => h y (List.mem_cons_of_mem _ hy)]
    rfl

/-- After something that may fail comes something that may find nothing. -/
def findAfter {ε α β : Type} (x : Except ε α) (f : α → Option β) : Option (Except ε β) :=
  match x with
  | .error e => some (.error e)
  | .ok a => .ok <$> f a

theorem findAfter_eq {ε α β : Type} {x : Except ε α} {f : α → Option β} {g : α → β}
    (h : ∀ a, x = .ok a → f a = some (g a)) :
    findAfter x f = some (x >>= fun a => .ok (g a)) := by
  cases x with
  | error e => rfl
  | ok a =>
    rw [findAfter, h a rfl]
    rfl

namespace Series

/-! ### One place -/

/-- The value at an element and a channel of a larger shape, if the series has a value there. -/
def broadcastAt? (v : Series) (element channel : Nat) : Option Float32 :=
  let (i, c) := v.broadcastPlace element channel
  v.get? i c

/-- A series has a value for an element and a channel of a larger shape. -/
structure Covers (v : Series) (element channel : Nat) : Prop where
  element : v.length = 1 ∨ element < v.length
  channel : v.dimension = 1 ∨ channel < v.dimension

theorem get?_eq_some {v : Series} (hv : v.Regular) {i c : Nat} (hi : i < v.length)
    (hc : c < v.dimension) : v.get? i c = some (v.read i c) := by
  have hsize := hv.size_channel hc
  have hget : v.channels[c]? = some (v.channel c) := by
    rw [List.getElem?_eq_getElem hc, channel, List.getD_eq_getElem _ _ hc]
  rw [get?, hget, read, readAt_natCast, Array.getD_eq_getD_getElem?]
  simp [hsize, hi]

theorem broadcastAt?_eq {v : Series} (hv : v.Regular) {i c : Nat} (h : v.Covers i c) :
    v.broadcastAt? i c = some (v.broadcastAt i c) := by
  have hi : (if v.length = 1 then 0 else i) < v.length := by
    have := h.element
    split_ifs <;> omega
  have hc : (if v.dimension = 1 then 0 else c) < v.dimension := by
    have := h.channel
    split_ifs <;> omega
  rw [broadcastAt_eq_read]
  exact get?_eq_some hv hi hc

/-- A broadcast operand has a value for every place of the result. -/
theorem covers_of_broadcast {operands : List Series} {s : Shape}
    (hs : Shape.broadcast (operands.map shape) = .ok s) {v : Series} (hv : v ∈ operands) {i c : Nat}
    (hi : i < s.length) (hc : c < s.dimension) : v.Covers i c := by
  obtain ⟨hlength, hdimension⟩ := Shape.le_of_broadcast hs (List.mem_map_of_mem hv)
  refine ⟨hlength.imp_right fun hle => ?_, hdimension.imp_right fun heq => ?_⟩
  · exact Nat.lt_of_lt_of_le hi hle
  · show c < v.shape.dimension
    omega

/-! ### Channels -/

/-- A channel whose values are found one by one. -/
def tabulate? (n : Nat) (f : Nat → Option Float32) : Option (Array Float32) :=
  List.toArray <$> (List.range n).mapM f

theorem tabulate?_eq {n : Nat} {f : Nat → Option Float32} {g : Nat → Float32}
    (h : ∀ i < n, f i = some (g i)) :
    tabulate? n f = some (Array.ofFn fun i : Fin n => g i) := by
  rw [tabulate?, mapM_eq_some_map fun i hi => h i (List.mem_range.mp hi)]
  refine congrArg some (Array.ext (by simp) fun i _ _ => ?_)
  simp

/-- All values that a broadcast operand gives to a channel of the result exist. -/
theorem tabulate?_broadcastAt? {operands : List Series} {s : Shape}
    (hs : Shape.broadcast (operands.map shape) = .ok s) {v : Series} (hv : v ∈ operands)
    (hregular : v.Regular) {c : Nat} (hc : c < s.dimension) :
    (tabulate? s.length fun i => v.broadcastAt? i c) =
      some (Array.ofFn fun i : Fin s.length => v.broadcastAt i c) :=
  tabulate?_eq (g := fun i => v.broadcastAt i c) fun _ hi =>
    broadcastAt?_eq hregular (covers_of_broadcast hs hv hi hc)

/-! ### Operations -/

/-- `zipMap` with checked reads. -/
def zipMap? (operands : List Series) (f : List Float32 → Float32) :
    Option (Except DimensionMismatch Series) :=
  findAfter (Shape.broadcast (operands.map shape)) fun s => do
    let channels ← (List.range s.dimension).mapM fun c =>
      tabulate? s.length fun i => f <$> operands.mapM (·.broadcastAt? i c)
    return ⟨s.length, channels⟩

theorem zipMap?_eq {operands : List Series} (h : ∀ v ∈ operands, v.Regular)
    (f : List Float32 → Float32) : zipMap? operands f = some (zipMap operands f) := by
  refine findAfter_eq fun s hs => ?_
  rw [mapM_eq_some_map (g := fun c =>
    Array.ofFn fun i : Fin s.length => f (operands.map (·.broadcastAt i c)))]
  · rfl
  intro c hc
  refine tabulate?_eq (g := fun i => f (operands.map (·.broadcastAt i c))) fun i hi => ?_
  rw [mapM_eq_some_map fun v hv =>
    broadcastAt?_eq (h v hv) (covers_of_broadcast hs hv hi (List.mem_range.mp hc))]
  rfl

/-- `scatter` with checked reads. -/
def scatter? (v : Series) (indices : List Int) (length : Nat) : Option Series :=
  if v.length = indices.length ∧ indices.all (inRange length) then some v
  else do
    let slots := ranks length 0 indices
    let channels ← (List.range v.dimension).mapM fun c =>
      List.toArray <$> slots.mapM fun
        | some k => v.broadcastAt? k c
        | none => some Scalar.nan
    return ⟨indices.length, channels⟩

/-- Ranks count the indices in range. -/
theorem lt_of_mem_ranks {n r : Nat} : ∀ {S : List Int} {k : Nat}, some r ∈ ranks n k S →
    r < k + (S.filter (inRange n)).length
  | i :: rest, k, h => by
    by_cases hi : inRange n i
    · rw [ranks, if_pos hi] at h
      rw [List.filter_cons_of_pos hi, List.length_cons]
      rcases List.mem_cons.mp h with heq | h
      · cases heq
        omega
      · have := lt_of_mem_ranks h
        omega
    · rw [ranks, if_neg hi] at h
      rw [List.filter_cons_of_neg hi]
      rcases List.mem_cons.mp h with heq | h
      · cases heq
      · exact lt_of_mem_ranks h

/-- What was computed for the indices in range has an element for each of them, or one for all. -/
theorem scatter?_eq {v : Series} (hv : v.Regular) {S : List Int} {n : Nat}
    (hlength : v.length = 1 ∨ v.length = (S.filter (inRange n)).length) :
    v.scatter? S n = some (v.scatter S n) := by
  unfold scatter? scatter
  split_ifs with hall
  · rfl
  dsimp only
  rw [mapM_eq_some_map (g := fun c => ((ranks n 0 S).map fun
    | some k => v.broadcastAt k c
    | none => Scalar.nan).toArray)]
  · rfl
  intro c hc
  rw [mapM_eq_some_map (g := fun
    | some k => v.broadcastAt k c
    | none => Scalar.nan)]
  · rfl
  intro slot hslot
  cases slot with
  | none => rfl
  | some k =>
    have hk := lt_of_mem_ranks hslot
    exact broadcastAt?_eq hv ⟨by omega, .inr (List.mem_range.mp hc)⟩

theorem length_ranks (n : Nat) : ∀ (S : List Int) (k : Nat), (ranks n k S).length = S.length
  | [], _ => rfl
  | i :: rest, k => by
    rw [ranks]
    split_ifs <;> simp [length_ranks n rest]

theorem length_scatter (v : Series) (S : List Int) (n : Nat) :
    (v.scatter S n).length = S.length := by
  unfold scatter
  split_ifs with hall
  · exact hall.1
  · rfl

theorem formed_scatter {v : Series} (hv : v.Formed) (S : List Int) (n : Nat) :
    (v.scatter S n).Formed := by
  unfold scatter
  split_ifs with hall
  · exact hv
  · refine ⟨fun c hc => ?_, ?_⟩
    · obtain ⟨k, -, rfl⟩ := List.mem_map.mp hc
      simp [length_ranks]
    · exact ⟨by simpa [shape, dimension] using hv.shape.dimension_pos,
        by simpa [shape, dimension] using hv.shape.dimension_le⟩

end Series

/-- `vectorOf` with checked reads. -/
def Meaning.vectorOf? (values : List Series) : Option (Except EvalError.Cause Series) :=
  findAfter (vectorShape (values.map Series.shape)) fun s => do
    let channels ← values.mapM fun v => Series.tabulate? s.length fun i => v.broadcastAt? i 0
    return ⟨s.length, channels⟩

theorem Meaning.vectorOf?_eq {values : List Series} (h : ∀ v ∈ values, v.Regular) :
    vectorOf? values = some (vectorOf values) := by
  refine findAfter_eq fun s hs => ?_
  obtain ⟨hones, rfl⟩ := vectorShape_eq_ok.mp hs
  rw [mapM_eq_some_map (g := fun v => Array.ofFn
    fun i : Fin (Shape.commonLength (values.map Series.shape)) => v.broadcastAt i 0)]
  · rfl
  intro v hv
  have hmem : v.shape ∈ values.map Series.shape := List.mem_map_of_mem hv
  refine Series.tabulate?_eq (g := fun i => v.broadcastAt i 0) fun i hi => ?_
  refine Series.broadcastAt?_eq (h v hv) ⟨?_, .inl (hones _ hmem)⟩
  exact (Shape.commonLength_le_of_mem hmem).imp_right fun hle => Nat.lt_of_lt_of_le hi hle

/-! ### Kernels -/

namespace Builtin

variable {vs : List Series}

/-- `paired` with checked reads. -/
def Statistics.paired? (name : String) (f : Array Float32 → Array Float32 → Float32) :
    List Series → Option (Except EvalError.Cause Series)
  | [a, b] =>
    findAfter (broadcastArgs name [a.shape, b.shape]) fun s => do
      let samples (v : Series) (c : Nat) : Option (Array Float32) :=
        Series.tabulate? s.length fun i => v.broadcastAt? i c
      let values ← (List.range s.dimension).mapM fun c => do
        return f (← samples a c) (← samples b c)
      return .vector values
  | _ => some (.error (.invalidArgument name "malformed input"))

theorem Statistics.paired?_eq (h : ∀ v ∈ vs, v.Regular) (name : String)
    (f : Array Float32 → Array Float32 → Float32) :
    paired? name f vs = some (paired name f vs) := by
  rcases vs with _ | ⟨a, _ | ⟨b, _ | ⟨c, rest⟩⟩⟩
  · rfl
  · rfl
  · refine findAfter_eq fun s hs => ?_
    have hbroadcast : Shape.broadcast ([a, b].map Series.shape) = .ok s := mapError_eq_ok.mp hs
    dsimp only
    rw [mapM_eq_some_map (g := fun c => f (Array.ofFn fun i : Fin s.length => a.broadcastAt i c)
      (Array.ofFn fun i : Fin s.length => b.broadcastAt i c))]
    · rfl
    intro c hc
    have hc : c < s.dimension := List.mem_range.mp hc
    rw [Series.tabulate?_broadcastAt? hbroadcast (by simp) (h a (by simp)) hc,
      Series.tabulate?_broadcastAt? hbroadcast (by simp) (h b (by simp)) hc]
    rfl
  · rfl

/-- `pairwise` with checked reads. -/
def Geometry.pairwise? (name : String) (f : List Float32 → List Float32 → Float32) :
    List Series → Option (Except EvalError.Cause Series)
  | [a, b] =>
    findAfter (pairShape name [a.shape, b.shape]) fun s => do
      let components (v : Series) (i : Nat) : Option (List Float32) :=
        (List.range s.dimension).mapM fun c => v.broadcastAt? i c
      let values ← Series.tabulate? s.length fun i => do
        return f (← components a i) (← components b i)
      return .ofValues values
  | _ => some (.error (.invalidArgument name "malformed input"))

theorem Geometry.pairwise?_eq (h : ∀ v ∈ vs, v.Regular) (name : String)
    (f : List Float32 → List Float32 → Float32) :
    pairwise? name f vs = some (pairwise name f vs) := by
  rcases vs with _ | ⟨a, _ | ⟨b, _ | ⟨c, rest⟩⟩⟩
  · rfl
  · rfl
  · refine findAfter_eq fun s hs => ?_
    have hbroadcast : Shape.broadcast ([a, b].map Series.shape) = .ok s := broadcast_of_pairShape hs
    have hcomponents : ∀ v ∈ [a, b], ∀ i < s.length,
        ((List.range s.dimension).mapM fun c => v.broadcastAt? i c) =
          some ((List.range s.dimension).map fun c => v.broadcastAt i c) := by
      intro v hv i hi
      refine mapM_eq_some_map fun c hc => Series.broadcastAt?_eq (h v hv) ?_
      exact Series.covers_of_broadcast hbroadcast hv hi (List.mem_range.mp hc)
    dsimp only
    rw [Series.tabulate?_eq
      (g := fun i => f ((List.range s.dimension).map fun c => a.broadcastAt i c)
        ((List.range s.dimension).map fun c => b.broadcastAt i c))]
    · rfl
    intro i hi
    rw [hcomponents a (by simp) i hi, hcomponents b (by simp) i hi]
    rfl
  · rfl

/-- `cross` with checked reads. -/
def Geometry.cross? : List Series → Option (Except EvalError.Cause Series)
  | [a, b] =>
    if a.dimension ≠ 3 ∨ b.dimension ≠ 3 then
      some (.error (.invalidArgument "cross" "expected a 3-dimensional vector"))
    else
      findAfter ((Shape.broadcast [a.shape, b.shape]).mapError fun _ => vectorsDiffer "cross")
        fun s => do
          let channels ← (List.range 3).mapM fun c =>
            let j := (c + 1) % 3
            let k := (c + 2) % 3
            Series.tabulate? s.length fun i => do
              return (← a.broadcastAt? i j) * (← b.broadcastAt? i k) -
                (← a.broadcastAt? i k) * (← b.broadcastAt? i j)
          return ⟨s.length, channels⟩
  | _ => some (.error (.invalidArgument "cross" "malformed input"))

theorem Geometry.cross?_eq (h : ∀ v ∈ vs, v.Regular) : cross? vs = some (cross vs) := by
  rcases vs with _ | ⟨a, _ | ⟨b, _ | ⟨c, rest⟩⟩⟩
  · rfl
  · rfl
  · unfold cross? cross
    by_cases hdim : a.dimension ≠ 3 ∨ b.dimension ≠ 3
    · simp only [if_pos hdim]
      rfl
    simp only [if_neg hdim]
    refine findAfter_eq fun s hs => ?_
    have hbroadcast : Shape.broadcast ([a, b].map Series.shape) = .ok s := mapError_eq_ok.mp hs
    -- both arguments have three components, whatever the broadcast shape is
    have hread : ∀ v ∈ [a, b], ∀ i < s.length, ∀ c,
        v.broadcastAt? i (c % 3) = some (v.broadcastAt i (c % 3)) := by
      intro v hv i hi c
      have hdimension : v.dimension = 3 := by
        simp only [ne_eq, not_or, not_not] at hdim
        simp only [List.mem_cons, List.not_mem_nil, or_false] at hv
        rcases hv with rfl | rfl
        · exact hdim.1
        · exact hdim.2
      obtain ⟨hlength, -⟩ := Shape.le_of_broadcast hbroadcast (List.mem_map_of_mem hv)
      refine Series.broadcastAt?_eq (h v hv) ⟨?_, .inr (by omega)⟩
      exact hlength.imp_right fun hle => Nat.lt_of_lt_of_le hi hle
    rw [mapM_eq_some_map (g := fun c => Array.ofFn fun i : Fin s.length =>
      a.broadcastAt i ((c + 1) % 3) * b.broadcastAt i ((c + 2) % 3) -
        a.broadcastAt i ((c + 2) % 3) * b.broadcastAt i ((c + 1) % 3))]
    · rfl
    intro c _
    refine Series.tabulate?_eq (g := fun i =>
      a.broadcastAt i ((c + 1) % 3) * b.broadcastAt i ((c + 2) % 3) -
        a.broadcastAt i ((c + 2) % 3) * b.broadcastAt i ((c + 1) % 3)) fun i hi => ?_
    rw [hread a (by simp) i hi, hread a (by simp) i hi, hread b (by simp) i hi,
      hread b (by simp) i hi]
    rfl
  · rfl

/-- `combineArgs` with checked reads. -/
def Arrangement.combineArgs? (name : String) (f : Float32 → Float32 → Float32)
    (args : List Series) : Option (Except EvalError.Cause Series) :=
  orInvalid name "arguments differ in dimension" <$> Series.zipMap? args (Statistics.combine f)

theorem Arrangement.combineArgs?_eq (h : ∀ v ∈ vs, v.Regular) (name : String)
    (f : Float32 → Float32 → Float32) :
    combineArgs? name f vs = some (combineArgs name f vs) := by
  rw [combineArgs?, Series.zipMap?_eq h]
  rfl

/-- A kernel of whole arguments with checked reads, by the name of its builtin.  The kernels of the
other builtins do not broadcast their arguments. -/
def checkedKernel (name : String) (kernel : List Series → Except EvalError.Cause Series) :
    List Series → Option (Except EvalError.Cause Series) :=
  match name with
  | "corr" => Statistics.paired? "corr" Statistics.correlation
  | "cov" => Statistics.paired? "cov" Statistics.covariance
  | "max" => Arrangement.combineArgs? "max" Scalar.larger
  | "min" => Arrangement.combineArgs? "min" Scalar.smaller
  | "cross" => Geometry.cross?
  | "dot" => Geometry.pairwise? "dot" Geometry.dot
  | "dist" => Geometry.pairwise? "dist" Geometry.distance
  | "distsq" => Geometry.pairwise? "distsq" Geometry.squaredDistance
  | _ => fun args => some (kernel args)

/-- What a builtin reads of whole arguments exists. -/
def ReadsWithin (b : Builtin) : Prop :=
  match b.kernel with
  | .whole kernel _ =>
    ∀ vs, (∀ v ∈ vs, v.Regular) → checkedKernel b.name kernel vs = some (kernel vs)
  | _ => True

theorem readsWithin_elementwise : ∀ b ∈ elementwise, b.ReadsWithin := by
  simp only [elementwise, List.forall_mem_cons]
  simp [ReadsWithin, map, zip]

theorem readsWithin_statistics : ∀ b ∈ statistics, b.ReadsWithin := by
  simp only [statistics, List.forall_mem_cons]
  refine ⟨trivial, trivial, trivial, trivial, trivial, trivial, trivial, trivial, fun _ _ => rfl,
    fun _ _ => rfl, fun _ h => ?_, fun _ h => ?_, by simp⟩
  · exact Statistics.paired?_eq h _ _
  · exact Statistics.paired?_eq h _ _

theorem readsWithin_arrangement : ∀ b ∈ arrangement, b.ReadsWithin := by
  simp only [arrangement, List.forall_mem_cons]
  refine ⟨fun _ _ => rfl, fun _ _ => rfl, fun _ h => ?_, fun _ h => ?_, fun _ _ => rfl, by simp⟩
  · exact Arrangement.combineArgs?_eq h _ _
  · exact Arrangement.combineArgs?_eq h _ _

theorem readsWithin_geometry : ∀ b ∈ geometry, b.ReadsWithin := by
  simp only [geometry, List.forall_mem_cons]
  refine ⟨fun _ h => ?_, fun _ h => ?_, fun _ h => ?_, fun _ h => ?_, fun _ _ => rfl,
    fun _ _ => rfl, fun _ _ => rfl, by simp⟩
  · exact Geometry.cross?_eq h
  · exact Geometry.pairwise?_eq h _ _
  · exact Geometry.pairwise?_eq h _ _
  · exact Geometry.pairwise?_eq h _ _

end Builtin

theorem Catalog.readsWithin_of_lookup {name : String} {count : Nat} {b : Builtin}
    (h : lookup name count = .ok (some b)) : b.ReadsWithin := by
  obtain ⟨family, hfamily, hmem⟩ := (mem_of_lookup h).1
  exact forall_members Builtin.readsWithin_elementwise Builtin.readsWithin_statistics
    Builtin.readsWithin_arrangement Builtin.readsWithin_geometry hfamily b hmem

end VectorScript
