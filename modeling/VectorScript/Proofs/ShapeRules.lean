import VectorScript.Proofs.KernelErrors
import VectorScript.Proofs.KernelLaws
import VectorScript.Proofs.QuantilePositions

/-!
# Shape rules

A builtin that works on whole arguments checks them twice: its kernel on the values, and its rule on
their shapes alone.  On series of one to four channels, empty ones included, the two agree: the rule
gives the shape of the kernel's value, or the error of the kernel.  The exception are arguments on
which the kernel stops half way, although its rule accepts them: a quantile that is read past the
end of very many values, and more elements than an array can have
(`Catalog.rule_agrees_unless_stops`).
-/

namespace VectorScript

/-- How the outcomes of a kernel and of its rule fit together, where the kernel stops or not. -/
inductive Kernel.Fit (stops : Prop) :
    Except EvalError.Cause Series → Except EvalError.Cause Shape → Prop
  | value (v : Series) (h : ¬ stops) : Fit stops (.ok v) (.ok v.shape)
  | error (c : EvalError.Cause) : Fit stops (.error c) (.error c)
  | stop (fault : EvalError.Fault) (s : Shape) (h : stops) :
      Fit stops (.error (.fault fault)) (.ok s)

namespace Kernel.Fit

variable {stops : Prop} {value : Except EvalError.Cause Series}
  {shape : Except EvalError.Cause Shape}

theorem cast {shape' : Except EvalError.Cause Shape} (h : Fit stops value shape)
    (heq : shape = shape') : Fit stops value shape' :=
  heq ▸ h

theorem fault_iff (h : Fit stops value shape)
    (hrule : ∀ fault, shape ≠ .error (.fault fault)) :
    (∃ fault, value = .error (.fault fault)) ↔ (∃ s, shape = .ok s) ∧ stops := by
  cases h with
  | value v h => simp [h]
  | error c =>
    have hc : ∀ fault, c ≠ .fault fault := fun fault hc => hrule fault (by rw [hc])
    simp [hc]
  | stop fault s h => simp [h]

theorem eq_map (h : Fit stops value shape) (hvalue : ∀ fault, value ≠ .error (.fault fault)) :
    shape = value.map Series.shape := by
  cases h with
  | value | error => rfl
  | stop fault s h => exact absurd rfl (hvalue fault)

end Kernel.Fit

/-- The rule answers to shapes what the kernel answers to series of these shapes, unless the kernel
stops. -/
def Kernel.Agrees (accepts : Nat → Bool) (stops : List Series → Prop)
    (f : List Series → Except EvalError.Cause Series)
    (rule : List Shape → Except EvalError.Cause Shape) : Prop :=
  ∀ vs : List Series, accepts vs.length → (∀ u ∈ vs, u.Formed) →
    Kernel.Fit (stops vs) (f vs) (rule (vs.map Series.shape))

/-- The rule tells the shape of the kernel's value, or the error of the kernel. -/
def Kernel.Tells (accepts : Nat → Bool) (f : List Series → Except EvalError.Cause Series)
    (rule : List Shape → Except EvalError.Cause Shape) : Prop :=
  ∀ vs : List Series, accepts vs.length → (∀ u ∈ vs, u.Formed) →
    rule (vs.map Series.shape) = (f vs).map Series.shape

theorem Kernel.Tells.agrees {accepts : Nat → Bool} {stops : List Series → Prop}
    {f : List Series → Except EvalError.Cause Series}
    {rule : List Shape → Except EvalError.Cause Shape} (h : Kernel.Tells accepts f rule)
    (hstops : ∀ vs, ¬ stops vs) : Kernel.Agrees accepts stops f rule := by
  intro vs hn hvs
  rw [h vs hn hvs]
  cases f vs with
  | ok v => exact .value v (hstops vs)
  | error c => exact .error c

namespace Builtin

/-- The arguments on which quantiles stop: one of them would be read past the end. -/
def Statistics.QuantileStops (args : List Series) : Prop :=
  ∃ values q, args = [values, q] ∧ ∃ x ∈ q.channel 0, PastEnd values.length x

/-- The arguments on which joining stops: together they have too many elements. -/
def Arrangement.JoinStops (args : List Series) : Prop :=
  maxLength < (args.map Series.length).sum

/-- The arguments on which interleaving stops: it would take too many elements from them. -/
def Arrangement.InterleaveStops (args : List Series) : Prop :=
  maxLength < rows (args.map Series.length) * args.length

/-- The arguments on which the kernel of a builtin stops, if it does not reject them. -/
def Stops (b : Builtin) (args : List Series) : Prop :=
  b.name = "quantile" ∧ Statistics.QuantileStops args ∨
  b.name = "join" ∧ Arrangement.JoinStops args ∨
  b.name = "interleave" ∧ Arrangement.InterleaveStops args

/-- The rule of a builtin on whole arguments agrees with its kernel. -/
def Agrees (b : Builtin) : Prop :=
  match b.kernel with
  | .whole f rule => Kernel.Agrees b.arity.accepts b.Stops f rule
  | _ => True

end Builtin

theorem Routing.total_eq_sum : ∀ lengths : List Nat, total lengths = lengths.sum
  | [] => rfl
  | n :: rest => by rw [total_cons, List.sum_cons, total_eq_sum rest]

/-- One to four channels of one length make a series. -/
theorem Series.exists_ofChannels? {channels : List (Array Float32)} {n : Nat}
    (hpos : 0 < channels.length) (hle : channels.length ≤ 4) (hsize : ∀ c ∈ channels, c.size = n) :
    ∃ v, ofChannels? channels = some v ∧ v.shape = ⟨n, channels.length⟩ := by
  obtain ⟨c, cs, rfl⟩ := List.exists_cons_of_length_pos hpos
  have hall : cs.all (·.size = c.size) := by
    simp only [List.all_eq_true, decide_eq_true_eq]
    intro c' hc'
    rw [hsize c' (List.mem_cons_of_mem _ hc'), hsize c List.mem_cons_self]
  have hmake : ofChannels? (c :: cs) = some ⟨c.size, c :: cs⟩ := by
    rw [ofChannels?, if_pos ⟨by simpa using hle, hall⟩]
  exact ⟨_, hmake, (shape_of_ofChannels? hsize hmake).2⟩

namespace Builtin

/-! ### Statistics -/

namespace Statistics

theorem tells_count : Kernel.Tells (Arity.exactly 1).accepts count fun _ => .ok .scalar := by
  intro vs hn _
  obtain ⟨u, rfl⟩ := List.length_eq_one_iff.mp (by simpa [Arity.accepts] using hn)
  rfl

/-- Quantiles that are not found stop at a position past the end. -/
theorem failsOnly_quantiles_past_end {qs values : Array Float32} {n : Nat}
    (hsize : values.size = n) :
    FailsOnly (fun c => (∃ fault, c = .fault fault) ∧ ∃ x ∈ qs, PastEnd n x)
      (quantiles qs values) := by
  refine .bind (.mapM fun x hx => ?_) fun _ => .ok _
  have hlength : (sorted values).size = n := (size_sorted values).trans hsize
  rcases interpolate_cases (sorted values) x with ⟨hpast, fault, h⟩ | ⟨-, y, h⟩
  · rw [h]
    exact .error ⟨⟨fault, rfl⟩, x, Array.mem_toList_iff.mp hx, hlength ▸ hpast⟩
  · rw [h]
    exact .ok y

/-- If all quantiles are found, none was read past the end. -/
theorem not_pastEnd_of_quantiles {qs values result : Array Float32}
    (h : quantiles qs values = .ok result) {x : Float32} (hx : x ∈ qs) :
    ¬ PastEnd values.size x := by
  obtain ⟨xs, hxs, -⟩ := bind_eq_ok.mp h
  obtain ⟨y, -, hy⟩ := mapM_eq_ok_map.mp hxs
  rcases interpolate_cases (sorted values) x with ⟨-, fault, hfault⟩ | ⟨hnot, -⟩
  · rw [hy x (Array.mem_toList_iff.mpr hx)] at hfault
    cases hfault
  · rwa [size_sorted] at hnot

theorem agrees_quantile :
    Kernel.Agrees (Arity.exactly 2).accepts QuantileStops quantile quantileShape := by
  intro vs hn hvs
  obtain ⟨u, q, rfl⟩ := List.length_eq_two.mp (by simpa [Arity.accepts] using hn)
  have hu := hvs u (by simp)
  have hq := hvs q (by simp)
  simp only [quantile, quantileShape, List.map_cons, List.map_nil]
  by_cases hdim : q.dimension = 1
  · have hdim' : q.shape.dimension = 1 := hdim
    rw [if_neg (not_not.mpr hdim), if_neg (not_not.mpr hdim')]
    cases hchannels : u.channels.mapM (quantiles (q.channel 0)) with
    | error c =>
      obtain ⟨⟨fault, rfl⟩, hpast⟩ := FailsOnly.mapM
        (fun values hvalues => failsOnly_quantiles_past_end (hu.regular values hvalues)) c hchannels
      exact .stop fault _ ⟨u, q, rfl, hpast⟩
    | ok channels =>
      have hcount := (mapM_eq_ok.mp hchannels).length_eq
      obtain ⟨v, hv, hshape⟩ := Series.exists_ofChannels? (hcount ▸ hu.shape.dimension_pos)
        (hcount ▸ hu.shape.dimension_le)
        (size_of_mapM_quantiles (hq.regular.size_channel (by omega)) hchannels)
      have hread : ¬ QuantileStops [u, q] := by
        rintro ⟨values, q', heq, x, hx, hpast⟩
        obtain ⟨rfl, rfl⟩ : u = values ∧ q = q' := by simpa using heq
        obtain ⟨c, hc⟩ := List.exists_mem_of_length_pos hu.shape.dimension_pos
        obtain ⟨results, -, hresults⟩ := mapM_eq_ok_map.mp hchannels
        exact not_pastEnd_of_quantiles (hresults c hc) hx (hu.regular c hc ▸ hpast)
      have hvalue := Kernel.Fit.value v hread
      rw [hshape, ← hcount] at hvalue
      simp only [ok_bind, hv]
      exact hvalue
  · have hdim' : q.shape.dimension ≠ 1 := hdim
    rw [if_pos hdim, if_pos hdim']
    exact .error _

theorem tells_paired (name : String) (f : Array Float32 → Array Float32 → Float32) :
    Kernel.Tells (Arity.exactly 2).accepts (paired name f) (pairedShape name) := by
  intro vs hn _
  obtain ⟨a, b, rfl⟩ := List.length_eq_two.mp (by simpa [Arity.accepts] using hn)
  simp only [paired, pairedShape, List.map_cons, List.map_nil]
  cases broadcastArgs name [a.shape, b.shape] with
  | error e => rfl
  | ok s => simp [pure, Except.pure, Except.map]

end Statistics

/-! ### Arrangement -/

namespace Arrangement

/-- Arguments for which the rule finds one dimension are put together. -/
theorem foldlM_push_of_uniformDimension {u : Series} {vs : List Series} {d : Nat}
    (hd : uniformDimension "join" ((u :: vs).map Series.shape) = .ok d) :
    ∃ b, (u :: vs).foldlM Builder.push .empty = .ok b ∧ b.dimension = d ∧
      b.length = (((u :: vs).map Series.shape).map Shape.length).foldl (· + ·) 0 := by
  obtain ⟨hu, hrest⟩ := uniformDimension_eq_ok.mp hd
  have hdim : ∀ w ∈ u :: vs, w.dimension = d :=
    List.forall_mem_cons.mpr ⟨hu, fun w hw => hrest w.shape (List.mem_map_of_mem hw)⟩
  obtain ⟨b, hb, hholds, hbdim⟩ := (Builder.holds_empty d).foldlM_push hdim
  refine ⟨b, hb, hbdim (by simp), ?_⟩
  rw [hholds.length, List.nil_append, List.map_map]
  rfl

/-- Where the rule finds more than one dimension, the arguments are not put together. -/
theorem foldlM_push_of_uniformDimension_error {u : Series} {vs : List Series}
    {e : EvalError.Cause} (hpos : ∀ w ∈ u :: vs, 0 < w.dimension)
    (he : uniformDimension "join" ((u :: vs).map Series.shape) = .error e) :
    orInvalid "join" "arguments differ in dimension" ((u :: vs).foldlM Builder.push .empty) =
      .error e := by
  cases hb : (u :: vs).foldlM Builder.push .empty with
  | error m =>
    simp only [List.map_cons, uniformDimension] at he
    split_ifs at he
    obtain rfl := Except.error.inj he
    rfl
  | ok b =>
    obtain ⟨d, -, hdim⟩ := Builder.uniform_of_foldlM_push_empty (by simp) hb hpos
    have huniform : uniformDimension "join" ((u :: vs).map Series.shape) = .ok d := by
      refine uniformDimension_eq_ok.mpr ⟨hdim u List.mem_cons_self, fun t ht => ?_⟩
      obtain ⟨w, hw, rfl⟩ := List.mem_map.mp ht
      exact hdim w (List.mem_cons_of_mem _ hw)
    rw [huniform] at he
    cases he

theorem agrees_join : Kernel.Agrees (Arity.atLeast 1).accepts JoinStops join joinShape := by
  intro vs hn hvs
  obtain ⟨u, vs, rfl⟩ := List.exists_cons_of_length_pos
    (Nat.lt_of_lt_of_le Nat.one_pos (by simpa [Arity.accepts] using hn))
  have hpos : ∀ w ∈ u :: vs, 0 < w.dimension := fun w hw => (hvs w hw).shape.dimension_pos
  simp only [join, joinShape]
  cases hd : uniformDimension "join" ((u :: vs).map Series.shape) with
  | error e =>
    rw [foldlM_push_of_uniformDimension_error hpos hd]
    exact .error e
  | ok d =>
    obtain ⟨b, hb, rfl, hlength⟩ := foldlM_push_of_uniformDimension hd
    have hdim : b.dimension ≠ 0 := by
      have hu := (uniformDimension_eq_ok.mp hd).1
      have hu' : 0 < u.shape.dimension := hpos u List.mem_cons_self
      omega
    have hshape : b.finish.shape = ⟨b.length, b.dimension⟩ := by
      simp [Builder.finish, hdim, Series.shape, Series.dimension]
    have hstops : JoinStops (u :: vs) ↔ maxLength < b.length := by
      rw [JoinStops, hlength, List.map_map, List.sum_eq_foldl]
      rfl
    rw [hb, ← hlength]
    simp only [orInvalid, Except.mapError, ok_bind, Builder.build, Builder.reserve]
    split_ifs with h
    · exact .stop .capacity _ (hstops.mpr h)
    · have hvalue := Kernel.Fit.value b.finish fun hstop => h (hstops.mp hstop)
      rwa [hshape] at hvalue

theorem agrees_interleave :
    Kernel.Agrees (Arity.atLeast 1).accepts InterleaveStops interleave interleaveShape := by
  intro vs _ _
  have hlengths : (vs.map Series.shape).map Shape.length = vs.map Series.length := by
    rw [List.map_map]
    rfl
  simp only [interleave, interleaveShape, hlengths, List.length_map]
  cases uniformDimension "interleave" (vs.map Series.shape) with
  | error e => exact .error e
  | ok d =>
    simp only [ok_bind, Builder.reserve]
    split_ifs with h
    · exact .stop .capacity _ h
    · rw [ok_bind]
      refine .cast (.value _ h) ?_
      simp [Series.shape, Series.dimension, pure, Except.pure]

theorem tells_combineArgs (accepts : Nat → Bool) (name : String)
    (f : Float32 → Float32 → Float32) :
    Kernel.Tells accepts (combineArgs name f) (broadcastArgs name) := by
  intro vs _ _
  simp only [combineArgs, broadcastArgs, orInvalid, Series.zipMap]
  cases Shape.broadcast (vs.map Series.shape) with
  | error e => rfl
  | ok s => simp [pure, Except.pure, Except.map, Except.mapError, Series.shape, Series.dimension]

theorem tells_sort : Kernel.Tells (Arity.between 1 2).accepts sort sortShape := by
  intro vs hn hvs
  -- one argument is sorted by its own values, of two the second is the key
  rcases vs with _ | ⟨u, _ | ⟨key, _ | ⟨w, rest⟩⟩⟩
  · rfl
  · have hu := hvs u List.mem_cons_self
    have hcount : (u.channels.map Statistics.sorted).length = u.dimension := List.length_map _
    have hsize : ∀ c ∈ u.channels.map Statistics.sorted, c.size = u.length := by
      simpa [Statistics.size_sorted, Series.Regular] using hu.regular
    obtain ⟨v, hv, hshape⟩ := Series.exists_ofChannels? (hcount ▸ hu.shape.dimension_pos)
      (hcount ▸ hu.shape.dimension_le) hsize
    simp only [sort, sortShape, List.map_cons, List.map_nil, hv, Except.map, hshape, hcount]
    rfl
  · simp only [sort, sortShape, List.map_cons, List.map_nil]
    by_cases hdim : key.dimension = 1
    · have hdim' : key.shape.dimension = 1 := hdim
      rw [if_neg (not_not.mpr hdim), if_neg (not_not.mpr hdim'), Except.map, shape_sortBy]
      rfl
    · simp [Series.shape, hdim, Except.map]
  · rfl

end Arrangement

/-! ### Geometry -/

namespace Geometry

theorem tells_pairwise (name : String) (f : List Float32 → List Float32 → Float32) :
    Kernel.Tells (Arity.exactly 2).accepts (pairwise name f) (pairwiseShape name) := by
  intro vs hn _
  obtain ⟨a, b, rfl⟩ := List.length_eq_two.mp (by simpa [Arity.accepts] using hn)
  simp only [pairwise, pairwiseShape, List.map_cons, List.map_nil]
  cases pairShape name [a.shape, b.shape] with
  | error e => rfl
  | ok s => simp [pure, Except.pure, Except.map]

theorem tells_cross : Kernel.Tells (Arity.exactly 2).accepts cross crossShape := by
  intro vs hn _
  obtain ⟨a, b, rfl⟩ := List.length_eq_two.mp (by simpa [Arity.accepts] using hn)
  simp only [cross, crossShape, List.map_cons, List.map_nil]
  have hdim : [a.shape, b.shape].any (·.dimension ≠ 3) =
      decide (a.dimension ≠ 3 ∨ b.dimension ≠ 3) := by
    simp [Series.shape]
  rw [hdim]
  by_cases hthree : a.dimension ≠ 3 ∨ b.dimension ≠ 3
  · rw [if_pos (by simpa using hthree), if_pos hthree]
    rfl
  · rw [if_neg (by simpa using hthree), if_neg hthree]
    cases Shape.broadcast [a.shape, b.shape] with
    | error e => rfl
    | ok s => simp [pure, Except.pure, Except.map, Except.mapError, Series.shape, Series.dimension]

theorem tells_single (name : String) {f : Series → Series} {g : Shape → Shape}
    (hf : ∀ v, v.Regular → (f v).shape = g v.shape) :
    Kernel.Tells (Arity.exactly 1).accepts (single name f) (singleShape name g) := by
  intro vs hn hvs
  obtain ⟨u, rfl⟩ := List.length_eq_one_iff.mp (by simpa [Arity.accepts] using hn)
  simp only [single, singleShape, List.map_cons, List.map_nil, Except.map,
    hf u (hvs u List.mem_cons_self).regular]

end Geometry

/-! ### The catalog -/

theorem not_stops {b : Builtin} (h : b.name ∉ ["quantile", "join", "interleave"])
    (args : List Series) : ¬ b.Stops args := by
  rintro (⟨hname, -⟩ | ⟨hname, -⟩ | ⟨hname, -⟩) <;> simp [hname] at h

/-- A builtin whose rule tells the outcome of its kernel, and which never stops. -/
theorem Agrees.of_tells {name : String} {arity : Arity}
    {f : List Series → Except EvalError.Cause Series}
    {rule : List Shape → Except EvalError.Cause Shape} (h : Kernel.Tells arity.accepts f rule)
    (hname : name ∉ ["quantile", "join", "interleave"]) : (whole name arity f rule).Agrees :=
  h.agrees (not_stops hname)

/-- A builtin that agrees with its rule unless it stops. -/
theorem Agrees.of_agrees {name : String} {arity : Arity} {stops : List Series → Prop}
    {f : List Series → Except EvalError.Cause Series}
    {rule : List Shape → Except EvalError.Cause Shape}
    (h : Kernel.Agrees arity.accepts stops f rule)
    (hstops : ∀ args, (whole name arity f rule).Stops args ↔ stops args) :
    (whole name arity f rule).Agrees := by
  intro vs hn hvs
  rw [propext (hstops vs)]
  exact h vs hn hvs

theorem agrees_elementwise : ∀ b ∈ elementwise, b.Agrees := by
  simp [elementwise, map, zip, Agrees]

theorem agrees_statistics : ∀ b ∈ statistics, b.Agrees := by
  simp only [statistics, List.forall_mem_cons]
  exact ⟨trivial, trivial, trivial, trivial, trivial, trivial, trivial, trivial,
    .of_tells Statistics.tells_count (by decide),
    .of_agrees Statistics.agrees_quantile fun _ => by simp [Stops, whole],
    .of_tells (Statistics.tells_paired _ _) (by decide),
    .of_tells (Statistics.tells_paired _ _) (by decide), by simp⟩

theorem agrees_arrangement : ∀ b ∈ arrangement, b.Agrees := by
  simp only [arrangement, List.forall_mem_cons]
  exact ⟨.of_agrees Arrangement.agrees_join fun _ => by simp [Stops, whole],
    .of_agrees Arrangement.agrees_interleave fun _ => by simp [Stops, whole],
    .of_tells (Arrangement.tells_combineArgs _ _ _) (by decide),
    .of_tells (Arrangement.tells_combineArgs _ _ _) (by decide),
    .of_tells Arrangement.tells_sort (by decide), by simp⟩

theorem agrees_geometry : ∀ b ∈ geometry, b.Agrees := by
  simp only [geometry, List.forall_mem_cons]
  refine ⟨.of_tells Geometry.tells_cross (by decide),
    .of_tells (Geometry.tells_pairwise _ _) (by decide),
    .of_tells (Geometry.tells_pairwise _ _) (by decide),
    .of_tells (Geometry.tells_pairwise _ _) (by decide),
    .of_tells (Geometry.tells_single _ fun v _ => ?_) (by decide),
    .of_tells (Geometry.tells_single _ fun v _ => ?_) (by decide),
    .of_tells (Geometry.tells_single _ fun v _ => ?_) (by decide), by simp⟩
  · rw [Series.shape_ofValues, Geometry.size_lengths]
    rfl
  · rw [Series.shape_ofValues, Geometry.size_squaredLengths]
    rfl
  · simp [Geometry.normalize, Series.shape, Series.dimension]

/-- Arguments that have not too many elements together stop no builtin but the quantile, and this
only if there are so many values that the last position rounds up. -/
theorem Stops.quantile {b : Builtin} {args : List Series} (h : b.Stops args)
    (hcount : (args.map Series.length).sum ≤ maxLength) :
    b.name = "quantile" ∧ ∃ values q, args = [values, q] ∧
      values.length - 1 < Scalar.keep24 (values.length - 1) ∧ 0x1000003 < values.length := by
  rcases h with ⟨hname, values, q, rfl, x, -, hpos, hzero, hone, hpast⟩ | ⟨-, hjoin⟩ | ⟨-, hrows⟩
  · have hvalues : values.length ≤ maxLength := by
      simp only [List.map_cons, List.sum_cons] at hcount
      omega
    have hround := hpast.trans (Statistics.above_position_le hvalues hzero hone)
    refine ⟨hname, values, q, rfl, by omega, ?_⟩
    by_contra hshort
    have hkeep := Scalar.keep24_le (n := values.length - 1) (by omega)
    omega
  · exact absurd hcount (Nat.not_le.mpr hjoin)
  · have hle := Arrangement.rows_mul_length_le (args.map Series.length)
    rw [List.length_map, Routing.total_eq_sum] at hle
    exact absurd (hle.trans hcount) (Nat.not_le.mpr hrows)

end Builtin

namespace Catalog

theorem agrees {family : Builtin.Family} (hfamily : family ∈ families) {b : Builtin}
    (hb : b ∈ family.members) : b.Agrees :=
  forall_members Builtin.agrees_elementwise Builtin.agrees_statistics Builtin.agrees_arrangement
    Builtin.agrees_geometry hfamily b hb

/-- For every builtin on whole arguments, and series of one to four channels in a number that it
accepts: the kernel stops exactly where its rule accepts the shapes and the arguments are those on
which it stops.  Everywhere else the rule succeeds on the shapes if and only if the kernel succeeds
on the series, with the shape of its value, and else both fail with one error, its name and its
reason included.  Arguments that have not too many elements together stop the quantile only, and
only where the last position rounds up. -/
theorem rule_agrees_unless_stops {family : Builtin.Family} (hfamily : family ∈ families)
    {b : Builtin} (hb : b ∈ family.members) {f : List Series → Except EvalError.Cause Series}
    {rule : List Shape → Except EvalError.Cause Shape} (hkernel : b.kernel = .whole f rule)
    (args : List Series) (hcount : b.arity.accepts args.length) (hargs : ∀ v ∈ args, v.Formed) :
    ((∃ fault, f args = .error (.fault fault)) ↔
      (∃ s, rule (args.map Series.shape) = .ok s) ∧ b.Stops args) ∧
    ((∀ fault, f args ≠ .error (.fault fault)) →
      rule (args.map Series.shape) = (f args).map Series.shape) ∧
    (b.Stops args → (args.map Series.length).sum ≤ maxLength →
      b.name = "quantile" ∧ ∃ values q, args = [values, q] ∧
        values.length - 1 < Scalar.keep24 (values.length - 1) ∧ 0x1000003 < values.length) := by
  have hagrees := agrees hfamily hb
  have hblames := blames hfamily hb
  rw [Builtin.Agrees, hkernel] at hagrees
  rw [hkernel] at hblames
  have hfit := hagrees args hcount hargs
  refine ⟨hfit.fault_iff fun fault h => ?_, hfit.eq_map, fun hstops hle => hstops.quantile hle⟩
  cases hblames.2 _ _ h

/-- A point and no points: they are joined, while a point and no numbers are not. -/
theorem rule_agrees_on_join :
    (∀ v ∈ [Series.vector [0, 1], ⟨0, [#[], #[]]⟩, .ofValues #[]], v.Formed) ∧
    Builtin.Arrangement.joinShape [⟨1, 2⟩, ⟨0, 2⟩] =
      (Builtin.Arrangement.join [.vector [0, 1], ⟨0, [#[], #[]]⟩]).map Series.shape ∧
    Builtin.Arrangement.joinShape [⟨1, 2⟩, ⟨0, 2⟩] = .ok ⟨1, 2⟩ ∧
    Builtin.Arrangement.joinShape [⟨1, 2⟩, ⟨0, 1⟩] =
      (Builtin.Arrangement.join [.vector [0, 1], .ofValues #[]]).map Series.shape ∧
    Builtin.Arrangement.joinShape [⟨1, 2⟩, ⟨0, 1⟩] =
      .error (.invalidArgument "join" "arguments differ in dimension") := by
  have hpoint : (Series.vector [0, 1]).Formed := ⟨Series.regular_vector _, by decide, by decide⟩
  have hpoints : Series.Formed ⟨0, [#[], #[]]⟩ := ⟨by simp [Series.Regular], by decide, by decide⟩
  have hnumbers : (Series.ofValues #[]).Formed := ⟨Series.regular_ofValues _, by decide, by decide⟩
  have hjoin : Builtin.whole "join" (.atLeast 1) Builtin.Arrangement.join
      Builtin.Arrangement.joinShape ∈ Builtin.arrangement := List.mem_cons_self
  have hfamily : ⟨"list", Builtin.arrangement⟩ ∈ families := by simp [families]
  refine ⟨by simp [hpoint, hpoints, hnumbers], ?_, rfl, ?_, rfl⟩
  · refine (rule_agrees_unless_stops hfamily hjoin rfl [.vector [0, 1], ⟨0, [#[], #[]]⟩] rfl
      (by simp [hpoint, hpoints])).2.1 fun fault h => ?_
    cases h
  · refine (rule_agrees_unless_stops hfamily hjoin rfl [.vector [0, 1], .ofValues #[]] rfl
      (by simp [hpoint, hnumbers])).2.1 fun fault h => ?_
    cases h

/-- A little more than `0x1000000` equal numbers. -/
def sevens : Series := .ofValues (Array.replicate 0x1000004 7)

/-- The rule accepts the last quantile of them, and the kernel stops. -/
theorem quantile_stops_past_end : sevens.Formed ∧ (Series.scalar 1).Formed ∧
    Builtin.Statistics.quantileShape ([sevens, .scalar 1].map Series.shape) = .ok ⟨1, 1⟩ ∧
    ∃ fault, Builtin.Statistics.quantile [sevens, .scalar 1] = .error (.fault fault) := by
  have hshape : sevens.shape = ⟨0x1000004, 1⟩ := by
    rw [sevens, Series.shape_ofValues, Array.size_replicate]
  have hsevens : sevens.Formed := ⟨Series.regular_ofValues _, hshape ▸ Shape.formed_numbers _⟩
  have hone : (Series.scalar 1).Formed := ⟨Series.regular_vector [1], Shape.formed_numbers 1⟩
  have hrule : Builtin.Statistics.quantileShape ([sevens, .scalar 1].map Series.shape) =
      .ok ⟨1, 1⟩ := by
    rw [List.map_cons, hshape]
    rfl
  have hpast : Builtin.Statistics.PastEnd sevens.length 1 := by
    have hlength : sevens.length = 0x1000004 := congrArg Shape.length hshape
    rw [hlength]
    exact ⟨by decide, by decide +kernel, by decide +kernel, by decide +kernel⟩
  have hfit := Builtin.Statistics.agrees_quantile [sevens, .scalar 1] rfl (by simp [hsevens, hone])
  refine ⟨hsevens, hone, hrule, (hfit.fault_iff (by rw [hrule]; nofun)).mpr ⟨⟨_, hrule⟩, ?_⟩⟩
  exact ⟨sevens, .scalar 1, rfl, 1, by simp [Series.scalar, Series.channel], hpast⟩

end Catalog

end VectorScript
