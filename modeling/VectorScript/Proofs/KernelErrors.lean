import VectorScript.Proofs.KernelLaws

/-!
# Errors of builtins

The shape rule of a builtin that works on whole series fails only with an invalid argument under the
name of the builtin, whatever the arguments are.  So does its kernel, unless it cannot go on at all.
-/

namespace VectorScript

/-- A cause by which the builtin of a name rejects its arguments. -/
inductive EvalError.Cause.Rejects (name : String) : EvalError.Cause → Prop
  | argument (reason : String) : Rejects name (.invalidArgument name reason)

/-- A cause that the builtin of a name may give. -/
inductive EvalError.Cause.Blames (name : String) : EvalError.Cause → Prop
  | argument (reason : String) : Blames name (.invalidArgument name reason)
  | fault (f : Fault) : Blames name (.fault f)

theorem EvalError.Cause.Rejects.blames {name : String} {c : EvalError.Cause} (h : c.Rejects name) :
    c.Blames name := by
  cases h
  exact .argument _

theorem FailsOnly.blames {name : String} {α : Type} {r : Except EvalError.Cause α}
    (h : FailsOnly (EvalError.Cause.Rejects name) r) :
    FailsOnly (EvalError.Cause.Blames name) r :=
  h.mono fun _ hc => hc.blames

/-- All errors of a kernel are those of the builtin of a name. -/
def Kernel.Blames (name : String) : Kernel → Prop
  | .whole f rule => (∀ args, FailsOnly (EvalError.Cause.Blames name) (f args)) ∧
      ∀ shapes, FailsOnly (EvalError.Cause.Rejects name) (rule shapes)
  | _ => True

namespace Builtin

variable {name : String} {α : Type}

theorem rejects_invalid (reason : String) : FailsOnly (EvalError.Cause.Rejects name)
    (.error (.invalidArgument name reason) : Except EvalError.Cause α) :=
  .error (.argument reason)

theorem rejects_orInvalid (reason : String) (r : Except DimensionMismatch α) :
    FailsOnly (EvalError.Cause.Rejects name) (orInvalid name reason r) :=
  .mapError fun _ _ => .argument reason

namespace Statistics

theorem blames_count : (whole "count" (.exactly 1) count fun _ => .ok .scalar).kernel.Blames
    "count" := by
  refine ⟨fun args => ?_, fun _ => .ok _⟩
  unfold count
  split
  · exact .ok _
  · exact (rejects_invalid _).blames

theorem failsOnly_valueAt (values : Array Float32) (i : Nat) :
    FailsOnly (EvalError.Cause.Blames name) (valueAt values i) := by
  unfold valueAt
  split
  · exact .ok _
  · exact .error (.fault _)

theorem failsOnly_quantiles (qs values : Array Float32) :
    FailsOnly (EvalError.Cause.Blames name) (quantiles qs values) := by
  refine .bind (.mapM fun q _ => ?_) fun _ => .ok _
  refine .ite (.ok _) ?_
  exact .bind (failsOnly_valueAt _ _) fun _ => .bind (failsOnly_valueAt _ _) fun _ => .ok _

theorem blames_quantile :
    (whole "quantile" (.exactly 2) quantile quantileShape).kernel.Blames "quantile" := by
  constructor
  · intro args
    unfold quantile
    split
    · refine .ite (rejects_invalid _).blames (.bind (.mapM fun c _ => failsOnly_quantiles _ c) ?_)
      intro channels
      split
      · exact .ok _
      · exact (rejects_invalid _).blames
    · exact (rejects_invalid _).blames
  · intro shapes
    unfold quantileShape
    split
    · exact .ite (rejects_invalid _) (.ok _)
    · exact rejects_invalid _

theorem blames_paired (name : String) (f : Array Float32 → Array Float32 → Float32) :
    (whole name (.exactly 2) (paired name f) (pairedShape name)).kernel.Blames name := by
  constructor
  · intro args
    unfold paired
    split
    · exact .bind (rejects_orInvalid _ _).blames fun _ => .ok _
    · exact (rejects_invalid _).blames
  · exact fun shapes => .bind (rejects_orInvalid _ _) fun _ => .ok _

end Statistics

namespace Arrangement

theorem rejects_uniformDimension (shapes : List Shape) :
    FailsOnly (EvalError.Cause.Rejects name) (uniformDimension name shapes) := by
  unfold uniformDimension
  split
  · exact rejects_invalid _
  · exact .ite (.ok _) (rejects_invalid _)

theorem failsOnly_reserve (length : Nat) :
    FailsOnly (EvalError.Cause.Blames name) (Builder.reserve length) :=
  .ite (.error (.fault _)) (.ok _)

theorem failsOnly_build (b : Builder) : FailsOnly (EvalError.Cause.Blames name) b.build :=
  .bind (failsOnly_reserve _) fun _ => .ok _

theorem blames_join : (whole "join" (.atLeast 1) join joinShape).kernel.Blames "join" :=
  ⟨fun _ => .bind (rejects_orInvalid _ _).blames fun _ => failsOnly_build _,
    fun _ => .bind (rejects_uniformDimension _) fun _ => .ok _⟩

theorem blames_interleave :
    (whole "interleave" (.atLeast 1) interleave interleaveShape).kernel.Blames "interleave" :=
  ⟨fun _ => .bind (rejects_uniformDimension _).blames fun _ =>
      .bind (failsOnly_reserve _) fun _ => .ok _,
    fun _ => .bind (rejects_uniformDimension _) fun _ => .ok _⟩

theorem blames_combineArgs (name : String) (f : Float32 → Float32 → Float32) :
    (whole name (.atLeast 2) (combineArgs name f) (broadcastArgs name)).kernel.Blames name :=
  ⟨fun _ => (rejects_orInvalid _ _).blames, fun _ => rejects_orInvalid _ _⟩

theorem blames_sort : (whole "sort" (.between 1 2) sort sortShape).kernel.Blames "sort" := by
  constructor
  · intro args
    unfold sort
    split
    · split
      · exact .ok _
      · exact (rejects_invalid _).blames
    · exact .ite (rejects_invalid _).blames (.ok _)
    · exact (rejects_invalid _).blames
  · intro shapes
    unfold sortShape
    split
    · exact .ok _
    · exact .ite (rejects_invalid _) (.ok _)
    · exact rejects_invalid _

end Arrangement

namespace Geometry

theorem rejects_pairShape (shapes : List Shape) :
    FailsOnly (EvalError.Cause.Rejects name) (pairShape name shapes) := by
  unfold pairShape
  split
  · exact .ite (rejects_invalid _) (.mapError fun _ _ => .argument _)
  · exact rejects_invalid _

theorem blames_pairwise (name : String) (f : List Float32 → List Float32 → Float32) :
    (whole name (.exactly 2) (pairwise name f) (pairwiseShape name)).kernel.Blames name := by
  constructor
  · intro args
    unfold pairwise
    split
    · exact .bind (rejects_pairShape _).blames fun _ => .ok _
    · exact (rejects_invalid _).blames
  · exact fun shapes => .bind (rejects_pairShape _) fun _ => .ok _

theorem blames_cross : (whole "cross" (.exactly 2) cross crossShape).kernel.Blames "cross" := by
  constructor
  · intro args
    unfold cross
    split
    · refine .ite (rejects_invalid _).blames ?_
      exact .bind (.mapError fun _ _ => .argument _) fun _ => .ok _
    · exact (rejects_invalid _).blames
  · intro shapes
    refine .ite (rejects_invalid _) ?_
    exact .bind (.mapError fun _ _ => .argument _) fun _ => .ok _

theorem blames_single (name : String) (f : Series → Series) (g : Shape → Shape) :
    (whole name (.exactly 1) (single name f) (singleShape name g)).kernel.Blames name := by
  constructor
  · intro args
    unfold single
    split
    · exact .ok _
    · exact (rejects_invalid _).blames
  · intro shapes
    unfold singleShape
    split
    · exact .ok _
    · exact rejects_invalid _

end Geometry

/-! ### The catalog -/

theorem blames_elementwise : ∀ b ∈ elementwise, b.kernel.Blames b.name := by
  simp only [elementwise, List.forall_mem_cons, map, zip, Kernel.Blames, true_and]
  simp

theorem blames_statistics : ∀ b ∈ statistics, b.kernel.Blames b.name := by
  simp only [statistics, List.forall_mem_cons]
  exact ⟨trivial, trivial, trivial, trivial, trivial, trivial, trivial, trivial,
    Statistics.blames_count, Statistics.blames_quantile, Statistics.blames_paired _ _,
    Statistics.blames_paired _ _, by simp⟩

theorem blames_arrangement : ∀ b ∈ arrangement, b.kernel.Blames b.name := by
  simp only [arrangement, List.forall_mem_cons]
  exact ⟨Arrangement.blames_join, Arrangement.blames_interleave,
    Arrangement.blames_combineArgs _ _, Arrangement.blames_combineArgs _ _,
    Arrangement.blames_sort, by simp⟩

theorem blames_geometry : ∀ b ∈ geometry, b.kernel.Blames b.name := by
  simp only [geometry, List.forall_mem_cons]
  exact ⟨Geometry.blames_cross, Geometry.blames_pairwise _ _, Geometry.blames_pairwise _ _,
    Geometry.blames_pairwise _ _, Geometry.blames_single _ _ _, Geometry.blames_single _ _ _,
    Geometry.blames_single _ _ _, by simp⟩

end Builtin

theorem Catalog.blames {family : Builtin.Family} (hfamily : family ∈ families) {b : Builtin}
    (hb : b ∈ family.members) : b.kernel.Blames b.name :=
  forall_members Builtin.blames_elementwise Builtin.blames_statistics Builtin.blames_arrangement
    Builtin.blames_geometry hfamily b hb

/-- The errors of every builtin of the catalog are its own. -/
theorem Catalog.blames_of_lookup {name : String} {count : Nat} {b : Builtin}
    (h : lookup name count = .ok (some b)) : b.kernel.Blames b.name := by
  obtain ⟨family, hfamily, hmem⟩ := (mem_of_lookup h).1
  exact blames hfamily hmem

end VectorScript
