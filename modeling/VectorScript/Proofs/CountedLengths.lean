import Mathlib
import VectorScript.Proofs.DependencySearch
import VectorScript.Proofs.ReachedLengths
import VectorScript.Proofs.SimulationEvaluation

/-!
# Lengths that can be counted

Lengths are counted in 64 bits, and some sums of lengths stop at the largest count while others do
not.  Below the largest limit on arrays a literal or a comprehension that passes its check has been
counted exactly.  The builtins `join` and `interleave` look at no limit: the sum or the product that
they form is counted exactly as long as the bounds on their arguments can be counted together.
What cannot be counted is an error in a program that checks its sums, and a wrong length in one that
does not.

* `Simulation.wrapping`: both programs do the same up to the first number that cannot be counted.
* `Meaning.counted_of_arrayShape`, `Comprehension.counted_of_runs`: literals and comprehensions.
* `Setting.lengths_counted`: where sums and products of lengths are exact.
-/

namespace VectorScript

/-! ### Sums that are not checked -/

/-- A run of a program that does not check its sums. -/
def Wrapping.run {α : Type} (x : Wrapping α) (μ : Memory) : Except EvalError α × Memory :=
  StateT.run (ExceptT.run (m := StateM Memory) x) μ

theorem Wrapping.run_bind {α β : Type} {x : Wrapping α} {f : α → Wrapping β} {μ μ' : Memory} {a : α}
    (h : x.run μ = (.ok a, μ')) : (x >>= f).run μ = (f a).run μ' := by
  rw [Wrapping.run] at h
  have hbind := VectorScript.run_bind (x := (x : Eval α)) (f := f) μ
  rw [h] at hbind
  exact hbind

/-- An error that stands for a number which cannot be counted. -/
def EvalError.IsOverflow (e : EvalError) : Prop := e.cause = .fault .overflow

namespace Simulation

/-- A simulation in which sums are checked on one side and wrap on the other: both sides do the
same, unless a check fails. -/
def wrapping : Simulation Eval Wrapping where
  Rel x y := SameUnless EvalError.IsOverflow x y
  may _ := True
  pure _ _ := .inl rfl
  raise _ _ := .inl rfl
  overflow _ _ μ := .inr ⟨⟨.fault .overflow, _⟩, μ, rfl, rfl⟩
  countBuiltin _ := .inl rfl
  bind := SameUnless.bind

theorem sharesMemory_wrapping : wrapping.SharesMemory where
  countStatement _ := .inl rfl
  remember _ _ _ := .inl rfl
  remembered? _ _ := .inl rfl

theorem carries_wrapping (w : Setting) : wrapping.Carries w fun _ _ => True where
  step _ _ := trivial
  site _ _ _ := trivial
  reopen _ _ _ _ := trivial
  remember _ _ _ _ _ hbody := sharesMemory_wrapping.ofVariable hbody _
  recalled _ _ hdeclared := sharesMemory_wrapping.recalledOr hdeclared _

end Simulation

/-- What succeeds with checks is the same without them. -/
theorem SameUnless.run_wrapping {α : Type} {x : Eval α} {y : Wrapping α}
    (h : Simulation.wrapping.Rel x y) {μ μ' : Memory} {a : α} (hx : x.run.run μ = (.ok a, μ')) :
    y.run μ = (.ok a, μ') := by
  rcases h μ with hsame | ⟨e, μ'', -, hstopped⟩
  · exact hsame.symm.trans hx
  · cases hx.symm.trans hstopped

/-! ### Literals and comprehensions -/

open Routing Builtin.Arrangement

/-- A literal that passes its check has been counted exactly, unless the limit is the largest count
and the sum is beyond it. -/
theorem Meaning.counted_of_arrayShape {site : Site} {limit : Nat} {rules : List Item.Rules}
    {ts : List Shape} {s : Shape} (hlength : ts.length = rules.length)
    (h : arrayShape site limit rules ts = .ok s) :
    (s.length = total (ts.map Shape.length) ∧ s.length ≤ limit ∧ s.length ≤ maxLength) ∨
      (maxLength ≤ limit ∧ maxLength < total (ts.map Shape.length)) := by
  obtain ⟨hle, hsum⟩ := length_of_arrayShape hlength h
  omega

namespace Comprehension

variable {c : Comprehension Eval} {source : Series} {r : Runs} {μ μ' : Memory}

theorem total_le_of_runs (h : (c.runs source).run.run μ = (.ok r, μ')) : r.total ≤ c.limit := by
  obtain ⟨r', _, -, h⟩ := run_bind_eq_ok.mp h
  obtain ⟨hlong, h⟩ := run_check_eq_ok.mp h
  obtain ⟨rfl, -⟩ := run_pure_eq_ok.mp h
  exact Nat.le_of_not_lt hlong

/-- The same for a comprehension whose body makes runs. -/
theorem counted_of_runs (h : (c.runs source).run.run μ = (.ok r, μ')) :
    (r.total = total r.lengths.toList ∧ r.total ≤ c.limit ∧ r.total ≤ maxLength) ∨
      (maxLength ≤ c.limit ∧ maxLength < total r.lengths.toList) := by
  have hsum := total_of_runs h
  have hle := total_le_of_runs h
  omega

end Comprehension

/-! ### Builtins that gather -/

/-- The builtins that put the elements of all arguments together, with their rules. -/
inductive Builtin.Gathering : String → (List Shape → Except EvalError.Cause Shape) → Prop where
  | join : Gathering "join" joinShape
  | interleave : Gathering "interleave" interleaveShape

namespace Builtin.Gathering

variable {name : String} {rule : List Shape → Except EvalError.Cause Shape} {ts : List Shape}
  {s : Shape}

theorem lookup (h : Gathering name rule) {count : Nat} (hcount : 1 ≤ count) :
    ∃ kernel, Catalog.lookup name count = .ok (some (whole name (.atLeast 1) kernel rule)) := by
  have haccepts : (Arity.atLeast 1).accepts count = true := decide_eq_true hcount
  cases h with
  | join =>
    have hknown : Catalog.overloads "join" =
        [whole "join" (.atLeast 1) Arrangement.join joinShape] := rfl
    exact ⟨Arrangement.join, by simp [Catalog.lookup, hknown, whole, haccepts]⟩
  | interleave =>
    have hknown : Catalog.overloads "interleave" =
        [whole "interleave" (.atLeast 1) Arrangement.interleave interleaveShape] := rfl
    exact ⟨Arrangement.interleave, by simp [Catalog.lookup, hknown, whole, haccepts]⟩

theorem ne_nil (h : Gathering name rule) (hs : rule ts = .ok s) : ts ≠ [] := by
  rintro rfl
  cases h <;> cases hs

/-- A rule gives no more elements than the arguments have together. -/
theorem length_le (h : Gathering name rule) (hs : rule ts = .ok s) :
    s.length ≤ total (ts.map Shape.length) := by
  cases h with
  | join => exact Nat.le_of_eq (length_of_joinShape hs)
  | interleave =>
    have hrows := rows_mul_length_le (ts.map Shape.length)
    rwa [List.length_map, ← length_of_interleaveShape hs] at hrows

end Builtin.Gathering

namespace Setting

/-- The shapes of some arguments, found one after the other. -/
def shapes {m : Type → Type} [Answering m] (w : Setting) (ctx : Context) (args : List Expr) :
    m (List Shape) :=
  args.mapM fun arg => (arg.meaning w ctx).shape

variable {w : Setting} {ctx : Context} {args : List Expr} {ts : List Shape} {μ μ' : Memory}
  {name : String} {rule : List Shape → Except EvalError.Cause Shape} {span : Span}

/-- A call that gathers finds the shapes of its arguments, applies its rule and counts. -/
theorem shape_gathering {m : Type → Type} [Answering m] [LawfulMonad m]
    (hname : Builtin.Gathering name rule) (hbound : ¬ ctx.scope.contains name)
    (hfind : w.declarations.find? name = none) (hargs : args ≠ []) :
    ((Expr.call name args span).meaning (m := m) w ctx).shape = do
      let s ← Answering.liftAt (ctx.site span) (rule (← w.shapes ctx args))
      return ⟨← Answering.count (ctx.site span) s.length, s.dimension⟩ := by
  obtain ⟨kernel, hlookup⟩ := hname.lookup (List.length_pos_iff.mpr hargs)
  rw [Expr.meaning_call_builtin hbound hfind, Meaning.ofBuiltinCall, List.length_map, hlookup]
  simp only [Meaning.builtin, Builtin.whole, Meaning.ofKernel, Meaning.whole, List.mapM_map,
    Meaning.delay_eq, shapes]
  rfl

/-- Arguments whose shapes are found have no more elements together than their bounds. -/
theorem Bounded.total_le_of_shapes {most : String → Nat} (h : w.Bounded most)
    (hw : w.declarations.WellFormed) (hscope : ctx.scope.Formed)
    (hargs : ∀ arg ∈ args, arg.wellFormed) (hμ : Remembers most μ.cache)
    (hrun : (w.shapes (m := Eval) ctx args).run.run μ = (.ok ts, μ')) :
    total (ts.map Shape.length) ≤ total (args.map (w.reach most ctx)) := by
  have hshapes : Ensures most (args.Forall₂ fun arg t => t.length ≤ w.reach most ctx arg)
      (w.shapes ctx args) :=
    .mapM fun arg harg => (h.within_meaning hw hscope (hargs arg harg)).shape
  refine total_le_total (List.forall₂_map_left_iff.mpr (List.forall₂_map_right_iff.mpr ?_))
  exact (hshapes hμ hrun).2.flip

theorem run_shapes_wrapping (hrun : (w.shapes (m := Eval) ctx args).run.run μ = (.ok ts, μ')) :
    (w.shapes (m := Wrapping) ctx args).run μ = (.ok ts, μ') :=
  SameUnless.run_wrapping (Simulation.mapM fun arg _ =>
    ((Simulation.carries_wrapping w).matches ctx arg trivial).shape) hrun

/-- What a call that gathers says of its length, if sums are checked and if they are not. -/
structure Counts (w : Setting) (ctx : Context) (call : Expr) (s : Shape) (μ μ' : Memory) :
    Prop where
  exact : s.length ≤ maxLength →
    (call.meaning (m := Eval) w ctx).shape.run.run μ = (.ok s, μ') ∧
    (call.meaning (m := Wrapping) w ctx).shape.run μ = (.ok s, μ')
  beyond : maxLength < s.length →
    (call.meaning (m := Eval) w ctx).shape.run.run μ =
      (.error ⟨.fault .overflow, ctx.site call.span⟩, μ') ∧
    (call.meaning (m := Wrapping) w ctx).shape.run μ =
      (.ok ⟨s.length % (maxLength + 1), s.dimension⟩, μ')

/-- A length that can be counted is the length of the call.  Any other one is an error if sums are
checked, and loses the bits above if they are not. -/
theorem counts_gathering {s : Shape} (hname : Builtin.Gathering name rule)
    (hbound : ¬ ctx.scope.contains name) (hfind : w.declarations.find? name = none)
    (hrun : (w.shapes (m := Eval) ctx args).run.run μ = (.ok ts, μ')) (hs : rule ts = .ok s) :
    w.Counts ctx (.call name args span) s μ μ' := by
  have hargs : args ≠ [] := by
    rintro rfl
    obtain ⟨rfl, -⟩ := run_pure_eq_ok.mp hrun
    exact hname.ne_nil hs rfl
  have hchecked : ((Expr.call name args span).meaning (m := Eval) w ctx).shape.run.run μ =
      ((do return ⟨← Answering.count (ctx.site span) s.length, s.dimension⟩) : Eval Shape).run.run
        μ' := by
    rw [shape_gathering hname hbound hfind hargs, run_bind, hrun]
    dsimp only
    rw [hs]
    rfl
  have hwrapping : ((Expr.call name args span).meaning (m := Wrapping) w ctx).shape.run μ =
      Wrapping.run (do return ⟨← Answering.count (ctx.site span) s.length, s.dimension⟩) μ' := by
    rw [shape_gathering hname hbound hfind hargs, Wrapping.run_bind (run_shapes_wrapping hrun), hs]
    rfl
  constructor
  · intro hcounted
    rw [hchecked, hwrapping, Answering.count_of_le hcounted, Answering.count_of_le hcounted]
    exact ⟨rfl, rfl⟩
  · intro hbeyond
    rw [hchecked, hwrapping]
    simp only [Answering.count, if_neg (Nat.not_le.mpr hbeyond)]
    exact ⟨rfl, rfl⟩

/-- A literal or a nested comprehension that passes its check has been counted exactly, unless the
limit is the largest count and the sum is beyond it.  The sum and the product that `join` and
`interleave` form of the lengths of their arguments are within the bounds of these at the place of
the call, and are counted exactly up to the largest count.  If no variable depends on itself there
are such bounds, as large as what is remembered needs. -/
theorem lengths_counted (w : Setting) :
    (∀ {site : Site} {limit : Nat} {rules : List Meaning.Item.Rules} {ts : List Shape} {s : Shape},
      ts.length = rules.length → Meaning.arrayShape site limit rules ts = .ok s →
      (s.length = total (ts.map Shape.length) ∧ s.length ≤ limit ∧ s.length ≤ maxLength) ∨
        (maxLength ≤ limit ∧ maxLength < total (ts.map Shape.length))) ∧
    (∀ {c : Comprehension Eval} {source : Series} {r : Comprehension.Runs} {μ μ' : Memory},
      (c.runs source).run.run μ = (.ok r, μ') →
      (r.total = total r.lengths.toList ∧ r.total ≤ c.limit ∧ r.total ≤ maxLength) ∨
        (maxLength ≤ c.limit ∧ maxLength < total r.lengths.toList)) ∧
    (∀ {most : String → Nat} {ctx : Context} {args : List Expr} {ts : List Shape} {μ μ' : Memory},
      w.Bounded most → w.declarations.WellFormed → ctx.scope.Formed →
      (∀ arg ∈ args, arg.wellFormed) → Remembers most μ.cache →
      (w.shapes (m := Eval) ctx args).run.run μ = (.ok ts, μ') →
      total (ts.map Shape.length) ≤ total (args.map (w.reach most ctx)) ∧
      rows (ts.map Shape.length) * ts.length ≤ total (args.map (w.reach most ctx)) ∧
      ∀ {name : String} {rule : List Shape → Except EvalError.Cause Shape} {s : Shape}
        {span : Span}, Builtin.Gathering name rule → ¬ ctx.scope.contains name →
        w.declarations.find? name = none → rule ts = .ok s →
        s.length ≤ total (args.map (w.reach most ctx)) ∧
          w.Counts ctx (.call name args span) s μ μ') ∧
    ((∀ x, w.declarations.IsVariable x → ¬ w.declarations.Reaches x x) → ∀ least : String → Nat,
      ∃ most, w.Bounded most ∧ ∀ name, least name ≤ most name) := by
  refine ⟨Meaning.counted_of_arrayShape, Comprehension.counted_of_runs, ?_, exists_bounded⟩
  intro most ctx args ts μ μ' h hw hscope hargs hμ hrun
  have hsum := h.total_le_of_shapes hw hscope hargs hμ hrun
  have hrows := rows_mul_length_le (ts.map Shape.length)
  rw [List.length_map] at hrows
  refine ⟨hsum, Nat.le_trans hrows hsum, fun hname hbound hfind hs => ?_⟩
  exact ⟨Nat.le_trans (hname.length_le hs) hsum, counts_gathering hname hbound hfind hrun hs⟩

/-- The body of `tower`. -/
def towerBody : Expr :=
  .conditional
    (.call "join" [.identifier "x" .none,
      .call "tower" [.constant 0 .none, .identifier "x" .none] .none] .none)
    (.identifier "n" .none) (.identifier "x" .none) .none

/-- `pair = [time, scale]`, `twice(x) = join(x, x)` and
`tower(n, x) = join(x, tower(0, x)) if n else x`.  Arrays of three elements are allowed, and four
calls within each other. -/
def doubling : Setting where
  declarations := NameTable.empty
    |>.insert "pair" ⟨.variable "pair"
      (.array [.identifier "time" .none, .identifier "scale" .none] .none), []⟩
    |>.insert "twice" ⟨.function "twice" ["x"]
      (.call "join" [.identifier "x" .none, .identifier "x" .none] .none), []⟩
    |>.insert "tower" ⟨.function "tower" ["n", "x"] towerBody, []⟩
  limits := { maxArrayLength := 3, maxCallDepth := 4 }
  animation := .initial

theorem bounded_doubling : doubling.Bounded fun _ => 3 where
  pos _ := by decide
  body {name st key body} hfind hkind := by
    simp only [doubling, NameTable.find?_insert] at hfind
    split_ifs at hfind
    · cases hfind
      cases hkind
    · cases hfind
      cases hkind
    · cases hfind
      cases hkind
      decide
    · cases hfind

/-- A single condition that is a number picks a branch. -/
theorem conditional_of_scalar {m : Type → Type} [Answering m] [LawfulMonad m] {site : Site}
    {a b : Meaning m} {c : Float32} (hc : c.isNaN = false) :
    Meaning.conditional site a (.const (.scalar c)) b = if c != 0 then a else b := by
  have hshape : (Series.scalar c).shape = .scalar := rfl
  have hfirst : ((Series.scalar c).select .all).first = c := rfl
  simp only [Meaning.conditional, Meaning.after, Meaning.const, pure_bind, hshape, hfirst, hc]
  split_ifs <;> simp_all

/-- Where `tower` is called with a number, this picks a branch of its body. -/
theorem shape_tower {ctx : Context} (hfree : ¬ ctx.scope.contains "tower") (hdepth : ctx.depth < 4)
    {n : Float32} (hn : n.isNaN = false) (x : Expr) :
    let frame := ctx.inFunction "tower"
      (.ofArgs ctx.scope ctx.owner ["n", "x"] [.constant n .none, x] .root)
    ((Expr.call "tower" [.constant n .none, x] .none).meaning (m := Eval) doubling ctx).shape =
      if n != 0 then
        ((Expr.call "join" [.identifier "x" .none,
          .call "tower" [.constant 0 .none, .identifier "x" .none] .none] .none).meaning
            doubling frame).shape
      else ((Expr.identifier "x" .none).meaning doubling frame).shape := by
  intro frame
  have hcondition : (Expr.identifier "n" .none).meaning (m := Eval) doubling frame =
      .const (.scalar n) := by
    have harg : frame.scope.find? "n" =
        some (.deferred (.constant n .none) ctx.scope ctx.owner) := rfl
    rw [Expr.meaning_deferred harg, Meaning.delay_eq, Expr.meaning]
    rfl
  have hfind : doubling.declarations.find? "tower" =
      some ⟨.function "tower" ["n", "x"] towerBody, []⟩ := rfl
  rw [Expr.meaning_call_function hfree hfind rfl rfl hdepth]
  simp only [Meaning.call, Meaning.delay_eq]
  rw [Expr.meaning_eq_meaningBy, towerBody, Expr.meaningBy_conditional]
  simp only [Meaning.delay_eq]
  rw [hcondition, conditional_of_scalar hn]
  split_ifs <;> rfl

/-- `twice(twice(pair))` and `tower(1, pair)`. -/
def doubled : List Expr :=
  [.call "twice" [.call "twice" [.identifier "pair" .none] .none] .none,
    .call "tower" [.constant 1 .none, .identifier "pair" .none] .none]

/-- The pair four times, and twice. -/
theorem run_shapes_doubled : (doubling.shapes (m := Eval) .root doubled).run.run ⟨.empty, 0, 0⟩ =
    (.ok [⟨8, 1⟩, ⟨4, 1⟩], ⟨.empty, 0, 0⟩) := by
  have htwice : ((Expr.call "twice" [.call "twice" [.identifier "pair" .none] .none] .none).meaning
      (m := Eval) doubling .root).shape.run.run ⟨.empty, 0, 0⟩ =
        (.ok ⟨8, 1⟩, ⟨.empty, 0, 0⟩) := by
    cbv
  have htower : ((Expr.call "tower" [.constant 1 .none, .identifier "pair" .none] .none).meaning
      (m := Eval) doubling .root).shape.run.run ⟨.empty, 0, 0⟩ =
        (.ok ⟨4, 1⟩, ⟨.empty, 0, 0⟩) := by
    have hone : ((1 : Float32) != 0) = true := by decide +kernel
    have hzero : ((0 : Float32) != 0) = false := by decide +kernel
    rw [shape_tower (by decide) (by decide) (by decide +kernel), if_pos hone]
    have hpairs : joinShape [⟨2, 1⟩, ⟨2, 1⟩] = .ok ⟨4, 1⟩ := rfl
    refine ((counts_gathering .join (by decide) rfl ?_ hpairs).exact (by decide)).1
    -- the pair, and again the pair at the end of the recursion
    simp only [shapes, List.mapM_cons, List.mapM_nil]
    rw [shape_tower (by decide) (by decide) (by decide +kernel), if_neg (by simp [hzero])]
    cbv
  simp only [shapes, doubled, List.mapM_cons, List.mapM_nil, run_bind, htwice, htower]
  rfl

/-- Together they have twelve elements, of twenty-four that the bounds allow. -/
theorem doubling_lengths_counted :
    doubling.Bounded (fun _ => 3) ∧ doubling.declarations.WellFormed ∧
    Context.root.scope.Formed ∧ (∀ arg ∈ doubled, arg.wellFormed) ∧
    Remembers (fun _ => 3) .empty ∧
    (doubling.shapes (m := Eval) .root doubled).run.run ⟨.empty, 0, 0⟩ =
      (.ok [⟨8, 1⟩, ⟨4, 1⟩], ⟨.empty, 0, 0⟩) ∧
    total (doubled.map (doubling.reach (fun _ => 3) .root)) = 24 ∧
    total [8, 4] ≤ 24 ∧ rows [8, 4] * 2 ≤ 24 ∧
    ((Expr.call "join" doubled .none).meaning (m := Wrapping) doubling .root).shape.run
      ⟨.empty, 0, 0⟩ = (.ok ⟨12, 1⟩, ⟨.empty, 0, 0⟩) ∧
    ((Expr.call "interleave" doubled .none).meaning (m := Wrapping) doubling .root).shape.run
      ⟨.empty, 0, 0⟩ = (.ok ⟨8, 1⟩, ⟨.empty, 0, 0⟩) ∧
    ∃ most, doubling.Bounded most ∧ ∀ name, 3 ≤ most name := by
  have hw : doubling.declarations.WellFormed := by
    intro name st hfind
    simp only [doubling, NameTable.find?_insert] at hfind
    split_ifs at hfind <;> cases hfind <;> rfl
  have hscope : Context.root.scope.Formed := trivial
  have hargs : ∀ arg ∈ doubled, arg.wellFormed := by decide
  have hmost : total (doubled.map (doubling.reach (fun _ => 3) .root)) = 24 := by decide
  have hacyclic : ∀ x, doubling.declarations.IsVariable x → ¬ doubling.declarations.Reaches x x :=
    fun x => Dependency.not_reaches_self_of_searched (Dependency.searched_of_all (by cbv))
  obtain ⟨hsum, hproduct, hcounted⟩ := (lengths_counted doubling).2.2.1 bounded_doubling hw hscope
    hargs (remembers_empty _) run_shapes_doubled
  rw [hmost] at hsum hproduct
  have hjoin : doubling.Counts .root (.call "join" doubled .none) ⟨12, 1⟩ _ _ :=
    (hcounted .join (by decide) rfl rfl).2
  have hinterleave : doubling.Counts .root (.call "interleave" doubled .none) ⟨8, 1⟩ _ _ :=
    (hcounted .interleave (by decide) rfl rfl).2
  exact ⟨bounded_doubling, hw, hscope, hargs, remembers_empty _, run_shapes_doubled, hmost, hsum,
    hproduct, (hjoin.exact (by decide)).2, (hinterleave.exact (by decide)).2,
    (lengths_counted doubling).2.2.2 hacyclic fun _ => 3⟩

end Setting

namespace Expr

open Setting

/-- The range `0...9000000000000000000`. -/
def wide : Expr := .range (.constant 0 .none) (.constant 9e18 .none) .none

theorem bound_scalar (site : Site) (x : Float32) :
    (Meaning.bound site (.const (.scalar x)) : Eval Float32) = pure x := by
  have hshape : (Series.scalar x).shape = .scalar := rfl
  simp only [Meaning.bound, Meaning.const, pure_bind, hshape, ne_eq, not_true_eq_false, if_false]
  rfl

theorem run_shape_wide {limit : Nat} {r : Range} (h : Range.ofBounds limit 0 9e18 = .ok r)
    (μ : Memory) : (wide.meaning (m := Eval) (limitedTo limit) .root).shape.run.run μ =
      (.ok ⟨r.length, 1⟩, μ) := by
  have hlimit : (limitedTo limit).limits.maxArrayLength = limit := rfl
  have hconstant : ∀ x : Float32, (constant x .none).meaning (m := Eval) (limitedTo limit) .root =
      .const (.scalar x) := fun x => by rw [meaning_eq_meaningBy, meaningBy_constant]
  rw [wide, meaning_eq_meaningBy, meaningBy_range]
  simp only [Meaning.delay_eq, hconstant, Meaning.range, Meaning.after, bound_scalar, pure_bind,
    hlimit, h]
  rfl

theorem run_shapes_wide {limit : Nat} {r : Range} (h : Range.ofBounds limit 0 9e18 = .ok r)
    (μ : Memory) : ((limitedTo limit).shapes (m := Eval) .root [wide, wide, wide]).run.run μ =
      (.ok [⟨r.length, 1⟩, ⟨r.length, 1⟩, ⟨r.length, 1⟩], μ) := by
  simp only [Setting.shapes, List.mapM_cons, List.mapM_nil, run_bind, run_shape_wide h]
  rfl

/-- Under the largest limit a literal passes its check although its items cannot be counted
together, and reading an element of it fails.  Under a smaller limit that allows the items, neither
can their sum be counted nor the product of rows; joined they are too many, or too few. -/
theorem wide_items_uncounted :
    ((array [wide, wide, wide] .none).meaning (m := Eval) (limitedTo maxLength) .root).shape.run.run
      ⟨.empty, 0, 0⟩ = (.ok ⟨maxLength, 1⟩, ⟨.empty, 0, 0⟩) ∧
    (((array [wide, wide, wide] .none).meaning (m := Eval) (limitedTo maxLength) .root).values
      (.at [0])).run.run ⟨.empty, 0, 0⟩ =
        (.error ⟨.fault .overflow, Context.root.site .none⟩, ⟨.empty, 0, 0⟩) ∧
    ∃ ts, ((limitedTo 9000000202358128640).shapes (m := Eval) .root [wide, wide, wide]).run.run
        ⟨.empty, 0, 0⟩ = (.ok ts, ⟨.empty, 0, 0⟩) ∧
      maxLength < total (ts.map Shape.length) ∧
      maxLength < rows (ts.map Shape.length) * ts.length ∧
      ((call "join" [wide, wide, wide] .none).meaning (m := Eval) (limitedTo 9000000202358128640)
        .root).shape.run.run ⟨.empty, 0, 0⟩ =
          (.error ⟨.fault .overflow, Context.root.site .none⟩, ⟨.empty, 0, 0⟩) ∧
      ((call "join" [wide, wide, wide] .none).meaning (m := Wrapping)
        (limitedTo 9000000202358128640) .root).shape.run ⟨.empty, 0, 0⟩ =
          (.ok ⟨8553256533364834304, 1⟩, ⟨.empty, 0, 0⟩) := by
  have hlargest : Range.ofBounds maxLength 0 9e18 = .ok ⟨0, 9000000202358128640⟩ := by
    decide +kernel
  have hsmaller : Range.ofBounds 9000000202358128640 0 9e18 = .ok ⟨0, 9000000202358128640⟩ := by
    decide +kernel
  have hlimit : (limitedTo maxLength).limits.maxArrayLength = maxLength := rfl
  have hcounts : (limitedTo 9000000202358128640).Counts .root (call "join" [wide, wide, wide] .none)
      ⟨27000000607074385920, 1⟩ _ _ :=
    counts_gathering .join (by decide) rfl (run_shapes_wide hsmaller ⟨.empty, 0, 0⟩) rfl
  have hjoin := hcounts.beyond (by decide)
  refine ⟨?_, ?_, _, run_shapes_wide hsmaller _, by decide, by decide, hjoin.1, hjoin.2⟩
  · rw [meaning_eq_meaningBy, meaningBy_array, Meaning.arrayLiteral]
    simp only [List.map_cons, List.map_nil, List.mapM_cons, List.mapM_nil, run_bind,
      Meaning.delay_eq, run_shape_wide hlargest, hlimit]
    rfl
  · rw [meaning_eq_meaningBy, meaningBy_array, Meaning.arrayLiteral]
    simp only [List.map_cons, List.map_nil, List.mapM_cons, List.mapM_nil, run_bind,
      Meaning.delay_eq, run_shape_wide hlargest, hlimit]
    rfl

end Expr

end VectorScript
