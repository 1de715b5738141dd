import Mathlib
import VectorScript.Proofs.EvaluationCases
import VectorScript.Proofs.ExprForms
import VectorScript.Proofs.ForetellingCollections
import VectorScript.Proofs.SuccessfulRuns

/-!
# The limit on arrays

Ranges, array literals and comprehensions never give all values of more elements than the limit
allows.  Shapes keep to the limit as well, with one exception: a comprehension whose body gives one
element each time takes its length from its source, and that is not looked at again.  If the source
is some other expression, a builtin may have made it longer.

* `Meaning.KeepsTo`: what a collection promises about its lengths, in every mode.
* `Expr.origin`: where the length of a comprehension comes from.
* `Expr.collection_keeps_to_limit`: the limit holds for all values, and for the shape as far as it
  holds for the origin.
-/

namespace VectorScript

variable {μ μ' : Memory} {limit : Nat}

/-! ### Lengths of what is put together -/

namespace Builder

theorem length_foldlM_push : ∀ {vs : List Series} {b b' : Builder},
    vs.foldlM push b = .ok b' → b'.length = b.length + Routing.total (vs.map Series.length)
  | [], b, b', h => by
    obtain rfl := pure_eq_ok.mp h
    rfl
  | v :: vs, b, b', h => by
    rw [List.foldlM_cons] at h
    obtain ⟨b₁, hpush, hrest⟩ := bind_eq_ok.mp h
    obtain ⟨-, rfl⟩ := push_eq_ok.mp hpush
    rw [length_foldlM_push hrest, List.map_cons, Routing.total_cons]
    exact Nat.add_assoc _ _ _

end Builder

/-- Empty parts add nothing. -/
theorem Routing.total_filter : ∀ vs : List Series,
    total ((vs.filter (0 < ·.length)).map Series.length) = total (vs.map Series.length)
  | [] => rfl
  | v :: vs => by
    by_cases hpos : 0 < v.length
    · rw [List.filter_cons_of_pos (by simpa using hpos), List.map_cons, List.map_cons, total_cons,
        total_cons, total_filter vs]
    · rw [List.filter_cons_of_neg (by simpa using hpos), List.map_cons, total_cons, total_filter vs]
      omega

theorem Range.length_le_of_ofBounds {lower upper : Float32} {r : Range}
    (hlimit : limit < 0x20000000000000) (h : ofBounds limit lower upper = .ok r) :
    r.length ≤ limit := by
  have hkeep : Scalar.keep53 limit = limit := if_pos hlimit
  unfold ofBounds at h
  simp only [hkeep] at h
  split_ifs at h with _ _ hlong
  cases h
  exact Nat.le_trans (Nat.min_le_left _ _) (Nat.le_of_not_lt hlong)

namespace Meaning

theorem length_of_concatenate {site : Site} {d : Nat} {vs : List Series} {v : Series}
    (h : concatenate site d vs = .ok v) : v.length ≤ Routing.total (vs.map Series.length) := by
  obtain ⟨b, hpush, h⟩ := exists_build_of_concatenate h
  obtain ⟨-, rfl⟩ := Builder.build_eq_ok.mp h
  have hlength := Builder.length_foldlM_push hpush
  rw [Routing.total_filter, Builder.ofDimension, Nat.zero_add] at hlength
  exact hlength ▸ b.length_finish_le

/-- The length of an array literal is the sum of the lengths of its items, as far as that can be
counted. -/
theorem length_of_arrayShape {site : Site} {rules : List Item.Rules} {ts : List Shape} {s : Shape}
    (hlength : ts.length = rules.length) (h : arrayShape site limit rules ts = .ok s) :
    s.length ≤ limit ∧ s.length = min (Routing.total (ts.map Shape.length)) maxLength := by
  unfold arrayShape at h
  obtain ⟨n, hn, h⟩ := bind_eq_ok.mp h
  obtain ⟨-, hsum⟩ := (Foretells.foldlM_addItem (Nat.zero_le _)).mp hn
  have hmap : (rules.zip ts).map (fun p => p.2.length) = ts.map Shape.length := by
    rw [← List.map_snd_zip (Nat.le_of_eq hlength), List.map_map, List.map_snd_zip]
    · rfl
    · exact Nat.le_of_eq hlength
  rw [hmap, Nat.zero_add] at hsum
  split_ifs at h with hlong
  · cases h
  · obtain rfl := pure_eq_ok.mp h
    exact ⟨Nat.le_of_not_lt hlong, hsum⟩

/-! ### Nodes -/

/-- The answers keep to a limit: no shape that is found and no series of all values is longer, and
some values are given only after a shape was found. -/
structure KeepsTo (limit : Nat) (a : Meaning Eval) : Prop where
  shape : ∀ {μ μ' s}, a.shape.run.run μ = (.ok s, μ') → s.length ≤ limit
  all : ∀ {μ μ' v}, (a.values .all).run.run μ = (.ok v, μ') → v.length ≤ limit
  infers : ∀ {μ μ' S v}, (a.values (.at S)).run.run μ = (.ok v, μ') →
    ∃ s μ₁, a.shape.run.run μ = (.ok s, μ₁)

/-- A computation finds a meaning whose shape is known and whose values are not too many. -/
theorem KeepsTo.after {find : Eval (Meaning Eval)}
    (h : ∀ {μ μ' a}, find.run.run μ = (.ok a, μ') → ∃ s, a.shape = pure s ∧ s.length ≤ limit ∧
      ∀ {ν ν' v}, (a.values .all).run.run ν = (.ok v, ν') → v.length ≤ limit) :
    KeepsTo limit (.after find) where
  shape hrun := by
    obtain ⟨a, μ₁, hfind, hshape⟩ := run_bind_eq_ok.mp hrun
    obtain ⟨s, hs, hle, -⟩ := h hfind
    rw [hs] at hshape
    obtain ⟨rfl, -⟩ := run_pure_eq_ok.mp hshape
    exact hle
  all hrun := by
    obtain ⟨a, μ₁, hfind, hvalues⟩ := run_bind_eq_ok.mp hrun
    obtain ⟨-, -, -, hall⟩ := h hfind
    exact hall hvalues
  infers hrun := by
    obtain ⟨a, μ₁, hfind, -⟩ := run_bind_eq_ok.mp hrun
    obtain ⟨s, hs, -⟩ := h hfind
    refine ⟨s, μ₁, run_bind_eq_ok.mpr ⟨a, μ₁, hfind, ?_⟩⟩
    rw [hs]
    rfl

theorem keepsTo_range (hlimit : limit < 0x20000000000000) (site lowerSite upperSite : Site)
    (lower upper : Meaning Eval) :
    KeepsTo limit (range site lowerSite upperSite limit lower upper) := by
  refine .after fun h => ?_
  obtain ⟨lo, _, -, h⟩ := run_bind_eq_ok.mp h
  obtain ⟨hi, _, -, h⟩ := run_bind_eq_ok.mp h
  obtain ⟨r, _, hr, h⟩ := run_bind_eq_ok.mp h
  obtain ⟨hbounds, -⟩ := run_liftAt_eq_ok.mp hr
  obtain ⟨rfl, -⟩ := run_pure_eq_ok.mp h
  have hle := Range.length_le_of_ofBounds hlimit hbounds
  refine ⟨⟨r.length, 1⟩, rfl, hle, fun hrun => ?_⟩
  obtain ⟨rfl, -⟩ := run_pure_eq_ok.mp hrun
  simpa [Range.values, Series.ofValues] using hle

theorem keepsTo_arrayLiteral (hlimit : limit < maxLength) (site : Site) (items : List (Item Eval)) :
    KeepsTo limit (arrayLiteral site limit items) where
  shape h := by
    obtain ⟨shapes, _, hshapes, h⟩ := run_bind_eq_ok.mp h
    obtain ⟨h, -⟩ := run_ofExcept_eq_ok.mp h
    have hlength : shapes.length = (items.map Item.toRules).length := by
      rw [List.length_map, run_mapM_length hshapes]
    exact (length_of_arrayShape hlength h).1
  all h := by
    obtain ⟨values, _, hvalues, h⟩ := run_bind_eq_ok.mp h
    obtain ⟨s, _, hs, h⟩ := run_bind_eq_ok.mp h
    obtain ⟨hs, -⟩ := run_ofExcept_eq_ok.mp hs
    obtain ⟨h, -⟩ := run_ofExcept_eq_ok.mp h
    have hlength : (values.map Series.shape).length = (items.map Item.toRules).length := by
      rw [List.length_map, List.length_map, run_mapM_length hvalues]
    obtain ⟨hle, htotal⟩ := length_of_arrayShape hlength hs
    have hvalues := length_of_concatenate h
    rw [List.map_map] at htotal
    change s.length = min (Routing.total (values.map Series.length)) maxLength at htotal
    omega
  infers h := by
    obtain ⟨shapes, _, hshapes, h⟩ := run_bind_eq_ok.mp h
    obtain ⟨s, μ₁, hs, -⟩ := run_bind_eq_ok.mp h
    exact ⟨s, μ₁, run_bind_eq_ok.mpr ⟨shapes, _, hshapes, hs⟩⟩

end Meaning

namespace Comprehension

open Meaning

variable {c : Comprehension Eval} {b b' : Builder} {source : Series}

/-- Whatever is appended, the limit is not passed. -/
theorem Rules.length_le_of_append {r : Rules} {v : Series} (hb : b.length ≤ r.limit)
    (h : r.append b v = .ok b') : b'.length ≤ r.limit := by
  obtain ⟨-, ⟨-, rfl⟩ | ⟨-, -, hle⟩⟩ := append_eq_ok.mp h
  · exact hb
  · exact hle

theorem length_le_of_collect (hb : b.length ≤ c.limit)
    (h : (c.collect source b).run.run μ = (.ok b', μ')) : b'.length ≤ c.limit := by
  refine run_foldlM_induction (I := fun b => b.length ≤ c.limit) (fun hb h => ?_) hb h
  obtain ⟨v, _, -, h⟩ := run_bind_eq_ok.mp h
  exact Rules.length_le_of_append hb (run_ofExcept_eq_ok.mp h).1

theorem length_le_of_collectWhen {condition : Series → Meaning Eval}
    (h : (c.collectWhen condition source).run.run μ = (.ok b', μ')) : b'.length ≤ c.limit := by
  refine run_foldlM_induction (I := fun b => b.length ≤ c.limit) (fun hb h => ?_) (Nat.zero_le _) h
  obtain ⟨u, _, -, h⟩ := run_bind_eq_ok.mp h
  split_ifs at h
  · obtain ⟨v, _, -, h⟩ := run_bind_eq_ok.mp h
    exact Rules.length_le_of_append hb (run_ofExcept_eq_ok.mp h).1
  · obtain ⟨rfl, -⟩ := run_pure_eq_ok.mp h
    exact hb

theorem keepsTo_filtered (c : Comprehension Eval) (condition : Series → Meaning Eval) :
    KeepsTo c.limit (c.filtered condition) := by
  refine .after fun h => ?_
  obtain ⟨source, _, -, h⟩ := run_bind_eq_ok.mp h
  obtain ⟨b, _, hb, h⟩ := run_bind_eq_ok.mp h
  obtain ⟨v, _, hv, h⟩ := run_bind_eq_ok.mp h
  obtain ⟨rfl, -⟩ := run_pure_eq_ok.mp h
  obtain ⟨-, rfl⟩ := Builder.build_eq_ok.mp (run_liftAt_eq_ok.mp hv).1
  have hle := Nat.le_trans b.length_finish_le (length_le_of_collectWhen hb)
  refine ⟨b.finish.shape, rfl, hle, fun hrun => ?_⟩
  obtain ⟨rfl, -⟩ := run_pure_eq_ok.mp hrun
  exact hle

theorem keepsTo_nested (c : Comprehension Eval) : KeepsTo c.limit c.nested := by
  refine .after fun h => ?_
  obtain ⟨source, _, -, h⟩ := run_bind_eq_ok.mp h
  obtain ⟨r, _, hr, h⟩ := run_bind_eq_ok.mp h
  obtain ⟨rfl, -⟩ := run_pure_eq_ok.mp h
  obtain ⟨r', _, -, hr⟩ := run_bind_eq_ok.mp hr
  obtain ⟨htotal, hr⟩ := run_check_eq_ok.mp hr
  obtain ⟨rfl, -⟩ := run_pure_eq_ok.mp hr
  refine ⟨⟨r'.total, r'.dimension.getD 1⟩, rfl, Nat.le_of_not_lt htotal, fun hrun => ?_⟩
  obtain ⟨b, _, hb, hrun⟩ := run_bind_eq_ok.mp hrun
  exact Builder.length_le_of_build (length_le_of_collect (Nat.zero_le _) hb)
    (run_liftAt_eq_ok.mp hrun).1

/-! One element each time: the shape has the length of the source. -/

theorem length_of_single_shape {s : Shape} (h : c.single.shape.run.run μ = (.ok s, μ')) :
    ∃ t μ₁, c.source.shape.run.run μ = (.ok t, μ₁) ∧ t.length = s.length := by
  obtain ⟨t, μ₁, ht, h⟩ := run_bind_eq_ok.mp h
  refine ⟨t, μ₁, ht, ?_⟩
  split_ifs at h with hzero
  · obtain ⟨rfl, -⟩ := run_pure_eq_ok.mp h
    exact hzero
  · obtain ⟨source, _, -, h⟩ := run_bind_eq_ok.mp h
    obtain ⟨d, _, -, h⟩ := run_bind_eq_ok.mp h
    obtain ⟨rfl, -⟩ := run_pure_eq_ok.mp h
    rfl
  · obtain ⟨first, _, -, h⟩ := run_bind_eq_ok.mp h
    obtain ⟨u, _, -, h⟩ := run_bind_eq_ok.mp h
    obtain ⟨d, _, -, h⟩ := run_bind_eq_ok.mp h
    obtain ⟨rfl, -⟩ := run_pure_eq_ok.mp h
    rfl

theorem length_le_of_single {v : Series} (h : (c.single.values .all).run.run μ = (.ok v, μ')) :
    v.length ≤ c.limit := by
  obtain ⟨source, _, -, h⟩ := run_bind_eq_ok.mp h
  obtain ⟨b, _, hb, h⟩ := run_bind_eq_ok.mp h
  obtain ⟨rfl, -⟩ := run_pure_eq_ok.mp h
  exact Nat.le_trans b.length_finish_le (length_le_of_collect (Nat.zero_le _) hb)

theorem single_infers {S : List Int} {v : Series}
    (h : (c.single.values (.at S)).run.run μ = (.ok v, μ')) :
    ∃ s μ₁, c.single.shape.run.run μ = (.ok s, μ₁) := by
  obtain ⟨s, μ₁, hs, -⟩ := run_bind_eq_ok.mp h
  exact ⟨s, μ₁, hs⟩

end Comprehension

/-! ### Expressions -/

namespace Expr

variable {w : Setting} {ctx : Context}

/-- Whether an expression is a range, an array literal or a comprehension. -/
def isCollection : Expr → Bool
  | array .. => true
  | e => e.makesRun

/-- Where the length of an expression comes from: a comprehension whose body gives one element each
time is as long as its source. -/
def origin : Expr → Expr
  | comprehension body binder source span =>
    if body.makesRun then comprehension body binder source span else origin source
  | e => e

variable {body source : Expr} {binder : String} {span : Span}

theorem meaning_of_runs (h : body.makesRun) :
    (comprehension body binder source span).meaning w ctx =
      (partsBy (m := Eval) w (meaning w) ctx body binder source span).nested := by
  rw [meaning_eq_meaningBy]
  exact if_pos h

theorem meaning_of_singles (h : ¬ body.makesRun) :
    (comprehension body binder source span).meaning w ctx =
      (partsBy (m := Eval) w (meaning w) ctx body binder source span).single := by
  rw [meaning_eq_meaningBy]
  exact if_neg h

/-- Whether an expression is a comprehension whose body gives one element each time. -/
def takesLength : Expr → Bool
  | comprehension body _ _ _ => !body.makesRun
  | _ => false

theorem origin_of_singles (h : ¬ body.makesRun) :
    (comprehension body binder source span).origin = source.origin := by
  rw [origin, if_neg h]

theorem origin_eq_self {e : Expr} (h : ¬ e.takesLength) : e.origin = e := by
  cases e with
  | comprehension body binder source span =>
    have hruns : body.makesRun := by simpa [takesLength] using h
    rw [origin, if_pos hruns]
  | _ => rfl

/-- Induction from an expression to where its length comes from. -/
theorem induction_on_origin {P : Expr → Prop} (self : ∀ e : Expr, ¬ e.takesLength → P e)
    (singles : ∀ body binder source span, ¬ body.makesRun → P source →
      P (comprehension body binder source span)) (e : Expr) : P e := by
  induction e using induction_on_children with
  | _ e ih =>
    by_cases he : e.takesLength
    · cases e with
      | comprehension body binder source span =>
        have hruns : ¬ body.makesRun := by simpa [takesLength] using he
        exact singles _ _ _ _ hruns (ih source (by simp [children]))
      | _ => cases he
    · exact self e he

/-- A collection that does not take its length from elsewhere keeps to the limit. -/
theorem keepsTo_limit (hlimit : w.limits.maxArrayLength < 0x20000000000000) (ctx : Context)
    {e : Expr} (he : e.isCollection) (hown : ¬ e.takesLength) :
    (e.meaning w ctx).KeepsTo w.limits.maxArrayLength := by
  cases e with
  | array items span =>
    rw [meaning_eq_meaningBy, meaningBy_array]
    exact Meaning.keepsTo_arrayLiteral (Nat.lt_trans hlimit (by decide)) _ _
  | range lower upper span =>
    rw [meaning_eq_meaningBy, meaningBy_range]
    exact Meaning.keepsTo_range hlimit _ _ _ _ _
  | filtered body binder source condition span =>
    rw [meaning_eq_meaningBy, meaningBy_filtered]
    exact (partsBy w (meaning w) ctx body binder source span).keepsTo_filtered _
  | comprehension body binder source span =>
    have hruns : body.makesRun := by simpa [takesLength] using hown
    rw [meaning_of_runs hruns]
    exact (partsBy w (meaning w) ctx body binder source span).keepsTo_nested
  | _ => cases he

theorem keepsTo_limit_or_singles (hlimit : w.limits.maxArrayLength < 0x20000000000000)
    (ctx : Context) {e : Expr} (he : e.isCollection) :
    (e.meaning w ctx).KeepsTo w.limits.maxArrayLength ∨
      ∃ c : Comprehension Eval, c.limit = w.limits.maxArrayLength ∧ e.meaning w ctx = c.single := by
  by_cases hown : e.takesLength
  · cases e with
    | comprehension body binder source span =>
      exact .inr ⟨_, rfl, meaning_of_singles (by simpa [takesLength] using hown)⟩
    | _ => cases hown
  · exact .inl (keepsTo_limit hlimit ctx he hown)

/-- If a shape is found, that of the origin is found from the same memory, and has its length. -/
theorem length_of_origin {e : Expr} {s : Shape}
    (h : (e.meaning (m := Eval) w ctx).shape.run.run μ = (.ok s, μ')) :
    ∃ t μ₁, (e.origin.meaning (m := Eval) w ctx).shape.run.run μ = (.ok t, μ₁) ∧
      t.length = s.length := by
  induction e using induction_on_origin generalizing s μ' with
  | self e hown => exact ⟨s, μ', by rwa [origin_eq_self hown], rfl⟩
  | singles body binder source span hruns ih =>
    rw [meaning_of_singles hruns] at h
    obtain ⟨t, μ₁, ht, hlength⟩ := Comprehension.length_of_single_shape h
    obtain ⟨u, μ₂, hu, hlength'⟩ := ih ht
    rw [origin_of_singles hruns]
    exact ⟨u, μ₂, hu, hlength'.trans hlength⟩

theorem origin_takesNone (e : Expr) : ¬ e.origin.takesLength := by
  induction e using induction_on_origin with
  | self e hown => rwa [origin_eq_self hown]
  | singles body binder source span hruns ih => rwa [origin_of_singles hruns]

/-- The limit on arrays holds for all values of a range, an array literal or a comprehension.  A
shape that is found, by a request for it or before some values are given, has the length that is
found for the origin, and the limit holds for it if the origin is again one of these. -/
theorem collection_keeps_to_limit (hlimit : w.limits.maxArrayLength < 0x20000000000000)
    {e : Expr} (he : e.isCollection) (ctx : Context) (μ : Memory) :
    (∀ v μ', ((e.meaning (m := Eval) w ctx).values .all).run.run μ = (.ok v, μ') →
      v.length ≤ w.limits.maxArrayLength) ∧
    (∀ S v μ', ((e.meaning (m := Eval) w ctx).values (.at S)).run.run μ = (.ok v, μ') →
      ∃ s μ₁, (e.meaning (m := Eval) w ctx).shape.run.run μ = (.ok s, μ₁)) ∧
    ∀ s μ', (e.meaning (m := Eval) w ctx).shape.run.run μ = (.ok s, μ') →
      (∃ t μ₁, (e.origin.meaning (m := Eval) w ctx).shape.run.run μ = (.ok t, μ₁) ∧
        t.length = s.length) ∧
      (e.origin.isCollection → s.length ≤ w.limits.maxArrayLength) := by
  have hshape : ∀ s μ', (e.meaning (m := Eval) w ctx).shape.run.run μ = (.ok s, μ') →
      e.origin.isCollection → s.length ≤ w.limits.maxArrayLength := by
    intro s μ' h horigin
    obtain ⟨t, μ₁, ht, hlength⟩ := length_of_origin h
    exact hlength ▸ (keepsTo_limit hlimit ctx horigin e.origin_takesNone).shape ht
  refine ⟨fun v μ' h => ?_, fun S v μ' h => ?_, fun s μ' h => ⟨length_of_origin h, hshape s μ' h⟩⟩
  · obtain hkeeps | ⟨c, hc, hmeaning⟩ := keepsTo_limit_or_singles hlimit ctx he
    · exact hkeeps.all h
    · rw [hmeaning] at h
      exact hc ▸ Comprehension.length_le_of_single h
  · obtain hkeeps | ⟨c, -, hmeaning⟩ := keepsTo_limit_or_singles hlimit ctx he
    · exact hkeeps.infers h
    · rw [hmeaning] at h ⊢
      exact Comprehension.single_infers h

/-- The expression `i for i = source`. -/
def copied (source : Expr) : Expr :=
  .comprehension (.identifier "i" .none) "i" source .none

/-- Nothing is declared, and arrays may have so many elements. -/
def limitedTo (n : Nat) : Setting := ⟨.empty, { maxArrayLength := n }, .initial⟩

/-- The elements of `[time]` can be copied if one is allowed. -/
theorem copied_array_within_one :
    (limitedTo 1).limits.maxArrayLength < 0x20000000000000 ∧
      (copied (.array [.identifier "time" .none] .none)).isCollection ∧
      ∃ s μ', ((copied (.array [.identifier "time" .none] .none)).meaning (m := Eval) (limitedTo 1)
        .root).shape.run.run ⟨.empty, 0, 0⟩ = (.ok s, μ') ∧ s.length = 1 ∧
          s.length ≤ (limitedTo 1).limits.maxArrayLength := by
  have hlimit : (limitedTo 1).limits.maxArrayLength < 0x20000000000000 := by decide
  have he : (copied (.array [.identifier "time" .none] .none)).isCollection := rfl
  have hshape : ((copied (.array [.identifier "time" .none] .none)).meaning (m := Eval)
      (limitedTo 1) .root).shape.run.run ⟨.empty, 0, 0⟩ = (.ok ⟨1, 1⟩, ⟨.empty, 0, 0⟩) := by
    cbv
  obtain ⟨-, -, h⟩ := collection_keeps_to_limit hlimit he .root ⟨.empty, 0, 0⟩
  exact ⟨hlimit, he, _, _, hshape, rfl, (h _ _ hshape).2 rfl⟩

/-- A builtin may make a source that is too long: the shape of its copy is found nevertheless, and
only all values of the copy are refused. -/
theorem copied_join_beyond_one :
    ((copied (.call "join" [.identifier "time" .none, .identifier "time" .none] .none)).meaning
        (m := Eval) (limitedTo 1) .root).shape.run.run ⟨.empty, 0, 0⟩ =
      (.ok ⟨2, 1⟩, ⟨.empty, 1, 0⟩) ∧
    (((copied (.call "join" [.identifier "time" .none, .identifier "time" .none] .none)).meaning
        (m := Eval) (limitedTo 1) .root).values .all).run.run ⟨.empty, 0, 0⟩ =
      (.error ⟨.arrayTooLarge, ⟨none, .none⟩⟩, ⟨.empty, 1, 0⟩) := by
  constructor <;> cbv

end Expr

end VectorScript
