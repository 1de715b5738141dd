import VectorScript.Proofs.EvaluationCases
import VectorScript.Proofs.ForetellingCollections
import VectorScript.Proofs.KernelLaws
import VectorScript.Proofs.SeriesText

/-!
# Values of literals

An expression of constants has one value in every setting, and a request for it neither fails nor
touches the memory.  Together with the reading of texts: the text of a series of finite numbers is
evaluated to the series itself.

* `Meaning.Answers`: all values are known.
* `Expr.answers_ofSeries`: the expression of a series has it as its value.
* `evaluateSource_text`: so does its text.
-/

namespace VectorScript

namespace Meaning

variable {m : Type → Type} [Answering m] [LawfulMonad m] {site : Site}

/-- All values are known without further work. -/
def Answers (f : Meaning m) (v : Series) : Prop := f.values .all = pure v

theorem answers_delay {f : Unit → Meaning m} {v : Series} (h : (f ()).Answers v) :
    (Meaning.delay f).Answers v := by
  show pure () >>= _ = _
  rw [pure_bind]
  exact h

theorem mapM_answers {ι : Type} {f : ι → Meaning m} {items : List ι} {vs : List Series}
    (h : List.Forall₂ (fun i v => (f i).Answers v) items vs) :
    items.mapM (fun i => (f i).values .all) = pure vs := by
  induction h with
  | nil => rw [List.mapM_nil]
  | cons hf _ ih => rw [List.mapM_cons, hf, pure_bind, ih, pure_bind]

theorem answers_negate {f : Meaning m} {x : Float32} (h : f.Answers (.scalar x)) :
    (unary site .negate f).Answers (.scalar (-x)) := by
  have hvalues : [f].mapM (·.values .all) = pure [.scalar x] := mapM_answers (.cons h .nil)
  have hmap : (Series.scalar x).map (fun x => -x) = .scalar (-x) := by
    simp [Series.map, Series.scalar]
  show [f].mapM (·.values .all) >>= _ = _
  rw [hvalues, pure_bind, ← hmap]
  rfl

theorem vectorOf_scalars (xs : List Float32) :
    vectorOf (xs.map Series.scalar) = .ok (.vector xs) := by
  have hshapes : (xs.map Series.scalar).map Series.shape = List.replicate xs.length .scalar := by
    rw [List.map_map, ← List.map_const']
    rfl
  have hlength : Shape.commonLength (List.replicate xs.length .scalar) = 1 := by
    simp [Shape.commonLength, Shape.scalar]
  have hshape : vectorShape (List.replicate xs.length .scalar) = .ok ⟨1, xs.length⟩ := by
    refine vectorShape_eq_ok.mpr ⟨fun t ht => ?_, ?_⟩
    · rw [List.eq_of_mem_replicate ht]
      rfl
    · rw [hlength, List.length_replicate]
  rw [vectorOf, hshapes, hshape]
  refine congrArg (fun channels => Except.ok (Series.mk 1 channels)) ?_
  rw [List.map_map]
  refine List.map_congr_left fun x _ => ?_
  have hread : ∀ i, (Series.scalar x).broadcastAt i 0 = x := fun _ => rfl
  exact Array.ext (by simp) fun i _ _ => by simp [hread]

/-- A vector of numbers has them as its components. -/
theorem answers_vector {fs : List (Meaning m)} {xs : List Float32}
    (h : List.Forall₂ (fun f x => f.Answers (.scalar x)) fs xs) :
    (vector site fs).Answers (.vector xs) := by
  have hvalues : fs.mapM (·.values .all) = pure (xs.map Series.scalar) :=
    mapM_answers (List.forall₂_map_right_iff.mpr h)
  show fs.mapM (·.values .all) >>= _ = _
  rw [hvalues, pure_bind, vectorOf_scalars]
  rfl

/-- An array of single elements has them one after the other. -/
theorem answers_arrayLiteral {d limit : Nat} {items : List (Item m)} {vs : List Series}
    (h : List.Forall₂ (fun item v => item.meaning.Answers v) items vs)
    (hregular : ∀ v ∈ vs, v.Regular) (hshape : ∀ v ∈ vs, v.shape = ⟨1, d⟩) (hd : 0 < d)
    (hpos : 0 < vs.length) (hlimit : vs.length ≤ limit) (hmax : vs.length ≤ maxLength) :
    (arrayLiteral site limit items).Answers (.concat d vs) := by
  have hdim : ∀ v ∈ vs, v.dimension = d := fun v hv => congrArg Shape.dimension (hshape v hv)
  have htotal : Routing.total (vs.map Series.length) = vs.length := by
    rw [Routing.total_eq_length, List.length_map]
    intro length hlength
    obtain ⟨v, hv, rfl⟩ := List.mem_map.mp hlength
    exact congrArg Shape.length (hshape v hv)
  have harray : arrayShape site limit (items.map Item.toRules) (vs.map Series.shape) =
      .ok ⟨vs.length, d⟩ := by
    -- items and shapes by their positions
    have hrules : items.map Item.toRules =
        (List.range vs.length).map fun k => (items.getD k default).toRules := by
      refine List.ext_getElem (by simp [h.length_eq]) fun k hk _ => ?_
      rw [List.length_map] at hk
      simp [hk]
    have hshapes : vs.map Series.shape = (List.range vs.length).map fun _ => ⟨1, d⟩ := by
      rw [List.map_congr_left hshape, List.map_const', List.map_const', List.length_range]
    have hones : Routing.total ((List.range vs.length).map fun _ => 1) = vs.length := by
      rw [Routing.total_eq_length (by simp), List.length_map, List.length_range]
    rw [hrules, hshapes]
    refine Foretells.arrayShape_eq_ok.mpr ⟨fun _ _ => ⟨fun _ => rfl, .inl (Nat.le_refl 1)⟩,
      fun hempty => absurd (hempty 0 hpos) Nat.one_ne_zero, ?_, hlimit⟩
    rw [hones, Nat.min_eq_left hmax]
  have hconcat : concatenate site d vs = .ok (.concat d vs) :=
    (Foretells.concatenate_eq_ok hd fun v hv => ⟨hregular v hv, hdim v hv ▸ hd⟩).mpr
      ⟨fun v hv _ => hdim v hv, htotal.trans_le hmax, rfl⟩
  show items.mapM (·.meaning.values .all) >>= _ = _
  rw [mapM_answers h, pure_bind, harray]
  show pure _ >>= _ = _
  rw [pure_bind, hconcat]
  rfl

end Meaning

/-! ### Expressions of series -/

namespace Expr

variable {m : Type → Type} [Answering m] [LawfulMonad m] {w : Setting} {ctx : Context} {e : Expr}

/-- Items that are those of a list up to spans, one by one. -/
theorem forall₂_of_plainAll {ι : Type} {P : ι → Prop} {f : ι → Expr} :
    ∀ {items : List Expr} {xs : List ι}, plainAll items = plainAll (xs.map f) → (∀ x ∈ xs, P x) →
      List.Forall₂ (fun item x => P x ∧ item.plain = (f x).plain) items xs
  | [], [], _, _ => .nil
  | [], x :: xs, h, _ => by simp [plainAll] at h
  | item :: items, [], h, _ => by simp [plainAll] at h
  | item :: items, x :: xs, h, hxs => by
    obtain ⟨hitem, hitems⟩ := List.cons.inj h
    obtain ⟨hx, hxs⟩ := List.forall_mem_cons.mp hxs
    exact .cons ⟨hx, hitem⟩ (forall₂_of_plainAll hitems hxs)

theorem answers_ofNumber {x : Float32} (hx : x.isFinite) (h : e.plain = (ofNumber x).plain) :
    (e.meaning w ctx : Meaning m).Answers (.scalar x) := by
  unfold ofNumber at h
  split_ifs at h
  · cases e with
    | unary op operand span =>
      cases operand with
      | constant y span' =>
        obtain ⟨rfl, rfl⟩ : op = .negate ∧ y = -x := by simpa [plain] using h
        have hoperand : (Meaning.delay fun _ => (Expr.constant (-x) span').meaning w ctx :
            Meaning m).Answers (.scalar (-x)) :=
          Meaning.answers_delay (by rw [meaning_eq_meaningBy]; rfl)
        have hnegate : (Meaning.unary (ctx.site span) .negate _).Answers (.scalar (- -x)) :=
          Meaning.answers_negate hoperand
        rw [Scalar.neg_neg hx] at hnegate
        rw [meaning_eq_meaningBy]
        exact hnegate
      | _ => simp [plain] at h
    | _ => simp [plain] at h
  · cases e with
    | constant y span =>
      obtain rfl : y = x := by simpa [plain] using h
      rw [meaning_eq_meaningBy]
      rfl
    | _ => simp [plain] at h

theorem answers_ofElement {xs : List Float32} (hxs : ∀ x ∈ xs, x.isFinite)
    (h : e.plain = (ofElement xs).plain) : (e.meaning w ctx : Meaning m).Answers (.vector xs) := by
  unfold ofElement at h
  split at h
  · exact answers_ofNumber (hxs _ List.mem_cons_self) h
  · cases e with
    | vector items span =>
      have hplain : plainAll items = plainAll (xs.map ofNumber) := by
        simpa only [plain, vector.injEq, and_true] using h
      rw [meaning_eq_meaningBy, meaningBy_vector]
      apply Meaning.answers_vector
      rw [List.forall₂_map_left_iff]
      refine (forall₂_of_plainAll hplain hxs).imp fun item x hitem => ?_
      exact Meaning.answers_delay (answers_ofNumber hitem.1 hitem.2)
    | _ => simp [plain] at h

end Expr

namespace Series

variable {v : Series}

theorem read_numbersAt {i c : Nat} (hc : c < v.dimension) :
    (vector (v.numbersAt i)).read 0 c = v.read i c := by
  have hc' : c < v.channels.length := hc
  rw [read, read, channel, channel, readAt_natCast]
  simp [vector, numbersAt, hc', readAt]

theorem shape_numbersAt (v : Series) (i : Nat) :
    (vector (v.numbersAt i)).shape = ⟨1, v.dimension⟩ := by
  simp [vector, numbersAt, shape, dimension]

theorem vector_numbersAt (hv : v.Regular) (hone : v.length = 1) : vector (v.numbersAt 0) = v := by
  refine ext_read (regular_vector _) hv ?_ fun i hi c hc => ?_
  · rw [shape_numbersAt, shape, hone]
  · have hi : i = 0 := by
      have hlength : (vector (v.numbersAt 0)).length = 1 := rfl
      omega
    have hdimension : (vector (v.numbersAt 0)).dimension = v.dimension :=
      congrArg Shape.dimension (v.shape_numbersAt 0)
    subst hi
    exact read_numbersAt (hdimension ▸ hc)

/-- A series is its elements one after the other. -/
theorem concat_numbersAt (hv : v.Regular) :
    concat v.dimension ((List.range v.length).map fun i => vector (v.numbersAt i)) = v := by
  have huniform : Uniform v.dimension
      ((List.range v.length).map fun i => vector (v.numbersAt i)) := by
    intro u hu
    obtain ⟨i, -, rfl⟩ := List.mem_map.mp hu
    exact ⟨regular_vector _, fun _ => congrArg Shape.dimension (v.shape_numbersAt i)⟩
  have hone : ∀ u ∈ (List.range v.length).map fun i => vector (v.numbersAt i), u.length = 1 := by
    intro u hu
    obtain ⟨i, -, rfl⟩ := List.mem_map.mp hu
    rfl
  have hlength : (concat v.dimension
      ((List.range v.length).map fun i => vector (v.numbersAt i))).length = v.length := by
    rw [length_concat, Routing.total_eq_length]
    · simp
    · intro n hn
      obtain ⟨u, hu, rfl⟩ := List.mem_map.mp hn
      exact hone u hu
  refine ext_read (regular_concat huniform) hv ?_ fun i hi c hc => ?_
  · rw [shape, hlength, dimension_concat]
    rfl
  · rw [hlength] at hi
    rw [dimension_concat] at hc
    rw [read_concat_singles huniform hone hc (by simpa using hi)]
    simpa using read_numbersAt hc

end Series

/-- The expression of a series has it as its value. -/
theorem Expr.answers_ofSeries {m : Type → Type} [Answering m] [LawfulMonad m] {w : Setting}
    {ctx : Context} {e : Expr} {v : Series} (hv : v.WellFormed)
    (hlimit : v.length ≤ w.limits.maxArrayLength)
    (hfinite : ∀ i < v.length, ∀ x ∈ v.numbersAt i, x.isFinite)
    (h : e.plain = (ofSeries v).plain) : (e.meaning w ctx : Meaning m).Answers v := by
  unfold ofSeries at h
  split_ifs at h with hone
  · rw [← Series.vector_numbersAt hv.regular hone]
    exact answers_ofElement (hfinite 0 (by omega)) h
  · cases e with
    | array items span =>
      have hplain : plainAll items =
          plainAll ((List.range v.length).map fun i => ofElement (v.numbersAt i)) := by
        simpa only [plain, array.injEq, and_true] using h
      have hcount : ((List.range v.length).map fun i => Series.vector (v.numbersAt i)).length =
          v.length := by simp
      rw [meaning_eq_meaningBy, meaningBy_array, ← Series.concat_numbersAt hv.regular]
      refine Meaning.answers_arrayLiteral ?_ (fun u hu => ?_) (fun u hu => ?_)
        hv.filled.dimension_pos ?_ ?_ ?_
      · rw [List.forall₂_map_left_iff, List.forall₂_map_right_iff]
        refine (forall₂_of_plainAll hplain fun i hi => List.mem_range.mp hi).imp ?_
        intro item i hitem
        exact Meaning.answers_delay (f := fun _ => item.meaning w ctx)
          (answers_ofElement (hfinite i hitem.1) hitem.2)
      · obtain ⟨i, -, rfl⟩ := List.mem_map.mp hu
        exact Series.regular_vector _
      · obtain ⟨i, -, rfl⟩ := List.mem_map.mp hu
        exact v.shape_numbersAt i
      · rw [hcount]
        exact hv.filled.length_pos
      · rw [hcount]
        exact hlimit
      · rw [hcount]
        exact hv.filled.length_le
    | _ => simp [plain] at h

/-! ### Texts -/

/-- The text of a series of finite numbers with one to four components is evaluated to the series
itself, in every session that allows its length.  All that is asked of numerals is that those of the
magnitudes are read back. -/
theorem evaluateSource_text (s : Session) (v : Series) (hv : v.WellFormed) (hfour : v.dimension ≤ 4)
    (hlimit : v.length ≤ s.limits.maxArrayLength)
    (hfinite : ∀ values ∈ v.channels, ∀ x ∈ values, x.isFinite)
    (hnumerals : ∀ values ∈ v.channels, ∀ x ∈ values,
      Scalar.read? (Scalar.text (Scalar.magnitude x)) = some (Scalar.magnitude x)) :
    s.evaluateSource v.text = (.ok v, s) := by
  have hmem : ∀ i < v.length, ∀ x ∈ v.numbersAt i, ∃ values ∈ v.channels, x ∈ values := by
    intro i hi x hx
    obtain ⟨values, hvalues, rfl⟩ := List.mem_map.mp hx
    have hsize := hv.regular values hvalues
    refine ⟨values, hvalues, ?_⟩
    rw [Array.getD_eq_getD_getElem?, Array.getElem?_eq_getElem (by omega)]
    exact Array.getElem_mem _
  have hfinite' : ∀ i < v.length, ∀ x ∈ v.numbersAt i, x.isFinite := by
    intro i hi x hx
    obtain ⟨values, hvalues, hx⟩ := hmem i hi x hx
    exact hfinite values hvalues x hx
  obtain ⟨e, hread, hplain⟩ := Series.readExpr_text hv.filled.length_pos hv.filled.dimension_pos
    hfour hfinite' fun i hi x hx => by
      obtain ⟨values, hvalues, hx⟩ := hmem i hi x hx
      exact hnumerals values hvalues x hx
  have hvalue : (e.meaning s.setting .root : Meaning Eval).values .all = pure v :=
    Expr.answers_ofSeries hv hlimit hfinite' hplain
  rw [Session.evaluateSource, hread]
  simp only [Session.evaluateExpr, Session.meaning, hvalue]
  rfl

/-- Three points, with a negative zero, the smallest scalar and a large one among their numbers. -/
def scatteredPoints : Series :=
  ⟨3, [#[-0.0, 1.5, -3.25], #[.ofBits 1, -.ofBits 0x7f7fffff, 0.1]]⟩

example : (⟨1, [#[-0.0], #[1.5]]⟩ : Series).text = "(-0, 1.5)" := by decide +kernel

theorem evaluateSource_scatteredPoints :
    scatteredPoints.WellFormed ∧ scatteredPoints.dimension ≤ 4 ∧
      scatteredPoints.length ≤ Session.empty.limits.maxArrayLength ∧
      (∀ values ∈ scatteredPoints.channels, ∀ x ∈ values, x.isFinite) ∧
      (∀ values ∈ scatteredPoints.channels, ∀ x ∈ values,
        Scalar.read? (Scalar.text (Scalar.magnitude x)) = some (Scalar.magnitude x)) ∧
      Session.empty.evaluateSource scatteredPoints.text = (.ok scatteredPoints, .empty) := by
  have hwf : scatteredPoints.WellFormed :=
    ⟨by unfold Series.Regular; decide, ⟨by decide, by decide, by decide⟩⟩
  have hfinite : ∀ values ∈ scatteredPoints.channels, ∀ x ∈ values, x.isFinite := by decide +kernel
  have hnumerals : ∀ values ∈ scatteredPoints.channels, ∀ x ∈ values,
      Scalar.read? (Scalar.text (Scalar.magnitude x)) = some (Scalar.magnitude x) := by
    decide +kernel
  exact ⟨hwf, by decide, by decide, hfinite, hnumerals,
    evaluateSource_text .empty scatteredPoints hwf (by decide) (by decide) hfinite hnumerals⟩

end VectorScript
