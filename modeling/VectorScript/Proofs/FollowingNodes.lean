import VectorScript.Proofs.Following

/-!
# Following of nodes

Each kind of node follows a family if its parts do.  A node asks its parts in the same order with a
memory and without one; where a limit decides, the node fails with an error that says so, or passes
under all higher limits too.
-/

namespace VectorScript.Meaning.Follows

open Filter

variable {I : NameTable Series → Prop} {safe : Prop}

section

variable {ι : Type} {items : List ι} {f : ι → Meaning Eval} {F : Nat → ι → Meaning Plain}

theorem mapM_shape (h : ∀ i ∈ items, Follows I safe (f i) fun n => F n i) :
    Eval.Follows I safe ((items.map f).mapM (·.shape)) fun n =>
      (items.map (F n)).mapM (·.shape) := by
  simp only [List.mapM_map]
  exact .mapM fun i hi => (h i hi).shape

theorem mapM_values (h : ∀ i ∈ items, Follows I safe (f i) fun n => F n i) (selection : Selection) :
    Eval.Follows I safe ((items.map f).mapM (·.values selection)) fun n =>
      (items.map (F n)).mapM (·.values selection) := by
  simp only [List.mapM_map]
  exact .mapM fun i hi => (h i hi).values selection

theorem elementwise (site : Site) (check : List Shape → Except EvalError.Cause Shape)
    (combine : List Series → Except EvalError.Cause Series)
    (h : ∀ i ∈ items, Follows I safe (f i) fun n => F n i) :
    Follows I safe (.elementwise site check combine (items.map f)) fun n =>
      .elementwise site check combine (items.map (F n)) where
  shape := .bind (mapM_shape h) fun shapes => .liftAt site (check shapes)
  values
    | .all => .bind (mapM_values h .all) fun values => .liftAt site (combine values)
    | .at indices => by
      refine .bind (mapM_shape h) fun shapes => .bind (.liftAt site (check shapes)) fun s => ?_
      refine .bind ?_ fun values => .bind (.liftAt site (combine values)) fun v => .pure _
      simp only [List.zip_map_left, List.mapM_map]
      refine .mapM fun p hp => ?_
      exact (h p.1 (List.of_mem_zip hp).1).values _

theorem gatherSegments (site : Site) (lengths : List Nat) (d : Nat) (S : List Int)
    {segment : Nat → List Int → Eval Series} {Segment : Nat → Nat → List Int → Plain Series}
    (h : ∀ k wanted, Eval.Follows I safe (segment k wanted) fun n => Segment n k wanted) :
    Eval.Follows I safe (Meaning.gatherSegments site lengths d S segment) fun n =>
      Meaning.gatherSegments site lengths d S (Segment n) := by
  refine .bind (.mapM fun n _ => .count site n) fun starts => .bind (.count site _) fun total => ?_
  refine .bind (.mapM fun k _ => ?_) fun parts => .pure _
  dsimp only
  split_ifs
  · exact .pure none
  · exact (h k _).map some

end

theorem unary (site : Site) (op : UnaryOp) {m : Meaning Eval} {M : Nat → Meaning Plain}
    (h : Follows I safe m M) : Follows I safe (.unary site op m) fun n => .unary site op (M n) := by
  cases op with
  | plus => exact h
  | negate | not | factorial =>
    have hitems : ∀ _ ∈ [()], Follows I safe m M := fun _ _ => h
    exact elementwise site _ _ hitems

theorem binary (site : Site) (op : BinaryOp) {m m' : Meaning Eval} {M M' : Nat → Meaning Plain}
    (h : Follows I safe m M) (h' : Follows I safe m' M') :
    Follows I safe (.binary site op m m') fun n => .binary site op (M n) (M' n) := by
  have hitems : ∀ first ∈ [true, false],
      Follows I safe (if first then m else m') fun n => if first then M n else M' n := by
    intro first _
    cases first
    · exact h'
    · exact h
  exact elementwise site _ _ hitems

theorem conditional (site : Site) {m₁ m₂ m₃ : Meaning Eval} {M₁ M₂ M₃ : Nat → Meaning Plain}
    (h₁ : Follows I safe m₁ M₁) (h₂ : Follows I safe m₂ M₂) (h₃ : Follows I safe m₃ M₃) :
    Follows I safe (.conditional site m₁ m₂ m₃) fun n =>
      .conditional site (M₁ n) (M₂ n) (M₃ n) := by
  refine after (.bind h₂.shape fun s => ?_)
  split_ifs
  · refine .bind (h₂.values .all) fun c => ?_
    dsimp only
    split_ifs
    · exact .bind h₁.shape fun s => .pure (nan s)
    · exact .pure h₁
    · exact .pure h₃
  · have hitems : ∀ k ∈ [0, 1, 2], Follows I safe (if k = 0 then m₁ else if k = 1 then m₂ else m₃)
        fun n => if k = 0 then M₁ n else if k = 1 then M₂ n else M₃ n := by
      intro k _
      split_ifs
      · exact h₁
      · exact h₂
      · exact h₃
    exact .pure (elementwise site _ _ hitems)

theorem index (site : Site) {m m' : Meaning Eval} {M M' : Nat → Meaning Plain}
    (h : Follows I safe m M) (h' : Follows I safe m' M') :
    Follows I safe (.index site m m') fun n => .index site (M n) (M' n) where
  shape := by
    refine .bind h'.shape fun positions => ?_
    split_ifs
    · exact .fail site _
    · exact .bind h.shape fun _ => .pure _
  values selection := by
    refine .bind (h'.values selection) fun positions => ?_
    split_ifs
    · exact .fail site _
    · exact h.values _

theorem swizzle (site : Site) (components : String) {m : Meaning Eval} {M : Nat → Meaning Plain}
    (h : Follows I safe m M) :
    Follows I safe (.swizzle site components m) fun n => .swizzle site components (M n) where
  shape := .bind h.shape fun _ => .bind (.liftAt site _) fun _ => .pure _
  values selection := .bind (h.values selection) fun _ => .bind (.liftAt site _) fun _ => .pure _

/-! ### Ranges -/

theorem bound (site : Site) {m : Meaning Eval} {M : Nat → Meaning Plain} (h : Follows I safe m M) :
    Eval.Follows I safe (Meaning.bound site m) fun n => Meaning.bound site (M n) := by
  refine .bind h.shape fun s => ?_
  split_ifs
  · exact .fail site _
  · exact .bind (h.values .all) fun v => .pure _

theorem ofBounds_lasts (limit : Nat) (lower upper : Float32) :
    Range.ofBounds limit lower upper = .error .arrayTooLarge ∨
      ∀ᶠ n in atTop, Range.ofBounds n lower upper = Range.ofBounds limit lower upper := by
  cases h : Range.ofBounds limit lower upper with
  | ok r => exact .inr (Foretells.ofBounds_eq_ok h).2.2
  | error cause =>
    unfold Range.ofBounds at h ⊢
    by_cases hfinite : !lower.isFinite || !upper.isFinite
    · simp only [if_pos hfinite] at h ⊢
      exact .inr (.of_forall fun _ => h)
    simp only [if_neg hfinite] at h ⊢
    by_cases horder : Scalar.toInt upper < Scalar.toInt lower
    · simp only [if_pos horder] at h ⊢
      exact .inr (.of_forall fun _ => h)
    simp only [if_neg horder] at h
    split_ifs at h
    exact .inl h.symm

theorem range (site lowerSite upperSite : Site) (limit : Nat) {m m' : Meaning Eval}
    {M M' : Nat → Meaning Plain} (h : Follows I safe m M) (h' : Follows I safe m' M') :
    Follows I safe (.range site lowerSite upperSite limit m m') fun n =>
      .range site lowerSite upperSite n (M n) (M' n) := by
  refine after (.bind (bound lowerSite h) fun lo => .bind (bound upperSite h') fun hi =>
    .bind (.liftAt_of_lasts ?_) fun r => .pure ⟨.pure _, fun _ => .pure _⟩)
  exact (ofBounds_lasts limit lo hi).imp_left fun h => ⟨_, h, rfl⟩

/-! ### Calls -/

section

variable {ι : Type} {items : List ι} {f : ι → Meaning Eval} {F : Nat → ι → Meaning Plain}

theorem ofKernel (site : Site) (name : String) (kernel : Kernel)
    (h : ∀ i ∈ items, Follows I safe (f i) fun n => F n i) :
    Follows I safe (.ofKernel site name (items.map f) kernel) fun n =>
      .ofKernel site name (items.map (F n)) kernel := by
  cases kernel with
  | map g => exact elementwise site _ _ h
  | zip g => exact elementwise site _ _ h
  | reduce g =>
    have hhead : Follows I safe ((items.map f).headD default) fun n =>
        (items.map (F n)).headD default := by
      cases items with
      | nil => exact ⟨.pure _, fun _ => .pure _⟩
      | cons i items => exact h i List.mem_cons_self
    exact ⟨.bind hhead.shape fun s => .pure _,
      fun selection => .bind (hhead.values .all) fun v => .pure _⟩
  | whole kernel rule =>
    exact ⟨.bind (mapM_shape h) fun shapes => .bind (.liftAt site _) fun s =>
        .bind (.count site _) fun n => .pure _,
      fun selection => .bind (mapM_values h .all) fun values => .bind (.liftAt site _) fun v =>
        .pure _⟩
  | reserved => exact fail site _

theorem ofBuiltinCall (site : Site) (name : String)
    (h : ∀ i ∈ items, Follows I safe (f i) fun n => F n i) :
    Follows I safe (.ofBuiltinCall site name (items.map f)) fun n =>
      .ofBuiltinCall site name (items.map (F n)) := by
  simp only [Meaning.ofBuiltinCall, List.length_map]
  cases Catalog.lookup name items.length with
  | error cause => exact fail site cause
  | ok found =>
    cases found with
    | none =>
      dsimp only
      split_ifs <;> exact fail site _
    | some b =>
      have hkernel := ofKernel site b.name b.kernel h
      exact ⟨hkernel.shape, fun selection => .bind .countBuiltin fun _ => hkernel.values selection⟩

theorem call {applied : List Series → Meaning Eval} {Applied : Nat → List Series → Meaning Plain}
    {deferred : Meaning Eval} {Deferred : Nat → Meaning Plain}
    (h : ∀ i ∈ items, Follows I safe (f i) fun n => F n i)
    (happlied : ∀ vs, vs.length = items.length → Follows I safe (applied vs) fun n => Applied n vs)
    (hdeferred : Follows I safe deferred Deferred) :
    Follows I safe (.call (items.map f) applied deferred) fun n =>
      .call (items.map (F n)) (Applied n) (Deferred n) where
  shape := hdeferred.shape
  values
    | .all => by
      simp only [Meaning.call, List.mapM_map]
      exact .mapM_bind (fun i hi => (h i hi).values .all) fun vs hvs =>
        (happlied vs hvs).values .all
    | .at indices => hdeferred.values (.at indices)

end

/-! ### Array literals -/

theorem arrayShape_lasts (site : Site) (limit : Nat) (rules : List Item.Rules)
    (shapes : List Shape) :
    Lasts (arrayShape site limit rules shapes) fun n => arrayShape site n rules shapes := by
  unfold arrayShape
  dsimp only
  cases (rules.zip shapes).foldlM
      (addItem (((shapes.find? (0 < ·.length)).map Shape.dimension).getD 1)) 0 with
  | error e => exact .refl _
  | ok length =>
    simp only [ok_bind]
    split_ifs with hlimit
    · exact .inl ⟨_, rfl, rfl⟩
    · refine .inr ((eventually_ge_atTop length).mono fun n hn => ?_)
      simp only [if_neg (Nat.not_lt.mpr hn)]

section

variable {ι : Type} {items : List ι} {rules : ι → Item.Rules} {f : ι → Meaning Eval}
  {F : Nat → ι → Meaning Plain}

theorem map_toRules {m : Type → Type} (g : ι → Meaning m) :
    (items.map fun i => (⟨rules i, g i⟩ : Item m)).map Item.toRules =
      items.map rules := by
  rw [List.map_map]
  rfl

theorem getD_item (h : ∀ i ∈ items, Follows I safe (f i) fun n => F n i) (k : Nat) :
    Follows I safe
      ((items.map fun i => (⟨rules i, f i⟩ : Item Eval)).getD k default).meaning
      fun n => ((items.map fun i =>
        (⟨rules i, F n i⟩ : Item Plain)).getD k default).meaning := by
  by_cases hk : k < items.length
  · simp only [List.getD_eq_getElem?_getD, List.getElem?_map, List.getElem?_eq_getElem hk,
      Option.map_some, Option.getD_some]
    exact h _ (List.getElem_mem hk)
  · simp only [List.getD_eq_getElem?_getD, List.getElem?_map,
      List.getElem?_eq_none (Nat.le_of_not_lt hk), Option.map_none, Option.getD_none]
    exact ⟨.pure _, fun _ => .pure _⟩

theorem arrayLiteral (site : Site) (limit : Nat)
    (h : ∀ i ∈ items, Follows I safe (f i) fun n => F n i) :
    Follows I safe
      (.arrayLiteral site limit (items.map fun i => ⟨rules i, f i⟩)) fun n =>
      .arrayLiteral site n (items.map fun i => ⟨rules i, F n i⟩) := by
  have hshapes : Eval.Follows I safe
      ((items.map fun i => (⟨rules i, f i⟩ : Item Eval)).mapM (·.meaning.shape))
      fun n => (items.map fun i => (⟨rules i, F n i⟩ : Item Plain)).mapM
        (·.meaning.shape) := by
    simp only [List.mapM_map]
    exact .mapM fun i hi => (h i hi).shape
  have hvalues : Eval.Follows I safe
      ((items.map fun i => (⟨rules i, f i⟩ : Item Eval)).mapM
        (·.meaning.values .all))
      fun n => (items.map fun i => (⟨rules i, F n i⟩ : Item Plain)).mapM
        (·.meaning.values .all) := by
    simp only [List.mapM_map]
    exact .mapM fun i hi => (h i hi).values .all
  refine ⟨?_, fun selection => ?_⟩
  · refine .bind hshapes fun shapes => ?_
    simp only [map_toRules]
    exact .ofExcept (arrayShape_lasts site limit _ shapes)
  · cases selection with
    | all =>
      refine .bind hvalues fun values => ?_
      simp only [map_toRules]
      exact .bind (.ofExcept (arrayShape_lasts site limit _ _)) fun s => .ofExcept (.refl _)
    | «at» indices =>
      refine .bind hshapes fun shapes => ?_
      simp only [map_toRules]
      refine .bind (.ofExcept (arrayShape_lasts site limit _ shapes)) fun s => ?_
      match items, h with
      | [], h => exact gatherSegments site _ _ _ fun k wanted => (getD_item h k).values _
      | [i], h => exact (h i List.mem_cons_self).values _
      | i :: j :: rest, h =>
        exact gatherSegments site _ _ _ fun k wanted => (getD_item h k).values _

end

/-! ### Comprehensions -/

section

open Comprehension

theorem append_lasts (r : Rules) (b : Builder) (v : Series) :
    Lasts (r.append b v) fun n => { r with limit := n }.append b v := by
  unfold Rules.append
  dsimp only
  split_ifs with hone hzero
  · exact .refl _
  · exact .refl _
  · cases b.push v with
    | error e => exact .refl _
    | ok b' =>
      dsimp only
      split_ifs with hlimit
      · exact .inl ⟨_, rfl, rfl⟩
      · refine .inr ((eventually_ge_atTop b'.length).mono fun n hn => ?_)
        simp only [if_neg (Nat.not_lt.mpr hn)]

/-- The parts of a comprehension follow those of a family under growing limits. -/
structure PartsFollow (I : NameTable Series → Prop) (safe : Prop) (c : Comprehension Eval)
    (C : Nat → Comprehension Plain) : Prop where
  rules : ∀ n, (C n).toRules = { c.toRules with limit := n }
  source : Follows I safe c.source fun n => (C n).source
  body : ∀ x, Follows I safe (c.body x) fun n => (C n).body x
  varies : ∀ n, (C n).varies = c.varies

variable {c : Comprehension Eval} {C : Nat → Comprehension Plain}

theorem collect (h : PartsFollow I safe c C) (source : Series) (b : Builder) :
    Eval.Follows I safe (c.collect source b) fun n => (C n).collect source b := by
  unfold Comprehension.collect
  simp only [h.rules]
  exact .foldlM fun b i _ => .bind ((h.body _).values .all) fun v => .ofExcept (append_lasts _ b v)

theorem filtered (h : PartsFollow I safe c C) {condition : Series → Meaning Eval}
    {Condition : Nat → Series → Meaning Plain}
    (hcondition : ∀ x, Follows I safe (condition x) fun n => Condition n x) :
    Follows I safe (c.filtered condition) fun n => (C n).filtered (Condition n) := by
  have hsite : ∀ n, (C n).site = c.site := fun n => by rw [h.rules n]
  unfold Comprehension.filtered
  simp only [hsite]
  refine after (.bind (h.source.values .all) fun source => .bind ?_ fun b =>
    .bind (.liftAt c.site b.build) fun _ => .pure (const _))
  unfold Comprehension.collectWhen
  simp only [h.rules]
  refine .foldlM fun b i _ => .bind ((hcondition _).values .all) fun v => ?_
  split_ifs
  · exact .bind ((h.body _).values .all) fun v => .ofExcept (append_lasts _ b v)
  · exact .pure b

theorem singleShape (h : PartsFollow I safe c C) :
    Eval.Follows I safe c.singleShape fun n => (C n).singleShape := by
  unfold Comprehension.singleShape
  simp only [h.rules, h.varies]
  refine .bind h.source.shape fun s => ?_
  split_ifs
  · exact .pure _
  · refine .bind (h.source.values .all) fun source => .bind ?_ fun d => .pure _
    exact .foldlM fun d i _ => .bind (h.body _).shape fun t => .ofExcept (.refl _)
  · exact .bind (h.source.values _) fun first => .bind (h.body first).shape fun t =>
      .bind (.ofExcept (.refl _)) fun d => .pure _

theorem single (h : PartsFollow I safe c C) : Follows I safe c.single fun n => (C n).single where
  shape := singleShape h
  values
    | .all => .bind (h.source.values .all) fun source => .bind (collect h source _) fun _ => .pure _
    | .at _ => .bind (singleShape h) fun _ => .bind (h.source.values _) fun source =>
        .bind (collect h source _) fun _ => .pure _

theorem runs (h : PartsFollow I safe c C) (source : Series) :
    Eval.Follows I safe (c.runs source) fun n => (C n).runs source := by
  unfold Comprehension.runs
  simp only [h.rules]
  refine .bind (.foldlM fun r i _ => .bind (h.body _).shape fun s => .ofExcept (.refl _))
    fun r => ?_
  split_ifs with hlimit
  · exact .fail_of_isResource (show EvalError.isResource ⟨.arrayTooLarge, c.site⟩ from rfl) _
  · refine .congr (.pure r) ((eventually_ge_atTop r.total).mono fun n hn => ?_)
    rw [if_neg (Nat.not_lt.mpr hn)]

theorem nested (h : PartsFollow I safe c C) : Follows I safe c.nested fun n => (C n).nested := by
  refine after (.bind (h.source.values .all) fun source => .bind (runs h source) fun r => .pure ?_)
  have hsite : ∀ n, (C n).site = c.site := fun n => by rw [h.rules n]
  refine ⟨.pure _, fun selection => ?_⟩
  cases selection with
  | all =>
    simp only [Comprehension.ofRuns, hsite]
    exact .bind (collect h source _) fun b => .liftAt c.site b.build
  | «at» indices =>
    simp only [Comprehension.ofRuns, hsite]
    exact gatherSegments c.site _ _ _ fun k wanted => (h.body _).values _

theorem comprehension (h : PartsFollow I safe c C) :
    Follows I safe c.meaning fun n => (C n).meaning := by
  unfold Comprehension.meaning
  simp only [h.rules]
  split_ifs
  · exact nested h
  · exact single h

end

end VectorScript.Meaning.Follows
