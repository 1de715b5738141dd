import VectorScript.Evaluation
import VectorScript.Proofs.KernelErrors
import VectorScript.Proofs.Simulation

/-!
# Simulation of nodes

Each kind of node keeps a simulation if its parts do, and if errors are allowed at its site: a node
asks its parts in the same order on both sides, and raises errors of its own that are no cycles.
-/

namespace VectorScript

/-! ### Causes that are no cycles -/

theorem noCycle_differing {α : Type} (r : Except DimensionMismatch α) :
    NoCycle (Meaning.differing r) :=
  .mapError fun _ _ => rfl

theorem noCycle_vectorShape (shapes : List Shape) : NoCycle (Meaning.vectorShape shapes) := by
  refine .ite (.error rfl) ?_
  exact .bind (noCycle_differing _) fun _ => .ok _

theorem noCycle_vectorOf (values : List Series) : NoCycle (Meaning.vectorOf values) :=
  .bind (noCycle_vectorShape _) fun _ => .ok _

theorem noCycle_channelsOf (components : String) (dimension : Nat) :
    NoCycle (Meaning.channelsOf components dimension) :=
  .ite (.ok _) (.error rfl)

theorem noCycle_ofBounds (limit : Nat) (lower upper : Float32) :
    NoCycle (Range.ofBounds limit lower upper) :=
  .ite (.error rfl) (.ite (.error rfl) (.ite (.error rfl) (.ok _)))

theorem noCycle_of_blames {α : Type} {name : String} {x : Except EvalError.Cause α}
    (h : FailsOnly (EvalError.Cause.Blames name) x) : NoCycle x := by
  refine h.mono fun cause hcause => ?_
  cases hcause <;> rfl

theorem noCycle_lookup (name : String) (count : Nat) : NoCycle (Catalog.lookup name count) := by
  unfold Catalog.lookup
  dsimp only
  split
  · exact .ok _
  · exact .ite (.ok _) (.error rfl)

namespace Simulation

variable {m m' : Type → Type} [Answering m] [Answering m'] [LawfulMonad m] [LawfulMonad m']
  {S : Simulation m m'} {site : Site}

namespace Matches

/-! ### Element-wise nodes -/

section

variable {ι : Type} {items : List ι} {f : ι → Meaning m} {g : ι → Meaning m'}

theorem mapM_shape (h : ∀ i ∈ items, S.Matches (f i) (g i)) :
    S.Rel ((items.map f).mapM (·.shape)) ((items.map g).mapM (·.shape)) := by
  simp only [List.mapM_map]
  exact Simulation.mapM fun i hi => (h i hi).shape

theorem mapM_values (h : ∀ i ∈ items, S.Matches (f i) (g i)) (selection : Selection) :
    S.Rel ((items.map f).mapM (·.values selection)) ((items.map g).mapM (·.values selection)) := by
  simp only [List.mapM_map]
  exact Simulation.mapM fun i hi => (h i hi).values selection

theorem elementwise (hsite : S.Allows site) {check : List Shape → Except EvalError.Cause Shape}
    {combine : List Series → Except EvalError.Cause Series}
    (hcheck : ∀ shapes, NoCycle (check shapes)) (hcombine : ∀ values, NoCycle (combine values))
    (h : ∀ i ∈ items, S.Matches (f i) (g i)) :
    S.Matches (.elementwise site check combine (items.map f))
      (.elementwise site check combine (items.map g)) where
  shape := S.bind (mapM_shape h) fun shapes => liftAt hsite (hcheck shapes)
  values
    | .all => S.bind (mapM_values h .all) fun values => liftAt hsite (hcombine values)
    | .at indices => by
      refine S.bind (mapM_shape h) fun shapes => S.bind (liftAt hsite (hcheck shapes)) fun s => ?_
      refine S.bind ?_ fun values => S.bind (liftAt hsite (hcombine values)) fun v => S.pure _
      simp only [List.zip_map_left, List.mapM_map]
      refine Simulation.mapM fun p hp => ?_
      exact (h p.1 (List.of_mem_zip hp).1).values _

theorem mapped (hsite : S.Allows site) (k : Float32 → Float32)
    (h : ∀ i ∈ items, S.Matches (f i) (g i)) :
    S.Matches (.mapped site k (items.map f)) (.mapped site k (items.map g)) :=
  elementwise hsite (fun _ => .ok _) (fun _ => .ok _) h

theorem vector (hsite : S.Allows site) (h : ∀ i ∈ items, S.Matches (f i) (g i)) :
    S.Matches (.vector site (items.map f)) (.vector site (items.map g)) :=
  elementwise hsite noCycle_vectorShape noCycle_vectorOf h

end

variable {a b c : Meaning m} {a' b' c' : Meaning m'}

theorem unary (hsite : S.Allows site) (op : UnaryOp) (h : S.Matches a a') :
    S.Matches (.unary site op a) (.unary site op a') := by
  have hitems : ∀ _ ∈ [()], S.Matches a a' := fun _ _ => h
  cases op with
  | plus => exact h
  | negate => exact mapped hsite _ hitems
  | not => exact mapped hsite _ hitems
  | factorial => exact mapped hsite _ hitems

theorem binary (hsite : S.Allows site) (op : BinaryOp) (h : S.Matches a a')
    (h' : S.Matches b b') : S.Matches (.binary site op a b) (.binary site op a' b') := by
  have hitems : ∀ first ∈ [true, false],
      S.Matches (if first then a else b) (if first then a' else b') := by
    intro first _
    cases first
    · exact h'
    · exact h
  exact elementwise hsite (fun _ => noCycle_differing _) (fun _ => noCycle_differing _) hitems

theorem conditional (hsite : S.Allows site) (h₁ : S.Matches a a') (h₂ : S.Matches b b')
    (h₃ : S.Matches c c') : S.Matches (.conditional site a b c) (.conditional site a' b' c') := by
  refine after (.bind h₂.shape fun s => ?_)
  split_ifs
  · refine .bind (h₂.values .all) fun v => ?_
    dsimp only
    split_ifs
    · exact .bind h₁.shape fun s => .pure (nan s)
    · exact .pure h₁
    · exact .pure h₃
  · have hitems : ∀ k ∈ [0, 1, 2], S.Matches (if k = 0 then a else if k = 1 then b else c)
        (if k = 0 then a' else if k = 1 then b' else c') := by
      intro k _
      split_ifs
      · exact h₁
      · exact h₂
      · exact h₃
    exact .pure (elementwise hsite (fun _ => noCycle_differing _) (fun _ => noCycle_differing _)
      hitems)

/-! ### Elements, components and ranges -/

theorem index (hsite : S.Allows site) (h : S.Matches a a') (h' : S.Matches b b') :
    S.Matches (.index site a b) (.index site a' b') where
  shape := by
    refine S.bind h'.shape fun positions => ?_
    split_ifs
    · exact S.bind (Simulation.fail hsite rfl) fun _ => S.bind h.shape fun _ => S.pure _
    · exact S.bind h.shape fun _ => S.pure _
  values selection := by
    refine S.bind (h'.values selection) fun positions => ?_
    split_ifs
    · exact S.bind (Simulation.fail hsite rfl) fun _ => h.values _
    · exact h.values _

theorem swizzle (hsite : S.Allows site) (components : String) (h : S.Matches a a') :
    S.Matches (.swizzle site components a) (.swizzle site components a') where
  shape := S.bind h.shape fun _ =>
    S.bind (liftAt hsite (noCycle_channelsOf _ _)) fun _ => S.pure _
  values selection := S.bind (h.values selection) fun _ =>
    S.bind (liftAt hsite (noCycle_channelsOf _ _)) fun _ => S.pure _

theorem bound (hsite : S.Allows site) (h : S.Matches a a') :
    S.Rel (Meaning.bound site a) (Meaning.bound site a') := by
  refine S.bind h.shape fun s => ?_
  split_ifs
  · exact S.bind (Simulation.fail hsite rfl) fun _ => S.bind (h.values .all) fun v => S.pure _
  · exact S.bind (h.values .all) fun v => S.pure _

theorem range {lowerSite upperSite : Site} (hsite : S.Allows site) (hlower : S.Allows lowerSite)
    (hupper : S.Allows upperSite) (limit : Nat) (h : S.Matches a a') (h' : S.Matches b b') :
    S.Matches (.range site lowerSite upperSite limit a b)
      (.range site lowerSite upperSite limit a' b') :=
  after (.bind (bound hlower h) fun lo => .bind (bound hupper h') fun hi =>
    .bind (liftAt hsite (noCycle_ofBounds limit lo hi)) fun _ =>
      .pure ⟨S.pure _, fun _ => S.pure _⟩)

/-! ### Calls -/

section

variable {ι : Type} {items : List ι} {f : ι → Meaning m} {g : ι → Meaning m'}

theorem reduced (k : Array Float32 → Float32) (h : S.Matches a a') :
    S.Matches (.reduced k a) (.reduced k a') :=
  ⟨S.bind h.shape fun _ => S.pure _, fun _ => S.bind (h.values .all) fun _ => S.pure _⟩

theorem headD (h : ∀ i ∈ items, S.Matches (f i) (g i)) :
    S.Matches ((items.map f).headD Inhabited.default) ((items.map g).headD Inhabited.default) := by
  cases items with
  | nil => exact default
  | cons i items => exact h i List.mem_cons_self

theorem ofKernel (hsite : S.Allows site) {name : String} {kernel : Kernel}
    (hkernel : kernel.Blames name) (h : ∀ i ∈ items, S.Matches (f i) (g i)) :
    S.Matches (.ofKernel site name (items.map f) kernel)
      (.ofKernel site name (items.map g) kernel) := by
  cases kernel with
  | map k => exact mapped hsite k h
  | zip k =>
    refine elementwise hsite (fun shapes => ?_) (fun values => ?_) h
    · exact noCycle_of_blames (Builtin.rejects_orInvalid _ _).blames
    · exact noCycle_of_blames (Builtin.rejects_orInvalid _ _).blames
  | reduce k => exact reduced k (headD h)
  | whole k rule =>
    obtain ⟨hvalues, hshapes⟩ := hkernel
    constructor
    · refine S.bind (mapM_shape h) fun shapes => ?_
      refine S.bind (liftAt hsite (noCycle_of_blames (hshapes shapes).blames)) fun s => ?_
      exact S.bind (count hsite _) fun _ => S.pure _
    · intro selection
      refine S.bind (mapM_values h .all) fun values => ?_
      exact S.bind (liftAt hsite (noCycle_of_blames (hvalues values))) fun v => S.pure _
  | reserved => exact fail hsite rfl

theorem ofBuiltinCall (hsite : S.Allows site) (name : String)
    (h : ∀ i ∈ items, S.Matches (f i) (g i)) :
    S.Matches (.ofBuiltinCall site name (items.map f))
      (.ofBuiltinCall site name (items.map g)) := by
  simp only [Meaning.ofBuiltinCall, List.length_map]
  cases hlookup : Catalog.lookup name items.length with
  | error cause => exact fail hsite (noCycle_lookup _ _ cause hlookup)
  | ok found =>
    cases found with
    | none =>
      dsimp only
      split_ifs <;> exact fail hsite rfl
    | some b =>
      have hkernel := ofKernel hsite (Catalog.blames_of_lookup hlookup) h
      exact ⟨hkernel.shape, fun selection =>
        S.bind S.countBuiltin fun _ => hkernel.values selection⟩

theorem ofUndeclared (hsite : S.Allows site) (animation : Animation) (name : String) :
    S.Matches (.ofUndeclared animation site name) (.ofUndeclared animation site name) := by
  unfold Meaning.ofUndeclared
  split
  · exact const _
  · split_ifs <;> exact fail hsite rfl

theorem call {applied : List Series → Meaning m} {applied' : List Series → Meaning m'}
    (h : ∀ i ∈ items, S.Matches (f i) (g i))
    (happlied : ∀ vs, vs.length = items.length → S.Matches (applied vs) (applied' vs))
    (hdeferred : S.Matches a a') :
    S.Matches (.call (items.map f) applied a) (.call (items.map g) applied' a') where
  shape := hdeferred.shape
  values
    | .all => by
      simp only [Meaning.call, List.mapM_map]
      exact mapM_bind (fun i hi => (h i hi).values .all) fun vs hvs => (happlied vs hvs).values .all
    | .at indices => hdeferred.values (.at indices)

end

/-! ### Array literals -/

theorem readSegments (starts : List Nat) (total d : Nat) (indices : List Int)
    {segment : Nat → List Int → m Series} {segment' : Nat → List Int → m' Series}
    (h : ∀ k wanted, S.Rel (segment k wanted) (segment' k wanted)) :
    S.Rel (Meaning.readSegments starts total d indices segment)
      (Meaning.readSegments starts total d indices segment') := by
  refine S.bind (Simulation.mapM fun k _ => ?_) fun _ => S.pure _
  dsimp only
  split_ifs
  · exact S.pure none
  · exact Simulation.map some (h k _)

theorem gatherSegments (hsite : S.Allows site) (lengths : List Nat) (d : Nat) (indices : List Int)
    {segment : Nat → List Int → m Series} {segment' : Nat → List Int → m' Series}
    (h : ∀ k wanted, S.Rel (segment k wanted) (segment' k wanted)) :
    S.Rel (Meaning.gatherSegments site lengths d indices segment)
      (Meaning.gatherSegments site lengths d indices segment') := by
  refine S.bind (Simulation.mapM fun n _ => count hsite n) fun starts => ?_
  exact S.bind (count hsite _) fun total => readSegments starts total d indices h

theorem failsOnly_arrayShape {limit : Nat} {rules : List Meaning.Item.Rules} {shapes : List Shape}
    (hsite : S.Allows site) (hitems : ∀ r ∈ rules, S.Allows r.site) :
    FailsOnly S.may (Meaning.arrayShape site limit rules shapes) := by
  refine .bind (.foldlM (fun length p hp => ?_) 0) fun length =>
    .ite (.error (hsite _ rfl)) (.ok _)
  have hitem : S.Allows p.1.site := hitems p.1 (List.of_mem_zip hp).1
  exact .ite (.error (hitem _ rfl)) (.ite (.error (hitem _ rfl)) (.ok _))

theorem noCycle_build (b : Builder) : NoCycle b.build :=
  .bind (.ite (.error rfl) (.ok _)) fun _ => .ok _

theorem failsOnly_concatenate {d : Nat} {values : List Series} (hsite : S.Allows site) :
    FailsOnly S.may (Meaning.concatenate site d values) := by
  unfold Meaning.concatenate
  split
  · exact .mapError ((noCycle_build _).mono fun cause hcause => hsite cause hcause)
  · exact .error (hsite _ rfl)

section

variable {ι : Type} {items : List ι} {rules : ι → Meaning.Item.Rules} {f : ι → Meaning m}
  {g : ι → Meaning m'}

theorem getD_item (h : ∀ i ∈ items, S.Matches (f i) (g i)) (k : Nat) :
    S.Matches
      ((items.map fun i => (⟨rules i, f i⟩ : Meaning.Item m)).getD k Inhabited.default).meaning
      ((items.map fun i => (⟨rules i, g i⟩ : Meaning.Item m')).getD k
        Inhabited.default).meaning := by
  by_cases hk : k < items.length
  · simp only [List.getD_eq_getElem?_getD, List.getElem?_map, List.getElem?_eq_getElem hk,
      Option.map_some, Option.getD_some]
    exact h _ (List.getElem_mem hk)
  · simp only [List.getD_eq_getElem?_getD, List.getElem?_map,
      List.getElem?_eq_none (Nat.le_of_not_lt hk), Option.map_none, Option.getD_none]
    exact default

theorem arrayLiteral (hsite : S.Allows site) (hitems : ∀ i ∈ items, S.Allows (rules i).site)
    (limit : Nat) (h : ∀ i ∈ items, S.Matches (f i) (g i)) :
    S.Matches (.arrayLiteral site limit (items.map fun i => ⟨rules i, f i⟩))
      (.arrayLiteral site limit (items.map fun i => ⟨rules i, g i⟩)) := by
  have hshapes : S.Rel
      ((items.map fun i => (⟨rules i, f i⟩ : Meaning.Item m)).mapM (·.meaning.shape))
      ((items.map fun i => (⟨rules i, g i⟩ : Meaning.Item m')).mapM (·.meaning.shape)) := by
    simp only [List.mapM_map]
    exact Simulation.mapM fun i hi => (h i hi).shape
  have hvalues : S.Rel
      ((items.map fun i => (⟨rules i, f i⟩ : Meaning.Item m)).mapM (·.meaning.values .all))
      ((items.map fun i => (⟨rules i, g i⟩ : Meaning.Item m')).mapM (·.meaning.values .all)) := by
    simp only [List.mapM_map]
    exact Simulation.mapM fun i hi => (h i hi).values .all
  have hshape : ∀ shapes, S.Rel
      (Answering.ofExcept (Meaning.arrayShape site limit (items.map rules) shapes) : m Shape)
      (Answering.ofExcept (Meaning.arrayShape site limit (items.map rules) shapes)) := by
    intro shapes
    refine Simulation.ofExcept (failsOnly_arrayShape hsite fun r hr => ?_)
    obtain ⟨i, hi, rfl⟩ := List.mem_map.mp hr
    exact hitems i hi
  refine ⟨?_, fun selection => ?_⟩
  · refine S.bind hshapes fun shapes => ?_
    simp only [List.map_map, Function.comp_def]
    exact hshape shapes
  · cases selection with
    | all =>
      refine S.bind hvalues fun values => ?_
      simp only [List.map_map, Function.comp_def]
      exact S.bind (hshape _) fun s => Simulation.ofExcept (failsOnly_concatenate hsite)
    | «at» indices =>
      refine S.bind hshapes fun shapes => ?_
      simp only [List.map_map, Function.comp_def]
      refine S.bind (hshape shapes) fun s => ?_
      -- one item is asked itself, several are asked as segments
      match items, h with
      | [], h => exact gatherSegments hsite _ _ _ fun k wanted => (getD_item h k).values _
      | [i], h => exact (h i List.mem_cons_self).values _
      | i :: j :: rest, h =>
        exact gatherSegments hsite _ _ _ fun k wanted => (getD_item h k).values _

end

/-! ### Comprehensions -/

section

open Comprehension

theorem failsOnly_append {r : Rules} (hsite : S.Allows r.site) (hbody : S.Allows r.bodySite)
    (b : Builder) (v : Series) : FailsOnly S.may (r.append b v) := by
  refine .ite (.error (hbody _ rfl)) (.ite (.ok _) ?_)
  split
  · exact .error (hsite _ rfl)
  · exact .ite (.error (hsite _ rfl)) (.ok _)

theorem failsOnly_checkSingle {r : Rules} (hsite : S.Allows r.site) (hbody : S.Allows r.bodySite)
    (d : Option Nat) (s : Shape) : FailsOnly S.may (r.checkSingle d s) :=
  .ite (.error (hbody _ rfl)) (.ite (.error (hsite _ rfl)) (.ok _))

theorem failsOnly_addRun {r : Rules} (hsite : S.Allows r.site) (runs : Runs) (s : Shape) :
    FailsOnly S.may (r.addRun runs s) :=
  .ite (.ok _) (.ite (.error (hsite _ rfl)) (.ok _))

/-- The parts of two comprehensions match, and errors are allowed where they are checked. -/
structure Parts (S : Simulation m m') (c : Comprehension m) (c' : Comprehension m') : Prop where
  rules : c'.toRules = c.toRules
  site : S.Allows c.site
  bodySite : S.Allows c.bodySite
  source : S.Matches c.source c'.source
  body : ∀ x, S.Matches (c.body x) (c'.body x)
  varies : c'.varies = c.varies

variable {c : Comprehension m} {c' : Comprehension m'}

theorem collect (h : Parts S c c') (source : Series) (b : Builder) :
    S.Rel (c.collect source b) (c'.collect source b) := by
  unfold Comprehension.collect
  simp only [h.rules]
  refine Simulation.foldlM fun b i _ => S.bind ((h.body _).values .all) fun v => ?_
  exact Simulation.ofExcept (failsOnly_append h.site h.bodySite b v)

theorem filtered (h : Parts S c c') {condition : Series → Meaning m}
    {condition' : Series → Meaning m'} (hcondition : ∀ x, S.Matches (condition x) (condition' x)) :
    S.Matches (c.filtered condition) (c'.filtered condition') := by
  have hsite : c'.site = c.site := by rw [h.rules]
  unfold Comprehension.filtered
  simp only [hsite]
  refine after (.bind (h.source.values .all) fun source => .bind ?_ fun b =>
    .bind (liftAt h.site (noCycle_build b)) fun _ => .pure (const _))
  unfold Comprehension.collectWhen
  simp only [h.rules]
  refine Simulation.foldlM fun b i _ => S.bind ((hcondition _).values .all) fun v => ?_
  split_ifs
  · refine S.bind ((h.body _).values .all) fun v => ?_
    exact Simulation.ofExcept (failsOnly_append h.site h.bodySite b v)
  · exact S.pure b

theorem singleShape (h : Parts S c c') : S.Rel c.singleShape c'.singleShape := by
  have hcheck : ∀ d t, S.Rel (Answering.ofExcept (c.checkSingle d t) : m (Option Nat))
      (Answering.ofExcept (c.checkSingle d t)) := fun d t =>
    Simulation.ofExcept (failsOnly_checkSingle h.site h.bodySite d t)
  unfold Comprehension.singleShape
  simp only [h.rules, h.varies]
  refine S.bind h.source.shape fun s => ?_
  split_ifs
  · exact S.pure _
  · refine S.bind (h.source.values .all) fun source => S.bind ?_ fun d => S.pure _
    exact Simulation.foldlM fun d i _ => S.bind (h.body _).shape fun t => hcheck d t
  · exact S.bind (h.source.values _) fun first => S.bind (h.body first).shape fun t =>
      S.bind (hcheck none t) fun d => S.pure _

theorem single (h : Parts S c c') : S.Matches c.single c'.single where
  shape := singleShape h
  values
    | .all => S.bind (h.source.values .all) fun source =>
        S.bind (collect h source _) fun _ => S.pure _
    | .at _ => S.bind (singleShape h) fun _ => S.bind (h.source.values _) fun source =>
        S.bind (collect h source _) fun _ => S.pure _

theorem runs (h : Parts S c c') (source : Series) : S.Rel (c.runs source) (c'.runs source) := by
  unfold Comprehension.runs
  simp only [h.rules]
  refine S.bind (Simulation.foldlM fun r i _ => S.bind (h.body _).shape fun s =>
    Simulation.ofExcept (failsOnly_addRun h.site r s)) fun r => ?_
  split_ifs
  · exact S.bind (Simulation.fail h.site rfl) fun _ => S.pure _
  · exact S.pure _

theorem ofRuns (h : Parts S c c') (source : Series) (r : Runs) :
    S.Matches (c.ofRuns source r) (c'.ofRuns source r) := by
  have hsite : c'.site = c.site := by rw [h.rules]
  refine ⟨S.pure _, fun selection => ?_⟩
  cases selection with
  | all =>
    simp only [Comprehension.ofRuns, hsite]
    exact S.bind (collect h source _) fun b => liftAt h.site (noCycle_build b)
  | «at» indices =>
    simp only [Comprehension.ofRuns, hsite]
    exact gatherSegments h.site _ _ _ fun k wanted => (h.body _).values _

theorem comprehension (h : Parts S c c') : S.Matches c.meaning c'.meaning := by
  unfold Comprehension.meaning
  simp only [h.rules]
  split_ifs
  · exact after (.bind (h.source.values .all) fun source =>
      .bind (runs h source) fun r => .pure (ofRuns h source r))
  · exact single h

end

end Matches

end Simulation

end VectorScript
