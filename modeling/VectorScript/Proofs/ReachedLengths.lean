import Mathlib.Data.Set.Finite.List
import VectorScript.Proofs.LengthBounds

/-!
# Lengths that evaluation reaches

The builtins `join` and `interleave` look at no limit, so that what a function makes of its
arguments may be longer than each of them, and longer again with every call.  A bound on lengths
therefore belongs to a place of evaluation: it knows how many calls are left there, and how long the
parameters and elements are at most that are bound around it.  Variables have one value, and so one
bound.

* `Expr.reach`: a bound on the length of an expression at such a place.
* `Setting.Bounded`: bounds for all variables that agree with their bodies.
* `Setting.Bounded.within_meaning`: no answer is longer than its bound.
* `Setting.exists_bounded`: variables that do not depend on themselves have bounds.
-/

namespace VectorScript

namespace Limits

/-- The most elements of a literal, a range or a comprehension.  Lengths of ranges are rounded, and
so is the limit for them. -/
def longest (l : Limits) : Nat :=
  max l.maxArrayLength (min (Scalar.keep53 l.maxArrayLength) maxLength)

theorem maxArrayLength_le_longest (l : Limits) : l.maxArrayLength ≤ l.longest :=
  Nat.le_max_left _ _

theorem rounded_le_longest (l : Limits) :
    min (Scalar.keep53 l.maxArrayLength) maxLength ≤ l.longest :=
  Nat.le_max_right _ _

end Limits

/-! ### Bounds -/

/-- Bounds on the lengths of bound names, innermost first. -/
abbrev Sizes := List (String × Nat)

namespace Expr

/-- How many elements a call has at most, by bounds on its arguments. -/
def callReach (w : Setting) (inner : Sizes → Expr → Nat) (sizes : Sizes) (name : String)
    (lengths : List Nat) : Nat :=
  if (NameTable.lookup name sizes).isSome then 0
  else
    match (w.declarations.find? name).map Statement.kind with
    | some (.function _ params body) =>
      if params.length = lengths.length then inner (params.zip lengths).reverse body else 0
    | some _ => 0
    | none => Builtin.mostElements name lengths

mutual

/-- How many elements an expression has at most, where `inner` tells it for the bodies of functions,
`sizes` for bound names and `most` for all others. -/
def reachBy (w : Setting) (most : String → Nat) (inner : Sizes → Expr → Nat) (sizes : Sizes) :
    Expr → Nat
  | constant .. => 1
  | array .. | range .. | filtered .. => w.limits.longest
  | identifier name _ => (NameTable.lookup name sizes).getD (most name)
  | call name args _ => callReach w inner sizes name (reachAllBy w most inner sizes args)
  | comprehension body _ source _ =>
    if body.makesRun then w.limits.longest
    else max (reachBy w most inner sizes source) w.limits.longest
  | index _ position _ => reachBy w most inner sizes position
  | swizzle target _ _ => reachBy w most inner sizes target
  | vector items _ => (reachAllBy w most inner sizes items).foldr max 1
  | unary _ operand _ => [reachBy w most inner sizes operand].foldr max 1
  | binary _ left right _ =>
    [reachBy w most inner sizes left, reachBy w most inner sizes right].foldr max 1
  | conditional consequent condition alternative _ =>
    [reachBy w most inner sizes consequent, reachBy w most inner sizes condition,
      reachBy w most inner sizes alternative].foldr max 1

def reachAllBy (w : Setting) (most : String → Nat) (inner : Sizes → Expr → Nat) (sizes : Sizes) :
    List Expr → List Nat
  | [] => []
  | e :: rest => reachBy w most inner sizes e :: reachAllBy w most inner sizes rest

end

/-- How many elements an expression has at most where some calls are left.  A call of a function is
bounded by its body, for parameters with the bounds of the arguments. -/
def reach (w : Setting) (most : String → Nat) : Nat → Sizes → Expr → Nat
  | 0 => reachBy w most fun _ _ => 0
  | calls + 1 => reachBy w most (reach w most calls)

/-- Bounds on the bodies of functions where some calls are left. -/
def innerReach (w : Setting) (most : String → Nat) : Nat → Sizes → Expr → Nat
  | 0 => fun _ _ => 0
  | calls + 1 => reach w most calls

theorem reach_eq_reachBy {w : Setting} {most : String → Nat} (calls : Nat) :
    reach w most calls = reachBy w most (innerReach w most calls) := by
  cases calls <;> rfl

end Expr

/-- Bounds on what is bound in a scope, now or when it is evaluated. -/
def Scope.sizes (w : Setting) (most : String → Nat) (calls : Nat) : Scope → Sizes
  | root => []
  | bind name v rest => (name, v.length) :: rest.sizes w most calls
  | defer name arg outer _ rest =>
    (name, arg.reach w most calls (outer.sizes w most calls)) :: rest.sizes w most calls

namespace Setting

/-- How many more calls may be nested. -/
def callsLeft (w : Setting) (ctx : Context) : Nat := w.limits.maxCallDepth - ctx.depth

/-- How many elements an expression has at most in a context. -/
def reach (w : Setting) (most : String → Nat) (ctx : Context) (e : Expr) : Nat :=
  e.reach w most (w.callsLeft ctx) (ctx.scope.sizes w most (w.callsLeft ctx))

/-- Bounds on the lengths of all variables that agree with their bodies. -/
structure Bounded (w : Setting) (most : String → Nat) : Prop where
  pos : ∀ name, 0 < most name
  body : ∀ {name st key body}, w.declarations.find? name = some st →
    st.kind = .variable key body → body.reach w most w.limits.maxCallDepth [] ≤ most name

end Setting

/-! ### Longer parameters and more calls -/

/-- The same names with larger bounds. -/
abbrev Sizes.Le : Sizes → Sizes → Prop :=
  List.Forall₂ fun a b => a.1 = b.1 ∧ a.2 ≤ b.2

namespace Sizes.Le

variable {sizes sizes' : Sizes}

theorem refl : ∀ sizes : Sizes, Le sizes sizes
  | [] => .nil
  | _ :: rest => .cons ⟨rfl, Nat.le_refl _⟩ (refl rest)

theorem lookup (h : sizes.Le sizes') (name : String) :
    (NameTable.lookup name sizes).isSome = (NameTable.lookup name sizes').isSome ∧
      ∀ n, (NameTable.lookup name sizes).getD n ≤ (NameTable.lookup name sizes').getD n := by
  induction h with
  | nil => exact ⟨rfl, fun _ => Nat.le_refl _⟩
  | @cons a b _ _ hab _ ih =>
    obtain ⟨key, n⟩ := a
    obtain ⟨key', n'⟩ := b
    obtain ⟨rfl, hle⟩ := hab
    simp only [NameTable.lookup]
    split_ifs
    · exact ⟨rfl, fun _ => hle⟩
    · exact ih

theorem zip : ∀ {params : List String} {lengths lengths' : List Nat},
    lengths.Forall₂ (· ≤ ·) lengths' → Le (params.zip lengths) (params.zip lengths')
  | [], _, _, _ => .nil
  | _ :: _, _, _, .nil => .nil
  | _ :: _, _, _, .cons h hrest => .cons ⟨rfl, h⟩ (zip hrest)

/-- Parameters are bound one after the other, so that the last one is found first. -/
theorem parameters {params : List String} {lengths lengths' : List Nat}
    (h : lengths.Forall₂ (· ≤ ·) lengths') :
    Le (params.zip lengths).reverse (params.zip lengths').reverse :=
  List.rel_reverse (zip h)

end Sizes.Le

namespace Expr

variable {w : Setting} {most : String → Nat} {inner inner' : Sizes → Expr → Nat}
  {sizes sizes' : Sizes}

theorem reachAllBy_eq_map (es : List Expr) :
    reachAllBy w most inner sizes es = es.map (reachBy w most inner sizes) := by
  induction es with
  | nil => rfl
  | cons e rest ih => rw [reachAllBy, ih, List.map_cons]

theorem callReach_mono {name : String} {lengths lengths' : List Nat}
    (hinner : ∀ {s s'} body, Sizes.Le s s' → inner s body ≤ inner' s' body)
    (hsizes : sizes.Le sizes') (h : lengths.Forall₂ (· ≤ ·) lengths') :
    callReach w inner sizes name lengths ≤ callReach w inner' sizes' name lengths' := by
  simp only [callReach, (hsizes.lookup name).1, h.length_eq]
  split_ifs
  · exact Nat.le_refl 0
  · split
    · split_ifs
      · exact hinner _ (.parameters h)
      · exact Nat.le_refl 0
    · exact Nat.le_refl 0
    · exact Builtin.mostElements_le h

/-- Longer parameters and bodies make longer expressions. -/
theorem reachBy_mono (hinner : ∀ {s s'} body, Sizes.Le s s' → inner s body ≤ inner' s' body)
    (hsizes : sizes.Le sizes') (e : Expr) :
    reachBy w most inner sizes e ≤ reachBy w most inner' sizes' e := by
  induction e using induction_on_children with
  | h e ih =>
    have hall : ∀ {es : List Expr}, (∀ c ∈ es, c ∈ e.children) →
        (reachAllBy w most inner sizes es).Forall₂ (· ≤ ·)
          (reachAllBy w most inner' sizes' es) := by
      intro es hes
      simp only [reachAllBy_eq_map]
      exact List.forall₂_map_left_iff.mpr (List.forall₂_map_right_iff.mpr
        (List.forall₂_same.mpr fun c hc => ih c (hes c hc)))
    cases e with
    | constant | array | range | filtered => exact Nat.le_refl _
    | identifier name span => exact (hsizes.lookup name).2 _
    | call name args span => exact callReach_mono hinner hsizes (hall fun _ => id)
    | vector items span => exact Builtin.longest_le_longest (hall fun _ => id)
    | comprehension body binder source span =>
      simp only [reachBy]
      split_ifs
      · exact Nat.le_refl _
      · exact max_le_max_right _ (ih source (by simp [children]))
    | index target position span => exact ih position (by simp [children])
    | swizzle target components span => exact ih target (by simp [children])
    | unary op operand span =>
      exact Builtin.longest_le_longest (.cons (ih operand (by simp [children])) .nil)
    | binary op left right span =>
      exact Builtin.longest_le_longest
        (.cons (ih left (by simp [children])) (.cons (ih right (by simp [children])) .nil))
    | conditional consequent condition alternative span =>
      exact Builtin.longest_le_longest (.cons (ih consequent (by simp [children]))
        (.cons (ih condition (by simp [children]))
          (.cons (ih alternative (by simp [children])) .nil)))

/-- More calls and longer parameters make longer expressions. -/
theorem reach_mono {calls calls' : Nat} (hcalls : calls ≤ calls') (hsizes : sizes.Le sizes')
    (e : Expr) : e.reach w most calls sizes ≤ e.reach w most calls' sizes' := by
  induction calls generalizing calls' sizes sizes' e with
  | zero =>
    cases calls' with
    | zero => exact reachBy_mono (fun _ _ => Nat.le_refl 0) hsizes e
    | succ calls' => exact reachBy_mono (fun _ _ => Nat.zero_le _) hsizes e
  | succ calls ih =>
    obtain ⟨k, rfl⟩ := Nat.exists_eq_add_of_le' (Nat.le_trans (Nat.le_add_left 1 calls) hcalls)
    exact reachBy_mono (fun body hs => ih (by omega) hs body) hsizes e

end Expr

namespace Scope

variable {w : Setting} {most : String → Nat} {calls calls' : Nat}

theorem sizes_mono (hcalls : calls ≤ calls') :
    ∀ s : Scope, (s.sizes w most calls).Le (s.sizes w most calls')
  | root => .nil
  | bind _ _ rest => .cons ⟨rfl, Nat.le_refl _⟩ (sizes_mono hcalls rest)
  | defer _ arg outer _ rest =>
    .cons ⟨rfl, Expr.reach_mono hcalls (sizes_mono hcalls outer) arg⟩ (sizes_mono hcalls rest)

theorem sizes_ofValues : ∀ (params : List String) (values : List Series) (s : Scope),
    (ofValues params values s).sizes w most calls =
      (params.zip (values.map Series.length)).reverse ++ s.sizes w most calls
  | [], _, _ => by simp [ofValues]
  | _ :: _, [], _ => by simp [ofValues]
  | p :: params, v :: values, s => by
    rw [ofValues, sizes_ofValues params values]
    simp [sizes]

theorem sizes_ofArgs {outer : Scope} {owner : Option String} :
    ∀ (params : List String) (args : List Expr) (s : Scope),
      (ofArgs outer owner params args s).sizes w most calls =
        (params.zip (args.map (Expr.reach w most calls (outer.sizes w most calls)))).reverse ++
          s.sizes w most calls
  | [], _, _ => by simp [ofArgs]
  | _ :: _, [], _ => by simp [ofArgs]
  | p :: params, arg :: args, s => by
    rw [ofArgs, sizes_ofArgs params args]
    simp [sizes]

/-- What a scope finds is bounded by what its bounds have under the name. -/
theorem lookup_sizes (name : String) (s : Scope) :
    NameTable.lookup name (s.sizes w most calls) = (s.find? name).map fun
      | .value v => v.length
      | .deferred arg outer _ => arg.reach w most calls (outer.sizes w most calls) := by
  induction s with
  | root => rfl
  | bind key value rest ih =>
    simp only [sizes, NameTable.lookup, find?]
    split_ifs
    · rfl
    · exact ih
  | defer key arg outer owner rest _ ih =>
    simp only [sizes, NameTable.lookup, find?]
    split_ifs
    · rfl
    · exact ih

end Scope

/-! ### Evaluation -/

namespace Setting.Bounded

open VectorScript.Expr Builtin

variable {w : Setting} {most : String → Nat} {ctx ctx' : Context} {e e' : Expr} {name : String}
  {span : Span}

/-- The bounds of parts of an expression are taken at the same place. -/
theorem reach_eq_reachBy : w.reach most ctx =
    reachBy w most (innerReach w most (w.callsLeft ctx))
      (ctx.scope.sizes w most (w.callsLeft ctx)) := by
  funext e
  rw [Setting.reach, Expr.reach_eq_reachBy]

theorem lookup_sizes_of_free (hbound : ¬ ctx.scope.contains name) (calls : Nat) :
    (NameTable.lookup name (ctx.scope.sizes w most calls)).isSome = false := by
  rw [Scope.lookup_sizes, Option.isSome_map]
  simpa [Scope.contains] using hbound

theorem reaches_identifier (h : w.Bounded most) (hscope : ctx.scope.Formed)
    (hagain : ∀ {ctx' e'}, Leads w ctx (identifier name span) ctx' e' → ctx'.scope.Formed →
      (e'.meaning w ctx').Within most (w.reach most ctx' e')) :
    (meaningBy w (meaning w) ctx (identifier name span)).Reaches most
      (w.reach most ctx (identifier name span)) := by
  rw [reach_eq_reachBy, reachBy, Scope.lookup_sizes]
  cases hbound : ctx.scope.find? name with
  | some binding =>
    cases binding with
    | value v =>
      rw [meaningBy_bound hbound]
      exact .const (Nat.le_refl _)
    | deferred arg outer owner =>
      rw [meaningBy_deferred hbound, Meaning.delay_eq]
      exact (hagain (.deferred hbound) (hscope.deferred hbound).2).toReaches
  | none =>
    rw [meaningBy_free hbound]
    refine .recalledOr (Nat.le_refl _) ?_
    cases hfind : w.declarations.find? name with
    | none =>
      rw [declaredBy_undeclared hfind]
      exact .ofUndeclared _ _ (h.pos name)
    | some st =>
      cases hkind : st.kind with
      | «variable» key body =>
        by_cases hopen : name ∈ ctx.opened
        · rw [declaredBy_open hfind hkind hopen]
          exact .fail _
        · rw [declaredBy_variable hfind hkind hopen]
          -- the body may call as often as the place where it is read, and it is bounded for more
          have hbody : w.reach most (ctx.inVariable name) body ≤ most name :=
            Nat.le_trans (reach_mono (Nat.sub_le _ _) .nil body) (h.body hfind hkind)
          have hwithin := hagain (.reference hbound hfind hkind hopen) trivial
          exact .ofVariable (Nat.le_refl _) (.delay (hwithin.mono hbody))
      | _ =>
        rw [declaredBy_not_variable hfind (by simp [Statement.isVariable, hkind])]
        exact .fail _

/-- In the body of a function one call less is left. -/
theorem callsLeft_inFunction (hdepth : ctx.depth < w.limits.maxCallDepth) (name : String)
    (frame : Scope) :
    w.callsLeft ctx = w.callsLeft (ctx.inFunction name frame) + 1 := by
  simp only [Setting.callsLeft, Context.inFunction]
  omega

/-- A call of a function is bounded by its body, for parameters with the bounds of the arguments. -/
theorem reach_call {st : Statement} {key : String} {params : List String} {body : Expr}
    {args : List Expr} (hbound : ¬ ctx.scope.contains name)
    (hfind : w.declarations.find? name = some st) (hkind : st.kind = .function key params body)
    (hcount : params.length = args.length) {calls : Nat} (hcalls : w.callsLeft ctx = calls + 1) :
    w.reach most ctx (call name args span) =
      body.reach w most calls (params.zip (args.map (w.reach most ctx))).reverse := by
  simp only [reach_eq_reachBy, reachBy, callReach, lookup_sizes_of_free hbound, hfind,
    Option.map_some, hkind, reachAllBy_eq_map, List.length_map, hcount, hcalls, innerReach,
    Bool.false_eq_true, if_false, if_true]

theorem reaches_call {args : List Expr} (hscope : ctx.scope.Formed)
    (he : (call name args span).wellFormed)
    (hagain : ∀ {ctx' e'}, Leads w ctx (call name args span) ctx' e' → ctx'.scope.Formed →
      (e'.meaning w ctx').Within most (w.reach most ctx' e')) :
    (meaningBy w (meaning w) ctx (call name args span)).Reaches most
      (w.reach most ctx (call name args span)) := by
  have hargs : ∀ arg ∈ args, (Meaning.delay fun _ => arg.meaning w ctx).Within most
      (w.reach most ctx arg) :=
    fun arg harg => .delay (hagain (.part harg) hscope)
  rcases call_cases w ctx name args with ⟨cause, -, hfail⟩ |
    ⟨hbound, st, key, params, body, hfind, hkind, hcount, hdepth⟩ | ⟨hbound, hfind⟩
  · rw [hfail]
    exact .fail cause
  · rw [meaningBy_call_function hbound hfind hkind hcount hdepth,
      reach_call hbound hfind hkind hcount (callsLeft_inFunction hdepth name .root)]
    refine .call hargs (fun vs hvs => ?_) (Meaning.Within.delay ?_).toReaches
    · have hformed : ∀ v ∈ vs, v.Formed := forall_mem_of_forall₂ hvs fun _ _ _ hv => hv.2
      refine ((hagain (.applied hbound hfind hkind hcount hdepth hvs.length_eq.symm)
        (Scope.formed_ofValues (s := .root) hformed trivial)).mono ?_).toReaches
      refine reach_mono (Nat.le_refl _) ?_ body
      rw [Context.inFunction, Scope.sizes_ofValues, Scope.sizes, List.append_nil]
      refine .parameters (List.forall₂_map_left_iff.mpr (List.forall₂_map_right_iff.mpr ?_))
      exact (hvs.imp fun _ _ hv => hv.1).flip
    · refine (hagain (.called hbound hfind hkind hcount hdepth)
        (Scope.formed_ofArgs (s := .root) hscope (fun arg harg => everywhere_child he harg)
          trivial)).mono ?_
      refine reach_mono (Nat.le_refl _) ?_ body
      rw [Context.inFunction, Scope.sizes_ofArgs, Scope.sizes, List.append_nil]
      refine .parameters (List.forall₂_map_left_iff.mpr (List.forall₂_map_right_iff.mpr
        (List.forall₂_same.mpr fun arg _ => ?_)))
      -- waiting arguments are evaluated where fewer calls are left
      have hcalls : w.callsLeft (ctx.inFunction name .root) ≤ w.callsLeft ctx := by
        rw [callsLeft_inFunction hdepth]
        exact Nat.le_succ _
      exact reach_mono hcalls (Scope.sizes_mono hcalls _) arg
  · rw [meaningBy_call_builtin hbound hfind]
    refine (Meaning.Reaches.ofBuiltinCall name hargs).mono (Nat.le_of_eq ?_)
    simp only [reach_eq_reachBy, reachBy, callReach, lookup_sizes_of_free hbound, hfind,
      Option.map_none, reachAllBy_eq_map, Bool.false_eq_true, if_false]

/-- An expression is no longer than its bound, if what its evaluation leads to is not. -/
theorem reaches_meaning (h : w.Bounded most) (hscope : ctx.scope.Formed) (he : e.wellFormed)
    (hagain : ∀ {ctx' e'}, Leads w ctx e ctx' e' → ctx'.scope.Formed →
      (e'.meaning w ctx').Within most (w.reach most ctx' e')) :
    (e.meaning w ctx).Reaches most (w.reach most ctx e) := by
  have hpart : ∀ c ∈ e.openParts, (Meaning.delay fun _ => c.meaning w ctx).Within most
      (w.reach most ctx c) :=
    fun c hc => .delay (hagain (.part hc) hscope)
  -- single elements are bound, and all bodies have the same bound
  have helement : ∀ {binder c}, (binder, c) ∈ e.boundParts → ∀ v : Series, v.Formed →
      v.length = 1 → (c.meaning w (ctx.bind binder v)).Within most (c.reach w most
        (w.callsLeft ctx) ((binder, 1) :: ctx.scope.sizes w most (w.callsLeft ctx))) :=
    fun hc v hv hone => hone ▸ hagain (.element hc v) ⟨hv, hscope⟩
  have hlongest : ∀ operands : List Expr, (∀ c ∈ operands, c ∈ e.openParts) → ∀ c ∈ operands,
      (Meaning.delay fun _ => c.meaning w ctx).Within most
        ((operands.map (w.reach most ctx)).foldr max 1) :=
    fun _ hparts c hc => (hpart c (hparts c hc)).mono (le_longest (List.mem_map_of_mem hc))
  rw [meaning_eq_meaningBy]
  cases e with
  | identifier name span => exact h.reaches_identifier hscope hagain
  | call name args span => exact reaches_call hscope he hagain
  | constant x span =>
    rw [reach_eq_reachBy]
    exact .const (Nat.le_refl 1)
  | array items span =>
    rw [meaningBy_array, reach_eq_reachBy, reachBy]
    refine (Meaning.Reaches.arrayLiteral fun item hitem => ?_).mono
      (Limits.maxArrayLength_le_longest _)
    obtain ⟨c, hc, rfl⟩ := List.mem_map.mp hitem
    exact ⟨_, (hpart c hc).toReaches⟩
  | range lower upper span =>
    have hlower := hpart lower (by simp [openParts, children])
    have hupper := hpart upper (by simp [openParts, children])
    rw [reach_eq_reachBy, reachBy]
    exact (Meaning.Reaches.range hlower.toReaches hupper.toReaches).mono
      (Limits.rounded_le_longest _)
  | comprehension body binder source span =>
    have hsource := hpart source (by simp [openParts])
    have hbody := helement (by simp [boundParts] : (binder, body) ∈ _)
    rw [reach_eq_reachBy] at hsource ⊢
    refine (Comprehension.Within.reaches ⟨hsource, hbody⟩).mono ?_
    rw [reachBy]
    split_ifs
    · exact Limits.maxArrayLength_le_longest _
    · exact max_le_max_left _ (Limits.maxArrayLength_le_longest _)
  | filtered body binder source condition span =>
    have hsource := hpart source (by simp [openParts])
    have hbody := helement (by simp [boundParts] : (binder, body) ∈ _)
    have hcondition := helement (by simp [boundParts] : (binder, condition) ∈ _)
    rw [reach_eq_reachBy, reachBy]
    exact (Comprehension.Within.filtered ⟨hsource, hbody⟩ hcondition).mono
      (Limits.maxArrayLength_le_longest _)
  | index target position span =>
    have hposition := hpart position (by simp [openParts, children])
    rw [reach_eq_reachBy] at hposition ⊢
    exact .index (hpart target (by simp [openParts, children])) hposition
  | swizzle target components span =>
    have htarget := hpart target (by simp [openParts, children])
    rw [reach_eq_reachBy] at htarget ⊢
    exact .swizzle htarget.toReaches
  | vector items span =>
    have hitems := hlongest items fun _ => id
    rw [reach_eq_reachBy] at hitems ⊢
    rw [meaningBy_vector, reachBy, reachAllBy_eq_map]
    refine .vector (by simpa using vector_ne_nil he) (one_le_longest _) fun a ha => ?_
    obtain ⟨item, hitem, rfl⟩ := List.mem_map.mp ha
    exact hitems item hitem
  | unary op operand span =>
    have hoperands := hlongest [operand] fun _ => id
    rw [reach_eq_reachBy] at hoperands ⊢
    exact .unary op (one_le_longest _) (hoperands operand (by simp))
  | binary op left right span =>
    have hoperands := hlongest [left, right] fun _ => id
    rw [reach_eq_reachBy] at hoperands ⊢
    exact .binary op (one_le_longest _) (hoperands left (by simp)) (hoperands right (by simp))
  | conditional consequent condition alternative span =>
    have hoperands := hlongest [consequent, condition, alternative] fun _ => id
    rw [reach_eq_reachBy] at hoperands ⊢
    exact .conditional (one_le_longest _) (hoperands consequent (by simp))
      (hoperands condition (by simp)) (hoperands alternative (by simp))

/-- From a memory within the bounds, no answer is longer than its bound. -/
theorem within_meaning (h : w.Bounded most) (hw : w.declarations.WellFormed)
    (hscope : ctx.scope.Formed) (he : e.wellFormed) :
    (e.meaning w ctx).Within most (w.reach most ctx e) := by
  induction ctx, e using induction_on_steps w with
  | h ctx e ih =>
    -- that answers are formed is known for every depth, so only the lengths go along the steps
    have hpasses := passes_of_nesting_lt hw (Nat.lt_succ_self (nesting w ctx e)) hscope he
    refine ⟨h.reaches_meaning hscope he fun hleads hscope' => ?_, _, hpasses⟩
    exact ih _ _ hleads hscope' (hleads.wellFormed hw hscope he)

end Setting.Bounded

/-! ### Bounds for all variables -/

namespace Expr

variable {w : Setting} {most most' : String → Nat} {inner inner' : Sizes → Expr → Nat}
  {sizes : Sizes} {R : String → Prop}

theorem lookup_eq_none {name : String} :
    NameTable.lookup name sizes = none ↔ name ∉ sizes.map Prod.fst := by
  rw [← Option.not_isSome_iff_eq_none]
  exact not_congr (NameTable.mem_names_iff (t := ⟨sizes⟩)).symm

/-- The bound of an expression depends on the bounds of the names it reads. -/
theorem reachBy_congr (hmost : ∀ x, R x → most x = most' x)
    (hinner : ∀ {name st key params body} {sizes : Sizes}, R name →
      w.declarations.find? name = some st → st.kind = .function key params body →
      (∀ x, x ∈ sizes.map Prod.fst ↔ x ∈ params) → inner sizes body = inner' sizes body)
    (e : Expr) (hreads : ∀ x ∈ e.reads w.declarations (sizes.map Prod.fst), R x) :
    reachBy w most inner sizes e = reachBy w most' inner' sizes e := by
  induction e using induction_on_children with
  | h e ih =>
    have hall : ∀ es : List Expr, (∀ c ∈ es, c ∈ e.children) →
        (∀ x ∈ readsAll w.declarations (sizes.map Prod.fst) es, R x) →
        reachAllBy w most inner sizes es = reachAllBy w most' inner' sizes es := by
      intro es hes hreads
      rw [reachAllBy_eq_map, reachAllBy_eq_map]
      exact List.map_congr_left fun c hc =>
        ih c (hes c hc) fun x hx => hreads x (mem_readsAll.mpr ⟨c, hc, hx⟩)
    cases e with
    | constant | array | range | filtered => rfl
    | identifier name span =>
      rw [reachBy, reachBy]
      cases hlookup : NameTable.lookup name sizes with
      | some n => rfl
      | none => exact hmost name (hreads name (by simp [reads, lookup_eq_none.mp hlookup]))
    | call name args span =>
      have hargs := hall args (fun _ => id) fun x hx => hreads x (by simp [reads, hx])
      rw [reachBy, reachBy, hargs, callReach, callReach]
      split_ifs with hbound
      · rfl
      cases hfind : w.declarations.find? name with
      | none => rfl
      | some st =>
        rw [Option.map_some]
        cases hkind : st.kind with
        | function key params body =>
          dsimp only
          split_ifs with hcount
          · have hfree : name ∉ sizes.map Prod.fst := lookup_eq_none.mp (by simpa using hbound)
            have hname : R name := hreads name (by simp [reads, hfree, NameTable.contains, hfind])
            refine hinner hname hfind hkind fun x => ?_
            rw [List.map_reverse, List.mem_reverse, List.map_fst_zip (Nat.le_of_eq hcount)]
          · rfl
        | _ => rfl
    | comprehension body binder source span =>
      rw [reachBy, reachBy,
        ih source (by simp [children]) fun x hx => hreads x (by simp [reads, hx])]
    | index target position span =>
      rw [reachBy, reachBy,
        ih position (by simp [children]) fun x hx => hreads x (by simp [reads, hx])]
    | swizzle target components span =>
      rw [reachBy, reachBy, ih target (by simp [children]) hreads]
    | vector items span => rw [reachBy, reachBy, hall items (fun _ => id) hreads]
    | unary op operand span => rw [reachBy, reachBy, ih operand (by simp [children]) hreads]
    | binary op left right span =>
      rw [reachBy, reachBy, ih left (by simp [children]) fun x hx => hreads x (by simp [reads, hx]),
        ih right (by simp [children]) fun x hx => hreads x (by simp [reads, hx])]
    | conditional consequent condition alternative span =>
      rw [reachBy, reachBy,
        ih consequent (by simp [children]) fun x hx => hreads x (by simp [reads, hx]),
        ih condition (by simp [children]) fun x hx => hreads x (by simp [reads, hx]),
        ih alternative (by simp [children]) fun x hx => hreads x (by simp [reads, hx])]

/-- The bound of an expression depends on the bounds of the names it reads, directly or through
functions. -/
theorem reach_congr (hmost : ∀ x, R x → most x = most' x)
    (hR : ∀ x y, R x → w.declarations.Reads x y → R y) (calls : Nat) (e : Expr)
    (hreads : ∀ x ∈ e.reads w.declarations (sizes.map Prod.fst), R x) :
    e.reach w most calls sizes = e.reach w most' calls sizes := by
  induction calls generalizing sizes e with
  | zero => exact reachBy_congr hmost (fun _ _ _ _ => rfl) e hreads
  | succ calls ih =>
    refine reachBy_congr hmost (fun {name st key params body sizes} hname hfind hkind hnames => ?_)
      e hreads
    refine ih body fun x hx => hR name x hname ⟨st, hfind, ?_⟩
    rw [reads_congr hnames] at hx
    simpa [Statement.reads, hkind] using hx

end Expr

namespace Setting

variable {w : Setting}

/-- The declared variables. -/
abbrev Variable (w : Setting) : Type := { name : String // w.declarations.IsVariable name }

instance : Finite w.Variable := by
  refine Set.Finite.subset (List.finite_toSet w.declarations.names) fun name hname => ?_
  obtain ⟨st, hfind, -⟩ := hname
  exact NameTable.mem_names_of_find? hfind

/-- One variable is read by another, directly or through others. -/
def Variable.ReachedFrom (x y : w.Variable) : Prop := w.declarations.Reaches y.1 x.1

theorem Variable.wellFounded_reachedFrom
    (h : ∀ x, w.declarations.IsVariable x → ¬ w.declarations.Reaches x x) :
    WellFounded (ReachedFrom (w := w)) := by
  have : IsTrans w.Variable ReachedFrom := ⟨fun _ _ _ hxy hyz => hyz.trans hxy⟩
  have : Std.Irrefl (ReachedFrom (w := w)) := ⟨fun x => h x.1 x.2⟩
  exact Finite.wellFounded_of_trans_of_irrefl _

open Classical in
/-- A table of bounds, where `known` tells those of some variables. -/
noncomputable def extend (least : String → Nat) {P : w.Variable → Prop}
    (known : ∀ x, P x → Nat) (name : String) : Nat :=
  if h : ∃ hvar, P ⟨name, hvar⟩ then known ⟨name, h.1⟩ h.2 else max 1 (least name)

theorem extend_of_known {least : String → Nat} {P : w.Variable → Prop} {known : ∀ x, P x → Nat}
    {x : w.Variable} (h : P x) : extend least known x.1 = known x h :=
  dif_pos ⟨x.2, h⟩

theorem extend_of_not_variable {least : String → Nat} {P : w.Variable → Prop}
    {known : ∀ x, P x → Nat} {name : String} (h : ¬ w.declarations.IsVariable name) :
    extend least known name = max 1 (least name) :=
  dif_neg fun ⟨hvar, _⟩ => h hvar

/-- The body of a variable. -/
def Variable.body (x : w.Variable) : Expr :=
  ((w.declarations.find? x.1).bind Statement.body?).getD default

theorem Variable.body_eq {x : w.Variable} {st : Statement} {key : String} {e : Expr}
    (hfind : w.declarations.find? x.1 = some st) (hkind : st.kind = .variable key e) :
    x.body = e := by
  simp [body, hfind, Statement.body?, hkind]

theorem Variable.reads_of_body {x : w.Variable} {name : String}
    (h : name ∈ x.body.reads w.declarations []) : w.declarations.Reads x.1 name := by
  obtain ⟨st, hfind, hvar⟩ := x.2
  obtain ⟨key, e, hkind⟩ := Statement.isVariable_iff.mp hvar
  rw [body_eq hfind hkind] at h
  exact ⟨st, hfind, by simpa [Statement.reads, hkind] using h⟩

/-- Bounds by recursion along what variables read. -/
noncomputable def mostOf (hwf : WellFounded (Variable.ReachedFrom (w := w)))
    (least : String → Nat) : w.Variable → Nat :=
  hwf.fix fun x again =>
    max (max 1 (least x.1)) (x.body.reach w (extend least again) w.limits.maxCallDepth [])

/-- The bound of a variable is the one of its body, for the bounds of all variables. -/
theorem mostOf_eq (hwf : WellFounded (Variable.ReachedFrom (w := w))) (least : String → Nat)
    (x : w.Variable) : mostOf hwf least x = max (max 1 (least x.1))
      (x.body.reach w (extend least fun y (_ : True) => mostOf hwf least y)
        w.limits.maxCallDepth []) := by
  rw [mostOf, hwf.fix_eq]
  congr 1
  -- the body reads only variables that are reached from this one
  refine Expr.reach_congr (R := w.declarations.Reaches x.1) (fun name hname => ?_)
    (fun _ _ hreached hreads => hreached.tail hreads) _ _
    fun name hname => .single (Variable.reads_of_body hname)
  by_cases hvar : w.declarations.IsVariable name
  · let y : w.Variable := ⟨name, hvar⟩
    have hy : Variable.ReachedFrom y x := hname
    rw [extend_of_known (x := y) hy, extend_of_known (x := y) trivial]
  · rw [extend_of_not_variable hvar, extend_of_not_variable hvar]

/-- If no variable depends on itself, there are bounds for all of them, and these may be as large
as what is remembered needs. -/
theorem exists_bounded (h : ∀ x, w.declarations.IsVariable x → ¬ w.declarations.Reaches x x)
    (least : String → Nat) : ∃ most, w.Bounded most ∧ ∀ name, least name ≤ most name := by
  have hwf := Variable.wellFounded_reachedFrom h
  let most : String → Nat := extend least fun x (_ : True) => mostOf hwf least x
  have hvariable (x : w.Variable) : most x.1 =
      max (max 1 (least x.1)) (x.body.reach w most w.limits.maxCallDepth []) :=
    (extend_of_known trivial).trans (mostOf_eq hwf least x)
  have hleast : ∀ name, max 1 (least name) ≤ most name := by
    intro name
    by_cases hvar : w.declarations.IsVariable name
    · rw [hvariable ⟨name, hvar⟩]
      exact Nat.le_max_left _ _
    · exact Nat.le_of_eq (extend_of_not_variable hvar).symm
  refine ⟨most, ⟨fun name => ?_, fun {name st key body} hfind hkind => ?_⟩, fun name => ?_⟩
  · exact Nat.le_trans (Nat.le_max_left _ _) (hleast name)
  · let x : w.Variable := ⟨name, st, hfind, Statement.isVariable_iff.mpr ⟨key, body, hkind⟩⟩
    have hbody : x.body = body := Variable.body_eq hfind hkind
    rw [hvariable x, hbody]
    exact Nat.le_max_right _ _
  · exact Nat.le_trans (Nat.le_max_right _ _) (hleast name)

end Setting

end VectorScript
