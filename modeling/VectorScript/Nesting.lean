import VectorScript.Context

/-!
# Nesting

How deep evaluations nest is bounded by the depth of calls that is left, the variables that are not
open, and the size of the expression with all arguments that wait in its scope.  Evaluation goes
into a part of an expression, into an argument that waits, into the body of a variable that is not
open, or into the body of a function; each lowers the bound.
-/

namespace VectorScript

/-! ### A bound on nesting -/

/-- A bound by the number of bodies that may still be entered and the size of what is evaluated.
Bodies are smaller than `base`, and a call hands over at most as many arguments as its size, none of
which is larger than the call. -/
def nestingBound (base : Nat) : Nat → Nat → Nat
  | 0, size => size
  | entries + 1, size => size + 1 + nestingBound base entries (base + size * size)

section

variable {base entries entries' size size' : Nat}

theorem nestingBound_mono (h : size ≤ size') :
    nestingBound base entries size ≤ nestingBound base entries size' := by
  induction entries generalizing size size' with
  | zero => exact h
  | succ entries ih =>
    have hsquare : size * size ≤ size' * size' := Nat.mul_le_mul h h
    have hbelow := ih (Nat.add_le_add_left hsquare base)
    simp only [nestingBound]
    omega

theorem nestingBound_lt_of_size (h : size < size') :
    nestingBound base entries size < nestingBound base entries size' := by
  cases entries with
  | zero => exact h
  | succ entries =>
    have hsquare : size * size ≤ size' * size' := Nat.mul_le_mul (Nat.le_of_lt h) (Nat.le_of_lt h)
    have hbelow : nestingBound base entries (base + size * size) ≤
        nestingBound base entries (base + size' * size') :=
      nestingBound_mono (Nat.add_le_add_left hsquare base)
    simp only [nestingBound]
    omega

theorem nestingBound_le_of_entries (h : entries ≤ entries') :
    nestingBound base entries size ≤ nestingBound base entries' size := by
  induction h with
  | refl => exact Nat.le_refl _
  | @step k _ ih =>
    have hsquare : size ≤ base + size * size := by
      have := Nat.le_mul_self size
      omega
    have hbelow : nestingBound base k size ≤ nestingBound base k (base + size * size) :=
      nestingBound_mono hsquare
    simp only [nestingBound]
    omega

/-- Entering a body lowers the bound, also if that makes what is evaluated larger. -/
theorem nestingBound_lt_of_entry (h : entries < entries') (hsize : size' ≤ base + size * size) :
    nestingBound base entries size' < nestingBound base entries' size := by
  have hentered : nestingBound base (entries + 1) size ≤ nestingBound base entries' size :=
    nestingBound_le_of_entries h
  have hbelow : nestingBound base entries size' ≤ nestingBound base entries (base + size * size) :=
    nestingBound_mono hsize
  simp only [nestingBound] at hentered
  omega

end

/-! ### Sizes -/

namespace Scope

theorem weight_ofValues (params : List String) (values : List Series) (s : Scope) :
    (ofValues params values s).weight = s.weight := by
  induction params generalizing values s with
  | nil => rfl
  | cons p params ih =>
    cases values with
    | nil => rfl
    | cons v values => exact ih values (bind p v s)

/-- Each argument of a call adds its size and the weight of its scope. -/
theorem weight_ofArgs_le {outer : Scope} {owner : Option String} {params : List String}
    {args : List Expr} {s : Scope} {k : Nat}
    (h : ∀ arg ∈ args, sizeOf arg + outer.weight + 1 ≤ k) :
    (ofArgs outer owner params args s).weight ≤ s.weight + args.length * k := by
  induction params generalizing args s with
  | nil => exact Nat.le_add_right _ _
  | cons p params ih =>
    cases args with
    | nil => exact Nat.le_add_right _ _
    | cons arg args =>
      obtain ⟨harg, hargs⟩ := List.forall_mem_cons.mp h
      have hrest := ih (s := .defer p arg outer owner s) hargs
      have hcount : (arg :: args).length * k = args.length * k + k := Nat.succ_mul _ _
      simp only [weight] at hrest
      simp only [ofArgs, hcount]
      omega

end Scope

theorem length_le_sizeOf {α : Type} [SizeOf α] (xs : List α) : xs.length ≤ sizeOf xs := by
  induction xs with
  | nil => simp
  | cons x xs ih =>
    simp
    omega

/-! ### Steps -/

namespace Expr

/-- A bound on how deep evaluations nest that begin with an expression in a context. -/
noncomputable def nesting (w : Setting) (ctx : Context) (e : Expr) : Nat :=
  nestingBound (sizeOf w.declarations)
    (w.limits.maxCallDepth - ctx.depth + w.declarations.unused ctx.opened)
    (sizeOf e + ctx.scope.weight)

/-- Evaluation of one expression in its context nests less deep than that of another one. -/
structure Below (w : Setting) (ctx' : Context) (e' : Expr) (ctx : Context) (e : Expr) : Prop where
  lt : nesting w ctx' e' < nesting w ctx e

/-- An expression in a context. -/
structure Place (w : Setting) where
  ctx : Context
  expr : Expr

theorem wellFounded_below (w : Setting) :
    WellFounded fun p q : Place w => Below w p.ctx p.expr q.ctx q.expr :=
  Subrelation.wf Below.lt (InvImage.wf (fun p : Place w => nesting w p.ctx p.expr) Nat.lt_wfRel.wf)

instance (w : Setting) : WellFoundedRelation (Place w) := ⟨_, wellFounded_below w⟩

section

variable {w : Setting} {ctx : Context} {name key : String} {span : Span} {st : Statement}
  {body : Expr} {params : List String} {args : List Expr}

/-- The body of a declaration is smaller than all declarations together. -/
theorem sizeOf_body_lt (hfind : w.declarations.find? name = some st)
    (hbody : st.body? = some body) : sizeOf body < sizeOf w.declarations := by
  have hst := NameTable.sizeOf_lt_of_find? hfind
  obtain ⟨kind, tokens⟩ := st
  cases kind with
  | invalid => cases hbody
  | _ =>
    cases hbody
    simp at hst
    omega

theorem nesting_child {e c : Expr} (h : c ∈ e.children) : nesting w ctx c < nesting w ctx e :=
  nestingBound_lt_of_size (Nat.add_lt_add_right (sizeOf_lt_of_mem_children h) _)

theorem nesting_element {e c : Expr} (binder : String) (v : Series) (h : c ∈ e.children) :
    nesting w (ctx.bind binder v) c < nesting w ctx e :=
  nesting_child h

theorem nesting_deferred {arg : Expr} {outer : Scope} {owner : Option String}
    (h : ctx.scope.find? name = some (.deferred arg outer owner)) :
    nesting w (ctx.resume outer owner) arg < nesting w ctx (identifier name span) := by
  have hweight := Scope.weight_of_deferred h
  exact nestingBound_lt_of_size (Nat.lt_add_left _ hweight)

theorem nesting_reference (hfind : w.declarations.find? name = some st)
    (hkind : st.kind = .variable key body) (hopen : name ∉ ctx.opened) :
    nesting w (ctx.inVariable name) body < nesting w ctx (identifier name span) := by
  have hfewer := NameTable.unused_cons_lt hfind hopen
  have hbody : sizeOf body < sizeOf w.declarations :=
    sizeOf_body_lt hfind (by simp [Statement.body?, hkind])
  refine nestingBound_lt_of_entry (Nat.add_lt_add_left hfewer _) ?_
  show sizeOf body + 0 ≤ _
  omega

theorem nesting_applied (values : List Series) (hfind : w.declarations.find? name = some st)
    (hkind : st.kind = .function key params body) (hdepth : ctx.depth < w.limits.maxCallDepth) :
    nesting w (ctx.inFunction name (.ofValues params values .root)) body <
      nesting w ctx (call name args span) := by
  have hbody : sizeOf body < sizeOf w.declarations :=
    sizeOf_body_lt hfind (by simp [Statement.body?, hkind])
  refine nestingBound_lt_of_entry ?_ ?_
  · show w.limits.maxCallDepth - (ctx.depth + 1) + w.declarations.unused ctx.opened < _
    omega
  · show sizeOf body + (Scope.ofValues params values .root).weight ≤ _
    rw [Scope.weight_ofValues]
    show sizeOf body + 0 ≤ _
    omega

theorem nesting_called (hfind : w.declarations.find? name = some st)
    (hkind : st.kind = .function key params body) (hdepth : ctx.depth < w.limits.maxCallDepth) :
    nesting w (ctx.inFunction name (.ofArgs ctx.scope ctx.owner params args .root)) body <
      nesting w ctx (call name args span) := by
  have hbody : sizeOf body < sizeOf w.declarations :=
    sizeOf_body_lt hfind (by simp [Statement.body?, hkind])
  have hargs : ∀ arg ∈ args, sizeOf arg + ctx.scope.weight + 1 ≤
      sizeOf (call name args span) + ctx.scope.weight := by
    intro arg harg
    have := sizeOf_lt_of_mem_children (e := call name args span) harg
    omega
  have hcount : args.length ≤ sizeOf (call name args span) + ctx.scope.weight := by
    have := length_le_sizeOf args
    simp
    omega
  have hweight : (Scope.ofArgs ctx.scope ctx.owner params args .root).weight ≤
      Scope.root.weight + args.length * (sizeOf (call name args span) + ctx.scope.weight) :=
    Scope.weight_ofArgs_le hargs
  have hsquare := Nat.mul_le_mul_right (sizeOf (call name args span) + ctx.scope.weight) hcount
  refine nestingBound_lt_of_entry ?_ ?_
  · show w.limits.maxCallDepth - (ctx.depth + 1) + w.declarations.unused ctx.opened < _
    omega
  · show sizeOf body + (Scope.ofArgs ctx.scope ctx.owner params args .root).weight ≤ _
    simp only [Scope.weight] at hweight
    omega

end

end Expr

end VectorScript
