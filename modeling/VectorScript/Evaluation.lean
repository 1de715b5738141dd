import VectorScript.Builtin.Catalog
import VectorScript.Meaning.Access
import VectorScript.Meaning.ArrayLiteral
import VectorScript.Meaning.BuiltinCall
import VectorScript.Meaning.Comprehension
import VectorScript.Meaning.Elementwise
import VectorScript.Meaning.Range
import VectorScript.Nesting

/-!
# Evaluation

The meaning of every expression, given the declarations, the limits and the animation.  It is put
together from the meanings of what its evaluation leads to, which nest less deep; so the recursion
ends.
-/

namespace VectorScript

namespace Expr

mutual

/-- Whether the shape of an expression may depend on the values it reads: branches are picked by
value, ranges take their length from values, and declared functions may do either. -/
def shapeMayVary (ds : Declarations) : Expr → Bool
  | constant .. | identifier .. => false
  | conditional .. | range .. | comprehension .. | filtered .. => true
  | vector items _ | array items _ => anyShapeMayVary ds items
  | unary _ operand _ => shapeMayVary ds operand
  | binary _ left right _ => shapeMayVary ds left || shapeMayVary ds right
  | index target position _ => shapeMayVary ds target || shapeMayVary ds position
  | swizzle target _ _ => shapeMayVary ds target
  | call name args _ => ds.contains name || anyShapeMayVary ds args

def anyShapeMayVary (ds : Declarations) : List Expr → Bool
  | [] => false
  | e :: rest => shapeMayVary ds e || anyShapeMayVary ds rest

end

end Expr

/-- The meaning of an undeclared name. -/
@[specialize] def Meaning.ofUndeclared {m : Type → Type} [Answering m] (animation : Animation)
    (site : Site) (name : String) : Meaning m :=
  match Catalog.constant? animation name with
  | some v => .const v
  | none =>
    if Catalog.isFunction name then .fail site (.identifierNotVariable name)
    else .fail site (.undefinedIdentifier name)

/-- The meaning of a call of an undeclared name. -/
@[specialize] def Meaning.ofBuiltinCall {m : Type → Type} [Answering m] (site : Site)
    (name : String) (args : List (Meaning m)) : Meaning m :=
  match Catalog.lookup name args.length with
  | .ok (some b) => .builtin site b args
  | .ok none =>
    if Catalog.isConstant name then .fail site (.identifierNotFunction name)
    else .fail site (.undefinedIdentifier name)
  | .error cause => .fail site cause

/-- How the answers of an expression come from the answers of its parts. -/
structure Nodes (m : Type → Type) where
  vector : Site → List (Meaning m) → Meaning m
  array : Site → Nat → List (Meaning.Item m) → Meaning m
  comprehension : Comprehension m → Meaning m
  filtered : Comprehension m → (Series → Meaning m) → Meaning m
  builtinCall : Site → String → List (Meaning m) → Meaning m
  unary : Site → UnaryOp → Meaning m → Meaning m
  binary : Site → BinaryOp → Meaning m → Meaning m → Meaning m
  range : Site → Site → Site → Nat → Meaning m → Meaning m → Meaning m
  index : Site → Meaning m → Meaning m → Meaning m
  swizzle : Site → String → Meaning m → Meaning m
  conditional : Site → Meaning m → Meaning m → Meaning m → Meaning m

/-- The nodes of evaluation. -/
@[specialize] def Nodes.standard {m : Type → Type} [Answering m] : Nodes m where
  vector := .vector
  array := .arrayLiteral
  comprehension := Comprehension.meaning
  filtered := Comprehension.filtered
  builtinCall := .ofBuiltinCall
  unary := .unary
  binary := .binary
  range := .range
  index := .index
  swizzle := .swizzle
  conditional := .conditional

namespace Expr

variable {m : Type → Type} [Answering m]

/-- An item of a literal by its answers. -/
abbrev itemOf (ctx : Context) (item : Expr) (answers : Meaning m) : Meaning.Item m where
  site := ctx.site item.span
  makesRun := item.makesRun
  meaning := answers

/-- A comprehension by the answers of its source, and of its body for each element. -/
abbrev comprehensionOf (w : Setting) (ctx : Context) (body : Expr) (span : Span)
    (source : Meaning m) (each : Series → Meaning m) : Comprehension m where
  site := ctx.site span
  bodySite := ctx.site body.span
  limit := w.limits.maxArrayLength
  source := source
  body := each
  makesRuns := body.makesRun
  varies := body.shapeMayVary w.declarations

section

variable {P : Context → Expr → Prop} (again : ∀ ctx e, P ctx e → Meaning m)

/-- What a free name means when it is not remembered, where `again` answers for the body of the
variable that it declares. -/
@[specialize] def freeStep (w : Setting) (ctx : Context) (name : String) (span : Span)
    (hbelow : ∀ ctx' e', Below w ctx' e' ctx (.identifier name span) → P ctx' e') : Meaning m :=
  match hfind : w.declarations.find? name with
  | some st =>
    match hkind : st.kind with
    | .variable _ body =>
      if hopen : name ∈ ctx.opened then .fail (ctx.site span) (.cyclicDefinition name)
      else
        .ofVariable name (.delay fun _ => again (ctx.inVariable name) body
          (hbelow _ _ ⟨nesting_reference hfind hkind hopen⟩))
    | _ => .fail (ctx.site span) (.identifierNotVariable name)
  | none => .ofUndeclared w.animation (ctx.site span) name

/-- What a call means, where `again` answers for its arguments and for the body of the function that
its name declares. -/
@[specialize] def callStep (nodes : Nodes m) (w : Setting) (ctx : Context) (name : String)
    (args : List Expr) (span : Span)
    (hbelow : ∀ ctx' e', Below w ctx' e' ctx (.call name args span) → P ctx' e') : Meaning m :=
  let answers := args.attach.map fun ⟨arg, h⟩ =>
    .delay fun _ => again ctx arg (hbelow _ _ ⟨nesting_child h⟩)
  if ctx.scope.contains name then .fail (ctx.site span) (.identifierNotFunction name)
  else
    match hfind : w.declarations.find? name with
    | some st =>
      match hkind : st.kind with
      | .function _ params body =>
        if params.length ≠ args.length then
          .fail (ctx.site span) (.incorrectParameterCount name params.length args.length)
        else if hdepth : ctx.depth < w.limits.maxCallDepth then
          .call answers
            (fun values => again (ctx.inFunction name (.ofValues params values .root)) body
              (hbelow _ _ ⟨nesting_applied values hfind hkind hdepth⟩))
            (.delay fun _ => again
              (ctx.inFunction name (.ofArgs ctx.scope ctx.owner params args .root)) body
              (hbelow _ _ ⟨nesting_called hfind hkind hdepth⟩))
        else .fail (ctx.site span) (.recursionLimit w.limits.maxCallDepth)
      | _ => .fail (ctx.site span) (.identifierNotFunction name)
    | none => nodes.builtinCall (ctx.site span) name answers

/-- The answers of an expression, where `again` answers for what its evaluation leads to. -/
@[specialize] def step (nodes : Nodes m) (w : Setting) (ctx : Context) (e : Expr)
    (hbelow : ∀ ctx' e', Below w ctx' e' ctx e → P ctx' e') : Meaning m :=
  let part (c : Expr) (h : P ctx c) : Meaning m := .delay fun _ => again ctx c h
  match e with
  | .constant x _ => .const (.scalar x)
  | .identifier name span =>
    match hbound : ctx.scope.find? name with
    | some (.value v) => .const v
    | some (.deferred arg outer owner) =>
      .delay fun _ =>
        again (ctx.resume outer owner) arg (hbelow _ _ ⟨nesting_deferred hbound⟩)
    | none => .recalledOr name (freeStep again w ctx name span hbelow)
  | .vector items span =>
    nodes.vector (ctx.site span) (items.attach.map fun ⟨item, h⟩ =>
      part item (hbelow _ _ ⟨nesting_child h⟩))
  | .array items span =>
    nodes.array (ctx.site span) w.limits.maxArrayLength (items.attach.map fun ⟨item, h⟩ =>
      itemOf ctx item (part item (hbelow _ _ ⟨nesting_child h⟩)))
  | .comprehension body binder source span =>
    nodes.comprehension (comprehensionOf w ctx body span
      (part source (hbelow _ _ ⟨nesting_child (by simp [children])⟩)) fun v =>
        again (ctx.bind binder v) body (hbelow _ _ ⟨nesting_element _ v (by simp [children])⟩))
  | .filtered body binder source condition span =>
    nodes.filtered (comprehensionOf w ctx body span
      (part source (hbelow _ _ ⟨nesting_child (by simp [children])⟩)) fun v =>
        again (ctx.bind binder v) body (hbelow _ _ ⟨nesting_element _ v (by simp [children])⟩))
      fun v =>
        again (ctx.bind binder v) condition (hbelow _ _ ⟨nesting_element _ v (by simp [children])⟩)
  | .call name args span => callStep again nodes w ctx name args span hbelow
  | .unary op operand span =>
    nodes.unary (ctx.site span) op
      (part operand (hbelow _ _ ⟨nesting_child (by simp [children])⟩))
  | .binary op left right span =>
    nodes.binary (ctx.site span) op
      (part left (hbelow _ _ ⟨nesting_child (by simp [children])⟩))
      (part right (hbelow _ _ ⟨nesting_child (by simp [children])⟩))
  | .range lower upper span =>
    nodes.range (ctx.site span) (ctx.site lower.span) (ctx.site upper.span) w.limits.maxArrayLength
      (part lower (hbelow _ _ ⟨nesting_child (by simp [children])⟩))
      (part upper (hbelow _ _ ⟨nesting_child (by simp [children])⟩))
  | .index target position _ =>
    nodes.index (ctx.site position.span)
      (part target (hbelow _ _ ⟨nesting_child (by simp [children])⟩))
      (part position (hbelow _ _ ⟨nesting_child (by simp [children])⟩))
  | .swizzle target components span =>
    nodes.swizzle (ctx.site span) components
      (part target (hbelow _ _ ⟨nesting_child (by simp [children])⟩))
  | .conditional consequent condition alternative span =>
    nodes.conditional (ctx.site span)
      (part consequent (hbelow _ _ ⟨nesting_child (by simp [children])⟩))
      (part condition (hbelow _ _ ⟨nesting_child (by simp [children])⟩))
      (part alternative (hbelow _ _ ⟨nesting_child (by simp [children])⟩))

end

/-- The answers of an expression to requests. -/
@[specialize] def meaning (w : Setting) (ctx : Context) (e : Expr) : Meaning m :=
  step (P := fun ctx' e' => Below w ctx' e' ctx e) (fun ctx' e' _below => meaning w ctx' e')
    .standard w ctx e fun _ _ h => h
termination_by (⟨ctx, e⟩ : Place w)
decreasing_by exact _below

end Expr

end VectorScript
