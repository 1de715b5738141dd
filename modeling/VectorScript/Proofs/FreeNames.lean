import Mathlib.Logic.Relation
import Mathlib.Tactic.Common
import VectorScript.Proofs.ExprForms
import VectorScript.Scope
import VectorScript.Statement

/-!
# Free names

What an expression reads: its free identifiers, and the free names it calls that are declared.  A
parameter binds in the body of its function, a binder in the body and the condition of its
comprehension, but not in the source.  An argument that waits for evaluation reads what is free in
it under its own scope.

* `Expr.reads`, `Statement.reads`: the free names, under bound names.
* `Declarations.Reads`: one step from a declaration to a name that it reads.
* `Scope.exists_push_of_find?`, `Scope.ofValues_induction`, `Scope.ofArgs_induction`: how properties
  of scopes pass to what is found in them and to the bodies of functions.
* `Expr.ReadsWithin`: everything that an expression in a scope can read lies in a set of names.
-/

namespace VectorScript

/-! ### Expressions -/

namespace Expr

mutual

/-- The free names of an expression in which the names `bound` are not free. -/
def reads (ds : Declarations) (bound : List String) : Expr → List String
  | constant .. => []
  | identifier name _ => if name ∈ bound then [] else [name]
  | vector items _ => readsAll ds bound items
  | array items _ => readsAll ds bound items
  | comprehension body binder source _ =>
    reads ds bound source ++ reads ds (binder :: bound) body
  | filtered body binder source condition _ =>
    reads ds bound source ++ reads ds (binder :: bound) body ++
      reads ds (binder :: bound) condition
  | call name args _ =>
    readsAll ds bound args ++ if name ∉ bound ∧ ds.contains name then [name] else []
  | unary _ operand _ => reads ds bound operand
  | binary _ left right _ => reads ds bound left ++ reads ds bound right
  | range lower upper _ => reads ds bound lower ++ reads ds bound upper
  | index target position _ => reads ds bound target ++ reads ds bound position
  | swizzle target _ _ => reads ds bound target
  | conditional consequent condition alternative _ =>
    reads ds bound consequent ++ reads ds bound condition ++ reads ds bound alternative

/-- The free names of some expressions. -/
def readsAll (ds : Declarations) (bound : List String) : List Expr → List String
  | [] => []
  | e :: rest => reads ds bound e ++ readsAll ds bound rest

end

theorem mem_readsAll {ds : Declarations} {bound : List String} {x : String} :
    ∀ {es : List Expr}, x ∈ readsAll ds bound es ↔ ∃ e ∈ es, x ∈ e.reads ds bound
  | [] => by simp [readsAll]
  | e :: rest => by simp [readsAll, @mem_readsAll _ _ _ rest]

mutual

/-- Only which names are bound matters. -/
theorem reads_congr {ds : Declarations} {b b' : List String} (h : ∀ x, x ∈ b ↔ x ∈ b') :
    ∀ e : Expr, e.reads ds b = e.reads ds b'
  | constant .. => rfl
  | identifier name _ => by simp only [reads, h]
  | vector items _ => by simp only [reads, readsAll_congr h items]
  | array items _ => by simp only [reads, readsAll_congr h items]
  | comprehension body binder source _ => by
    have hb : ∀ x, x ∈ binder :: b ↔ x ∈ binder :: b' := by simp [h]
    simp only [reads, reads_congr h source, reads_congr hb body]
  | filtered body binder source condition _ => by
    have hb : ∀ x, x ∈ binder :: b ↔ x ∈ binder :: b' := by simp [h]
    simp only [reads, reads_congr h source, reads_congr hb body, reads_congr hb condition]
  | call name args _ => by simp only [reads, readsAll_congr h args, h]
  | unary _ operand _ => by simp only [reads, reads_congr h operand]
  | binary _ left right _ => by simp only [reads, reads_congr h left, reads_congr h right]
  | range lower upper _ => by simp only [reads, reads_congr h lower, reads_congr h upper]
  | index target position _ => by
    simp only [reads, reads_congr h target, reads_congr h position]
  | swizzle target _ _ => by simp only [reads, reads_congr h target]
  | conditional consequent condition alternative _ => by
    simp only [reads, reads_congr h consequent, reads_congr h condition,
      reads_congr h alternative]

theorem readsAll_congr {ds : Declarations} {b b' : List String} (h : ∀ x, x ∈ b ↔ x ∈ b') :
    ∀ es : List Expr, readsAll ds b es = readsAll ds b' es
  | [] => rfl
  | e :: rest => by simp only [readsAll, reads_congr h e, readsAll_congr h rest]

end

/-- Whether a name is read depends on no other declaration than its own. -/
theorem reads_mono {ds ds' : Declarations} {x : String} (h : ds.contains x → ds'.contains x)
    (e : Expr) {b : List String} (hx : x ∈ e.reads ds b) : x ∈ e.reads ds' b := by
  induction e using induction_on_children generalizing b with
  | h e ih =>
    cases e with
    | constant | identifier => exact hx
    | vector items span | array items span =>
      obtain ⟨item, hitem, hx⟩ := mem_readsAll.mp hx
      exact mem_readsAll.mpr ⟨item, hitem, ih item hitem hx⟩
    | unary op operand span => exact ih operand (by simp [children]) hx
    | swizzle target components span => exact ih target (by simp [children]) hx
    | call name args span =>
      simp only [reads, List.mem_append, mem_readsAll] at hx ⊢
      rcases hx with ⟨arg, harg, hx⟩ | hx
      · exact .inl ⟨arg, harg, ih arg harg hx⟩
      · right
        split_ifs at hx with hcalled
        · obtain rfl : x = name := List.mem_singleton.mp hx
          rwa [if_pos ⟨hcalled.1, h hcalled.2⟩]
        · cases hx
    | comprehension body binder source span =>
      simp only [reads, List.mem_append] at hx ⊢
      exact hx.imp (ih source (by simp [children])) (ih body (by simp [children]))
    | binary op left right span | range left right span | index left right span =>
      simp only [reads, List.mem_append] at hx ⊢
      exact hx.imp (ih left (by simp [children])) (ih right (by simp [children]))
    | filtered body binder source condition span =>
      simp only [reads, List.mem_append] at hx ⊢
      exact hx.imp (.imp (ih source (by simp [children])) (ih body (by simp [children])))
        (ih condition (by simp [children]))
    | conditional consequent condition alternative span =>
      simp only [reads, List.mem_append] at hx ⊢
      exact hx.imp (.imp (ih consequent (by simp [children])) (ih condition (by simp [children])))
        (ih alternative (by simp [children]))

end Expr

/-! ### Declarations -/

/-- The free names of the body of a declaration. -/
def Statement.reads (ds : Declarations) (st : Statement) : List String :=
  match st.kind with
  | .variable _ body => body.reads ds []
  | .function _ params body => body.reads ds params
  | _ => []

theorem Statement.reads_mono {ds ds' : Declarations} {x : String}
    (h : ds.contains x → ds'.contains x) {st : Statement} (hx : x ∈ st.reads ds) :
    x ∈ st.reads ds' := by
  unfold reads at hx ⊢
  cases hkind : st.kind <;> simp only [hkind] at hx ⊢
  · exact Expr.reads_mono h _ hx
  · exact Expr.reads_mono h _ hx
  · exact hx
  · exact hx

namespace Declarations

/-- The declaration of `x` reads `y`. -/
def Reads (ds : Declarations) (x y : String) : Prop :=
  ∃ st, ds.find? x = some st ∧ y ∈ st.reads ds

/-- `y` is read by the declaration of `x`, directly or through others. -/
def Reaches (ds : Declarations) : String → String → Prop :=
  Relation.TransGen ds.Reads

/-- A variable is declared under the name. -/
def IsVariable (ds : Declarations) (x : String) : Prop :=
  ∃ st, ds.find? x = some st ∧ st.isVariable

/-- No variable that is reached from `x`, nor `x` itself, leads back to itself. -/
def Acyclic (ds : Declarations) (x : String) : Prop :=
  ∀ y, Relation.ReflTransGen ds.Reads x y → ds.IsVariable y → ¬ ds.Reaches y y

theorem Acyclic.of_reads {ds : Declarations} {x y : String} (h : ds.Acyclic x)
    (hxy : ds.Reads x y) : ds.Acyclic y :=
  fun z hyz => h z (hyz.head hxy)

end Declarations

/-! ### Scopes -/

namespace Scope

/-- The bound names, innermost first. -/
def names : Scope → List String
  | root => []
  | bind name _ rest => name :: rest.names
  | defer name _ _ _ rest => name :: rest.names

theorem find?_eq_none {s : Scope} {x : String} : s.find? x = none ↔ x ∉ s.names := by
  induction s with
  | root => simp [find?, names]
  | bind key value rest ih =>
    by_cases hx : key = x
    · simp [find?, names, hx]
    · simp [find?, names, hx, ih, Ne.symm hx]
  | defer key arg outer owner rest _ ih =>
    by_cases hx : key = x
    · simp [find?, names, hx]
    · simp [find?, names, hx, ih, Ne.symm hx]

theorem contains_iff {s : Scope} {x : String} : s.contains x ↔ x ∈ s.names := by
  rw [← not_iff_not, ← find?_eq_none]
  simp [contains]

theorem mem_names_ofArgs {outer : Scope} {owner : Option String} {x : String} :
    ∀ {params : List String} {args : List Expr} {s : Scope}, params.length = args.length →
      (x ∈ (ofArgs outer owner params args s).names ↔ x ∈ params ∨ x ∈ s.names)
  | [], [], s, _ => by simp [ofArgs]
  | p :: params, arg :: args, s, h => by
    rw [ofArgs, mem_names_ofArgs (by simpa using h)]
    simp only [names, List.mem_cons]
    tauto

theorem mem_names_ofValues {x : String} :
    ∀ {params : List String} {values : List Series} {s : Scope}, params.length = values.length →
      (x ∈ (ofValues params values s).names ↔ x ∈ params ∨ x ∈ s.names)
  | [], [], s, _ => by simp [ofValues]
  | p :: params, v :: values, s, h => by
    rw [ofValues, mem_names_ofValues (by simpa using h)]
    simp only [names, List.mem_cons]
    tauto

/-- The scope in which a name is bound on top of the others. -/
def push (name : String) (rest : Scope) : Binding → Scope
  | .value v => bind name v rest
  | .deferred arg outer owner => defer name arg outer owner rest

/-- What passes from a scope to the rest under its top holds of a scope that has the binding which
is found on its top. -/
theorem exists_push_of_find? {P : Scope → Prop} {s : Scope} {x : String} {b : Binding}
    (hrest : ∀ name rest b, P (push name rest b) → P rest) (h : P s)
    (hfind : s.find? x = some b) : ∃ rest, P (push x rest b) := by
  induction s with
  | root => cases hfind
  | bind key value rest ih =>
    simp only [find?] at hfind
    split_ifs at hfind with hkey
    · cases hfind
      exact ⟨rest, hkey ▸ h⟩
    · exact ih (hrest key rest (.value value) h) hfind
  | defer key arg outer owner rest _ ih =>
    simp only [find?] at hfind
    split_ifs at hfind with hkey
    · cases hfind
      exact ⟨rest, hkey ▸ h⟩
    · exact ih (hrest key rest (.deferred arg outer owner) h) hfind

/-- What the binding of each parameter to its value keeps holds in the body of a function. -/
theorem ofValues_induction {P : Scope → Prop} {params : List String} {values : List Series}
    {s : Scope} (hbind : ∀ p v rest, (p, v) ∈ params.zip values → P rest → P (bind p v rest))
    (h : P s) : P (ofValues params values s) := by
  induction params generalizing values s with
  | nil => exact h
  | cons p params ih =>
    cases values with
    | nil => exact h
    | cons v values =>
      exact ih (fun q u rest hmem => hbind q u rest (List.mem_cons_of_mem _ hmem))
        (hbind p v s List.mem_cons_self h)

/-- What the binding of each parameter to its argument keeps holds in the body of a function. -/
theorem ofArgs_induction {P : Scope → Prop} {outer : Scope} {owner : Option String}
    {params : List String} {args : List Expr} {s : Scope}
    (hdefer : ∀ p arg rest, (p, arg) ∈ params.zip args → P rest →
      P (defer p arg outer owner rest))
    (h : P s) : P (ofArgs outer owner params args s) := by
  induction params generalizing args s with
  | nil => exact h
  | cons p params ih =>
    cases args with
    | nil => exact h
    | cons arg args =>
      exact ih (fun q a rest hmem => hdefer q a rest (List.mem_cons_of_mem _ hmem))
        (hdefer p arg s List.mem_cons_self h)

/-- Everything that waiting arguments read lies in `R`. -/
def ReadsWithin (ds : Declarations) (R : String → Prop) : Scope → Prop
  | root => True
  | bind _ _ rest => rest.ReadsWithin ds R
  | defer _ arg outer _ rest =>
    (∀ x ∈ arg.reads ds outer.names, R x) ∧ outer.ReadsWithin ds R ∧ rest.ReadsWithin ds R

theorem readsWithin_ofValues {ds : Declarations} {R : String → Prop} {params : List String}
    {values : List Series} {s : Scope} (h : s.ReadsWithin ds R) :
    (ofValues params values s).ReadsWithin ds R :=
  ofValues_induction (fun _ _ _ _ hrest => hrest) h

theorem readsWithin_ofArgs {ds : Declarations} {R : String → Prop} {outer : Scope}
    {owner : Option String} (houter : outer.ReadsWithin ds R) {params : List String}
    {args : List Expr} {s : Scope} (hargs : ∀ arg ∈ args, ∀ x ∈ arg.reads ds outer.names, R x)
    (h : s.ReadsWithin ds R) : (ofArgs outer owner params args s).ReadsWithin ds R :=
  ofArgs_induction (fun _ arg _ hmem hrest => ⟨hargs arg (List.of_mem_zip hmem).2, houter, hrest⟩) h

theorem ReadsWithin.rest {ds : Declarations} {R : String → Prop} (name : String) (rest : Scope)
    (b : Binding) (h : (push name rest b).ReadsWithin ds R) : rest.ReadsWithin ds R := by
  cases b with
  | value v => exact h
  | deferred arg outer owner => exact h.2.2

end Scope

/-! ### Expressions in a scope -/

namespace Expr

/-- Everything that an expression in a scope can read lies in `R`. -/
def ReadsWithin (ds : Declarations) (R : String → Prop) (s : Scope) (e : Expr) : Prop :=
  (∀ x ∈ e.reads ds s.names, R x) ∧ s.ReadsWithin ds R

end Expr

/-- A waiting argument reads within what its scope allows. -/
theorem Scope.ReadsWithin.of_deferred {ds : Declarations} {R : String → Prop} {s outer : Scope}
    {x : String} {arg : Expr} {owner : Option String} (h : s.ReadsWithin ds R)
    (hx : s.find? x = some (.deferred arg outer owner)) : arg.ReadsWithin ds R outer := by
  obtain ⟨_, harg, houter, -⟩ := exists_push_of_find? ReadsWithin.rest h hx
  exact ⟨harg, houter⟩

namespace Expr

variable {ds : Declarations} {R : String → Prop} {s : Scope}

theorem ReadsWithin.name {name : String} {span : Span}
    (h : (identifier name span).ReadsWithin ds R s) (hfree : s.find? name = none) : R name := by
  refine h.1 name ?_
  simp [reads, Scope.find?_eq_none.mp hfree]

/-- A name on its own reads itself. -/
theorem ReadsWithin.ofName {name : String} {span : Span} (h : R name) :
    (identifier name span).ReadsWithin ds R .root := by
  refine ⟨fun x hx => ?_, trivial⟩
  obtain rfl : x = name := by simpa [reads, Scope.names] using hx
  exact h

theorem ReadsWithin.called {name : String} {args : List Expr} {span : Span}
    (h : (call name args span).ReadsWithin ds R s) (hfree : ¬ s.contains name)
    (hdeclared : ds.contains name) : R name := by
  refine h.1 name ?_
  rw [Scope.contains_iff] at hfree
  simp [reads, hfree, hdeclared]

theorem ReadsWithin.arg {name : String} {args : List Expr} {span : Span}
    (h : (call name args span).ReadsWithin ds R s) : ∀ arg ∈ args, arg.ReadsWithin ds R s :=
  fun arg harg => ⟨fun x hx => h.1 x (by
    simp only [reads, List.mem_append]
    exact .inl (mem_readsAll.mpr ⟨arg, harg, hx⟩)), h.2⟩

theorem ReadsWithin.vectorItem {items : List Expr} {span : Span}
    (h : (vector items span).ReadsWithin ds R s) : ∀ item ∈ items, item.ReadsWithin ds R s :=
  fun item hitem => ⟨fun x hx => h.1 x (mem_readsAll.mpr ⟨item, hitem, hx⟩), h.2⟩

theorem ReadsWithin.arrayItem {items : List Expr} {span : Span}
    (h : (array items span).ReadsWithin ds R s) : ∀ item ∈ items, item.ReadsWithin ds R s :=
  fun item hitem => ⟨fun x hx => h.1 x (mem_readsAll.mpr ⟨item, hitem, hx⟩), h.2⟩

theorem ReadsWithin.source {body source : Expr} {binder : String} {span : Span}
    (h : (comprehension body binder source span).ReadsWithin ds R s) :
    source.ReadsWithin ds R s :=
  ⟨fun x hx => h.1 x (by simp [reads, hx]), h.2⟩

theorem ReadsWithin.body {body source : Expr} {binder : String} {span : Span}
    (h : (comprehension body binder source span).ReadsWithin ds R s) (v : Series) :
    body.ReadsWithin ds R (.bind binder v s) :=
  ⟨fun x hx => h.1 x (by simp only [reads, List.mem_append]; exact .inr hx), h.2⟩

theorem ReadsWithin.filteredParts {body source condition : Expr} {binder : String} {span : Span}
    (h : (filtered body binder source condition span).ReadsWithin ds R s) :
    source.ReadsWithin ds R s ∧ ∀ v, body.ReadsWithin ds R (.bind binder v s) ∧
      condition.ReadsWithin ds R (.bind binder v s) := by
  refine ⟨⟨fun x hx => h.1 x (by simp [reads, hx]), h.2⟩, fun v => ⟨⟨fun x hx => ?_, h.2⟩,
    ⟨fun x hx => ?_, h.2⟩⟩⟩
  · refine h.1 x ?_
    simp only [reads, List.mem_append]
    exact .inl (.inr hx)
  · refine h.1 x ?_
    simp only [reads, List.mem_append]
    exact .inr hx

theorem ReadsWithin.operand {op : UnaryOp} {operand : Expr} {span : Span}
    (h : (unary op operand span).ReadsWithin ds R s) : operand.ReadsWithin ds R s := h

theorem ReadsWithin.target {target : Expr} {components : String} {span : Span}
    (h : (swizzle target components span).ReadsWithin ds R s) : target.ReadsWithin ds R s := h

theorem ReadsWithin.binaryParts {op : BinaryOp} {left right : Expr} {span : Span}
    (h : (binary op left right span).ReadsWithin ds R s) :
    left.ReadsWithin ds R s ∧ right.ReadsWithin ds R s :=
  ⟨⟨fun x hx => h.1 x (by simp [reads, hx]), h.2⟩, ⟨fun x hx => h.1 x (by simp [reads, hx]), h.2⟩⟩

theorem ReadsWithin.rangeParts {lower upper : Expr} {span : Span}
    (h : (range lower upper span).ReadsWithin ds R s) :
    lower.ReadsWithin ds R s ∧ upper.ReadsWithin ds R s :=
  ⟨⟨fun x hx => h.1 x (by simp [reads, hx]), h.2⟩, ⟨fun x hx => h.1 x (by simp [reads, hx]), h.2⟩⟩

theorem ReadsWithin.indexParts {target position : Expr} {span : Span}
    (h : (index target position span).ReadsWithin ds R s) :
    target.ReadsWithin ds R s ∧ position.ReadsWithin ds R s :=
  ⟨⟨fun x hx => h.1 x (by simp [reads, hx]), h.2⟩, ⟨fun x hx => h.1 x (by simp [reads, hx]), h.2⟩⟩

theorem ReadsWithin.conditionalParts {consequent condition alternative : Expr} {span : Span}
    (h : (conditional consequent condition alternative span).ReadsWithin ds R s) :
    consequent.ReadsWithin ds R s ∧ condition.ReadsWithin ds R s ∧
      alternative.ReadsWithin ds R s :=
  ⟨⟨fun x hx => h.1 x (by simp [reads, hx]), h.2⟩, ⟨fun x hx => h.1 x (by simp [reads, hx]), h.2⟩,
    ⟨fun x hx => h.1 x (by simp [reads, hx]), h.2⟩⟩

/-- The body of a variable reads what the variable reads. -/
theorem ReadsWithin.ofVariable {name key : String} {st : Statement} {body : Expr}
    (hfind : ds.find? name = some st) (hkind : st.kind = .variable key body)
    (hR : ∀ y, ds.Reads name y → R y) : body.ReadsWithin ds R .root :=
  ⟨fun x hx => hR x ⟨st, hfind, by simpa only [Statement.reads, hkind, Scope.names] using hx⟩,
    trivial⟩

/-- The body of a function reads what the function reads, once its parameters are bound. -/
theorem ReadsWithin.ofFunction {name key : String} {st : Statement} {params : List String}
    {body : Expr} (hfind : ds.find? name = some st) (hkind : st.kind = .function key params body)
    (hR : ∀ y, ds.Reads name y → R y) {frame : Scope} (hframe : frame.ReadsWithin ds R)
    (hnames : ∀ x, x ∈ frame.names ↔ x ∈ params) : body.ReadsWithin ds R frame := by
  refine ⟨fun x hx => hR x ⟨st, hfind, ?_⟩, hframe⟩
  rw [reads_congr hnames] at hx
  simpa [Statement.reads, hkind] using hx

end Expr

end VectorScript
