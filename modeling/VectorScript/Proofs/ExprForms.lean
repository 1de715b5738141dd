import Mathlib.Tactic.Common
import VectorScript.Statement

/-!
# Forms of expressions

Which trees stand for written expressions: a property of one node with its parts, asked of every
node of a tree.

* `Expr.everywhere`: a property holds of every node.
* `Expr.nodes`: all nodes of a tree.
* `Expr.isFormed`: what a node and its parts look like when they were read from a text.
* `Expr.wellFormed`, `Expr.whenFree`: both for whole trees, with the same for statements.
* `Expr.Simple`, `Expr.Written`: written trees without conditions in comprehensions, or with them.
-/

namespace VectorScript

namespace Expr

/-- Induction on the parts of an expression. -/
theorem induction_on_children {motive : Expr → Prop}
    (h : ∀ e, (∀ c ∈ e.children, motive c) → motive e) (e : Expr) : motive e :=
  h e fun c hc => have := sizeOf_lt_of_mem_children hc; induction_on_children h c
termination_by sizeOf e

mutual

/-- A property holds of every node of an expression. -/
def everywhere (p : Expr → Bool) : Expr → Bool
  | e@(constant ..) | e@(identifier ..) => p e
  | e@(vector items _) | e@(array items _) => p e && allEverywhere p items
  | e@(comprehension body _ source _) => p e && everywhere p body && everywhere p source
  | e@(filtered body _ source condition _) =>
    p e && everywhere p body && everywhere p source && everywhere p condition
  | e@(call _ args _) => p e && allEverywhere p args
  | e@(unary _ operand _) => p e && everywhere p operand
  | e@(binary _ left right _) => p e && everywhere p left && everywhere p right
  | e@(range lower upper _) => p e && everywhere p lower && everywhere p upper
  | e@(index target position _) => p e && everywhere p target && everywhere p position
  | e@(swizzle target _ _) => p e && everywhere p target
  | e@(conditional consequent condition alternative _) =>
    p e && everywhere p consequent && everywhere p condition && everywhere p alternative

/-- A property holds of every node of some expressions. -/
def allEverywhere (p : Expr → Bool) : List Expr → Bool
  | [] => true
  | e :: rest => everywhere p e && allEverywhere p rest

end

variable {p q : Expr → Bool} {e : Expr}

theorem allEverywhere_iff {es : List Expr} : allEverywhere p es ↔ ∀ e ∈ es, e.everywhere p := by
  induction es with
  | nil => exact iff_of_true rfl (List.forall_mem_nil _)
  | cons e rest ih =>
    rw [List.forall_mem_cons, ← ih]
    exact Bool.and_eq_true_iff

/-- A property holds everywhere if it holds of the node and everywhere in its parts. -/
theorem everywhere_iff : e.everywhere p ↔ p e ∧ ∀ c ∈ e.children, c.everywhere p := by
  cases e <;> simp [everywhere, children, allEverywhere_iff, and_assoc]

theorem everywhere_node (h : e.everywhere p) : p e := (everywhere_iff.mp h).1

theorem everywhere_child (h : e.everywhere p) {c : Expr} (hc : c ∈ e.children) : c.everywhere p :=
  (everywhere_iff.mp h).2 c hc

/-! ### Nodes -/

mutual

/-- All nodes of an expression, each before its parts. -/
def nodes : Expr → List Expr
  | e@(constant ..) | e@(identifier ..) => [e]
  | e@(vector items _) | e@(array items _) | e@(call _ items _) => e :: allNodes items
  | e@(comprehension body _ source _) => e :: (nodes body ++ nodes source)
  | e@(filtered body _ source condition _) =>
    e :: (nodes body ++ nodes source ++ nodes condition)
  | e@(unary _ operand _) => e :: nodes operand
  | e@(swizzle target _ _) => e :: nodes target
  | e@(binary _ left right _) | e@(range left right _) | e@(index left right _) =>
    e :: (nodes left ++ nodes right)
  | e@(conditional consequent condition alternative _) =>
    e :: (nodes consequent ++ nodes condition ++ nodes alternative)

/-- All nodes of some expressions. -/
def allNodes : List Expr → List Expr
  | [] => []
  | e :: rest => nodes e ++ allNodes rest

end

theorem mem_allNodes_iff {es : List Expr} {n : Expr} :
    n ∈ allNodes es ↔ ∃ e ∈ es, n ∈ e.nodes := by
  induction es with
  | nil => simp [show allNodes [] = [] from rfl]
  | cons e rest ih =>
    have hcons : allNodes (e :: rest) = e.nodes ++ allNodes rest := rfl
    rw [hcons, List.mem_append, ih]
    simp

/-- The nodes of an expression are the expression and the nodes of its parts. -/
theorem mem_nodes_iff {n : Expr} : n ∈ e.nodes ↔ n = e ∨ ∃ c ∈ e.children, n ∈ c.nodes := by
  cases e <;> simp [nodes, children, mem_allNodes_iff]

theorem self_mem_nodes (e : Expr) : e ∈ e.nodes := mem_nodes_iff.mpr (.inl rfl)

/-- The parts of a node are nodes. -/
theorem mem_nodes_of_mem_children {n c : Expr} (hn : n ∈ e.nodes) (hc : c ∈ n.children) :
    c ∈ e.nodes := by
  induction e using induction_on_children with
  | h e ih =>
    rcases mem_nodes_iff.mp hn with rfl | ⟨d, hd, hn⟩
    · exact mem_nodes_iff.mpr (.inr ⟨c, hc, self_mem_nodes c⟩)
    · exact mem_nodes_iff.mpr (.inr ⟨d, hd, ih d hd hn⟩)

/-- A property that holds everywhere holds of every node. -/
theorem everywhere_iff_nodes : e.everywhere p ↔ ∀ n ∈ e.nodes, p n := by
  induction e using induction_on_children with
  | h e ih =>
    rw [everywhere_iff]
    constructor
    · rintro ⟨hnode, hparts⟩ n hn
      rcases mem_nodes_iff.mp hn with rfl | ⟨c, hc, hn⟩
      · exact hnode
      · exact (ih c hc).mp (hparts c hc) n hn
    · intro h
      refine ⟨h e (self_mem_nodes e), fun c hc => (ih c hc).mpr fun n hn => ?_⟩
      exact h n (mem_nodes_iff.mpr (.inr ⟨c, hc, hn⟩))

/-! ### Written expressions -/

/-- Whether an expression is a comprehension, with a condition or without. -/
def isComprehension : Expr → Bool
  | comprehension .. | filtered .. => true
  | _ => false

/-- Elements and components are not selected from numbers, comprehensions and ranges. -/
def isTarget : Expr → Bool
  | constant .. => false
  | e => !e.makesRun

/-- A vector selects nothing, and names of components select no elements. -/
def isPosition : Expr → Bool
  | vector .. => false
  | identifier name _ => !isSwizzle name
  | _ => true

/-- What a written node and its parts look like.  Comprehensions and ranges stand only where an
array may take up their elements. -/
def isFormed : Expr → Bool
  | constant .. | identifier .. => true
  | vector items _ => 2 ≤ items.length && items.length ≤ 4 && items.all (!·.makesRun)
  | array items _ => !items.isEmpty
  | comprehension _ _ source _ => !source.isComprehension
  | filtered _ _ source condition _ => !source.isComprehension && !condition.makesRun
  | call _ args _ => args.all (!·.makesRun)
  | unary _ operand _ => !operand.makesRun
  | binary _ left right _ => !left.makesRun && !right.makesRun
  | range lower upper _ => !lower.makesRun && !upper.makesRun
  | index target position _ => target.isTarget && position.isPosition
  | swizzle target components _ => target.isTarget && isSwizzle components
  | conditional consequent condition alternative _ =>
    !consequent.makesRun && !condition.makesRun && !alternative.makesRun

/-- A tree that may have been read from a text. -/
def wellFormed (e : Expr) : Bool := e.everywhere isFormed

theorem vector_ne_nil {items : List Expr} {span : Span} (h : (vector items span).wellFormed) :
    items ≠ [] := by
  have hformed := everywhere_node h
  rintro rfl
  exact Bool.false_ne_true hformed

theorem array_ne_nil {items : List Expr} {span : Span} (h : (array items span).wellFormed) :
    items ≠ [] := by
  have hformed := everywhere_node h
  rintro rfl
  exact Bool.false_ne_true hformed

theorem components_ne_nil {target : Expr} {components : String} {span : Span}
    (h : (swizzle target components span).wellFormed) : components.toList ≠ [] := by
  have hswizzle : isSwizzle components := (Bool.and_eq_true_iff.mp (everywhere_node h)).2
  intro hnil
  simp [isSwizzle, hnil] at hswizzle

/-- Whether an expression is not a comprehension with a condition. -/
def isUnfiltered : Expr → Bool
  | filtered .. => false
  | _ => true

/-- No comprehension in an expression has a condition. -/
def whenFree (e : Expr) : Bool := e.everywhere isUnfiltered

/-- A written expression without conditions in comprehensions. -/
structure Simple (e : Expr) : Prop where
  wellFormed : e.wellFormed
  whenFree : e.whenFree

/-- A written expression; comprehensions in it may have conditions if `filters` is set. -/
structure Written (filters : Bool) (e : Expr) : Prop where
  wellFormed : e.wellFormed
  whenFree : filters = false → e.whenFree

theorem Simple.written (h : e.Simple) : e.Written false := ⟨h.wellFormed, fun _ => h.whenFree⟩

theorem Written.child {filters : Bool} (h : e.Written filters) {c : Expr} (hc : c ∈ e.children) :
    c.Written filters :=
  ⟨everywhere_child h.wellFormed hc, fun hfilters => everywhere_child (h.whenFree hfilters) hc⟩

end Expr

/-! ### Statements -/

namespace Statement

/-- The body of a statement may have been read from a text. -/
def wellFormed (st : Statement) : Bool := st.body?.all Expr.wellFormed

/-- No comprehension in a statement has a condition. -/
def whenFree (st : Statement) : Bool := st.body?.all Expr.whenFree

/-- A written statement; comprehensions in it may have conditions if `filters` is set. -/
structure Written (filters : Bool) (st : Statement) : Prop where
  wellFormed : st.wellFormed
  whenFree : filters = false → st.whenFree

theorem Written.body {filters : Bool} {st : Statement} (h : st.Written filters) {body : Expr}
    (hbody : st.body? = some body) : body.Written filters := by
  have hformed := h.wellFormed
  rw [Statement.wellFormed, hbody] at hformed
  refine ⟨hformed, fun hfilters => ?_⟩
  have hfree := h.whenFree hfilters
  rwa [Statement.whenFree, hbody] at hfree

end Statement

end VectorScript
