import Mathlib
import VectorScript.Proofs.DependencySearch
import VectorScript.Proofs.EvaluationSteps
import VectorScript.Session

/-!
# Free occurrences

Where names occur in an expression, and which names are bound there.  A declaration refers to the
names that occur free in its body; a name that is called counts if it is declared.  The search for
dependencies finds exactly what a declaration leads to by references.

* `Expr.Encloses`: a node of an expression, below the comprehensions that bind some names.
* `Expr.mem_reads_iff`: the free names of an expression by their occurrences.
* `Declarations.Refers`: one reference from a declaration to a name.
* `Dependency.found_iff_reached`: what the search finds, each name once and in order.
-/

namespace VectorScript

namespace Expr

/-- A node stands in an expression, and the comprehensions around it bind some names there,
outermost first.  A comprehension binds its name in its body and its condition, but not in its
source. -/
inductive Encloses : Expr → List String → Expr → Prop
  | self (e : Expr) : Encloses e [] e
  | part {e c node : Expr} {bound : List String} (hc : c ∈ e.openParts)
    (h : Encloses c bound node) : Encloses e bound node
  | element {e c node : Expr} {binder : String} {bound : List String}
    (hc : (binder, c) ∈ e.boundParts) (h : Encloses c bound node) :
    Encloses e (binder :: bound) node

/-- A node names `x`, or calls it and it is declared. -/
def RefersTo (ds : Declarations) (x : String) : Expr → Prop
  | identifier name _ => name = x
  | call name _ _ => name = x ∧ ds.contains name
  | _ => False

/-- A node refers to `x` where no comprehension binds it. -/
def OccursFree (ds : Declarations) (x : String) (e : Expr) : Prop :=
  ∃ bound node, e.Encloses bound node ∧ node.RefersTo ds x ∧ x ∉ bound

variable {ds : Declarations} {x : String} {e : Expr} {bound : List String}

/-- An expression reads what it refers to itself, and what its parts read where they stand. -/
theorem mem_reads_iff_parts : x ∈ e.reads ds bound ↔ (x ∉ bound ∧ e.RefersTo ds x) ∨
    (∃ c ∈ e.openParts, x ∈ c.reads ds bound) ∨
      ∃ p ∈ e.boundParts, x ∈ p.2.reads ds (p.1 :: bound) := by
  cases e with
  | identifier name span =>
    simp only [reads, RefersTo, openParts, children, boundParts]
    split_ifs with hname
    · simp only [List.not_mem_nil, false_and, exists_false, or_false, false_iff]
      rintro ⟨hx, rfl⟩
      exact hx hname
    · simp only [List.mem_singleton, List.not_mem_nil, false_and, exists_false, or_false]
      constructor
      · rintro rfl
        exact ⟨hname, rfl⟩
      · rintro ⟨-, rfl⟩
        rfl
  | call name args span =>
    simp only [reads, RefersTo, openParts, children, boundParts, List.mem_append, mem_readsAll,
      List.not_mem_nil, false_and, exists_false, or_false]
    rw [or_comm]
    refine or_congr ?_ .rfl
    split_ifs with hcalled
    · rw [List.mem_singleton]
      constructor
      · rintro rfl
        exact ⟨hcalled.1, rfl, hcalled.2⟩
      · rintro ⟨-, rfl, -⟩
        rfl
    · simp only [List.not_mem_nil, false_iff]
      rintro ⟨hx, rfl, hdeclared⟩
      exact hcalled ⟨hx, hdeclared⟩
  | constant | vector | array | comprehension | filtered | unary | binary | range | index | swizzle
    | conditional =>
    simp [reads, RefersTo, openParts, children, boundParts, mem_readsAll]

theorem occursFree_of_mem_reads (hx : x ∈ e.reads ds bound) : x ∉ bound ∧ e.OccursFree ds x := by
  induction e using induction_on_children generalizing bound with
  | h e ih =>
    rcases mem_reads_iff_parts.mp hx with ⟨hfree, hself⟩ | ⟨c, hc, hx⟩ | ⟨⟨binder, c⟩, hc, hx⟩
    · exact ⟨hfree, [], e, .self e, hself, List.not_mem_nil⟩
    · obtain ⟨hfree, inner, node, hnode, hrefers, hinner⟩ :=
        ih c (mem_children_of_mem_openParts hc) hx
      exact ⟨hfree, inner, node, .part hc hnode, hrefers, hinner⟩
    · obtain ⟨hfree, inner, node, hnode, hrefers, hinner⟩ :=
        ih c (mem_children_of_mem_boundParts hc) hx
      obtain ⟨hne, hfree⟩ := not_or.mp (fun h => hfree (List.mem_cons.mpr h))
      refine ⟨hfree, binder :: inner, node, .element hc hnode, hrefers, fun h => ?_⟩
      exact (List.mem_cons.mp h).elim hne hinner

theorem Encloses.mem_reads {inner : List String} {node : Expr} (h : e.Encloses inner node)
    (hrefers : node.RefersTo ds x) (hinner : x ∉ inner) (hfree : x ∉ bound) :
    x ∈ e.reads ds bound := by
  induction h generalizing bound with
  | self e => exact mem_reads_iff_parts.mpr (.inl ⟨hfree, hrefers⟩)
  | part hc _ ih =>
    exact mem_reads_iff_parts.mpr (.inr (.inl ⟨_, hc, ih hrefers hinner hfree⟩))
  | element hc _ ih =>
    obtain ⟨hne, hinner⟩ := not_or.mp (fun h => hinner (List.mem_cons.mpr h))
    refine mem_reads_iff_parts.mpr (.inr (.inr ⟨_, hc, ih hrefers hinner fun h => ?_⟩))
    exact (List.mem_cons.mp h).elim hne hfree

/-- The free names of an expression are those that occur free in it and are not bound around it. -/
theorem mem_reads_iff : x ∈ e.reads ds bound ↔ x ∉ bound ∧ e.OccursFree ds x := by
  refine ⟨occursFree_of_mem_reads, ?_⟩
  rintro ⟨hfree, inner, node, hnode, hrefers, hinner⟩
  exact hnode.mem_reads hrefers hinner hfree

end Expr

/-! ### References of declarations -/

/-- The parameters and the body of a declaration. -/
def Statement.declared? (st : Statement) : Option (List String × Expr) :=
  match st.kind with
  | .variable _ body => some ([], body)
  | .function _ params body => some (params, body)
  | _ => none

/-- A name occurs free in the body of the declaration of `x`, and is not a parameter. -/
def Declarations.Refers (ds : Declarations) (x y : String) : Prop :=
  ∃ st params body, ds.find? x = some st ∧ st.declared? = some (params, body) ∧ y ∉ params ∧
    body.OccursFree ds y

theorem Statement.mem_reads_iff {ds : Declarations} {st : Statement} {y : String} :
    y ∈ st.reads ds ↔
      ∃ params body, st.declared? = some (params, body) ∧ y ∉ params ∧ body.OccursFree ds y := by
  unfold reads declared?
  cases st.kind <;> simp [Expr.mem_reads_iff]

theorem Declarations.reads_eq_refers (ds : Declarations) : ds.Reads = ds.Refers := by
  funext x y
  simp only [Reads, Refers, Statement.mem_reads_iff, exists_and_left]

namespace Dependency

/-! ### Names in order -/

/-- A name comes into its place. -/
theorem pairwise_insertName {names : List String} (h : names.Pairwise (· < ·)) (name : String) :
    (insertName name names).Pairwise (· < ·) := by
  induction names with
  | nil => exact List.pairwise_singleton _ _
  | cons other rest ih =>
    obtain ⟨hother, hrest⟩ := List.pairwise_cons.mp h
    unfold insertName
    split_ifs with heq hlt
    · exact h
    · refine List.pairwise_cons.mpr ⟨fun y hy => ?_, h⟩
      rcases List.mem_cons.mp hy with rfl | hy
      · exact hlt
      · exact lt_trans hlt (hother y hy)
    · refine List.pairwise_cons.mpr ⟨fun y hy => ?_, ih hrest⟩
      rcases mem_insertName.mp hy with rfl | hy
      · exact lt_of_le_of_ne (not_lt.mp hlt) (Ne.symm heq)
      · exact hother y hy

variable {ds : Declarations} {opened : List String} {r : String} {found : List String}

/-- What noting a name and finishing a declaration keep, some visits keep if each of them does. -/
theorem foldlM_visit_keeps {P : Search → Prop}
    (hvisit : ∀ {s t : Search} {x : String}, visit ds opened s x = .ok t → P s → P t) :
    ∀ {names : List String} {s t : Search}, names.foldlM (visit ds opened) s = .ok t → P s → P t
  | [], s, t, h, hs => by
    obtain rfl : s = t := pure_eq_ok.mp h
    exact hs
  | x :: names, s, t, h, hs => by
    rw [List.foldlM_cons] at h
    obtain ⟨u, hu, h⟩ := bind_eq_ok.mp h
    exact foldlM_visit_keeps hvisit h (hvisit hu hs)

/-- What noting a name and finishing a declaration keep, a visit keeps. -/
theorem visit_keeps {P : Search → Prop} (hadd : ∀ s x, P s → P (s.add x))
    (hfinish : ∀ s x, P s → P (s.finish x)) {s t : Search} {x : String}
    (h : visit ds opened s x = .ok t) (hs : P s) : P t := by
  induction hn : ds.unused opened using Nat.strongRecOn generalizing opened s t x with
  | _ n ih =>
    obtain ⟨-, ⟨rfl, -⟩ | ⟨st, u, hfind, hopen, hu, rfl⟩⟩ := visit_eq_ok h
    · exact hadd s x hs
    · have hless := NameTable.unused_cons_lt hfind hopen
      refine hfinish u x (foldlM_visit_keeps (fun h hs => ?_) hu (hadd s x hs))
      exact ih _ (hn ▸ hless) h hs rfl

theorem pairwise_ofDeclaration (h : ofDeclaration ds r = .ok found) :
    found.Pairwise (· < ·) := by
  cases hfind : ds.find? r with
  | none =>
    have hempty : Search.empty.found = found := by
      simpa [ofDeclaration, follow_undeclared hfind, Except.map] using h
    rw [← hempty]
    exact .nil
  | some st =>
    rw [ofDeclaration_eq hfind] at h
    obtain ⟨u, hu, rfl⟩ := map_eq_ok.mp h
    refine foldlM_visit_keeps (P := fun s => s.found.Pairwise (· < ·)) (fun h hs => ?_) hu .nil
    exact visit_keeps (P := fun s => s.found.Pairwise (· < ·))
      (fun s x hs => pairwise_insertName hs x) (fun s x hs => hs) h hs

/-- Whenever the search from a declaration succeeds, it finds exactly the names that the declaration
leads to by one reference or more, whatever functions call themselves or each other on the way.  It
lists each of them once, in ascending order. -/
theorem found_iff_reached (h : ofDeclaration ds r = .ok found) :
    found.Pairwise (· < ·) ∧ ∀ y, y ∈ found ↔ Relation.TransGen ds.Refers r y := by
  refine ⟨pairwise_ofDeclaration h, fun y => ?_⟩
  rw [mem_ofDeclaration_iff h, Declarations.Reaches, Declarations.reads_eq_refers]

/-- Two functions that call each other.  Only the inner one, which is entered while the outer one is
open, reads the tilt, and the tilt binds the scale in a body but reads it in a source. -/
def orbit : Declarations :=
  (Session.load "orbit = turn(radius); turn(p) = swing(p); swing(p) = turn(p) + tilt;
    tilt = [scale for scale = [scale]]").1.declarations

set_option maxRecDepth 4000 in
theorem found_of_orbit : ofDeclaration orbit "orbit" =
    .ok ["radius", "scale", "swing", "tilt", "turn"] := by
  cbv

theorem found_of_orbit_iff_reached :
    ofDeclaration orbit "orbit" = .ok ["radius", "scale", "swing", "tilt", "turn"] ∧
    ["radius", "scale", "swing", "tilt", "turn"].Pairwise (· < ·) ∧
    ∀ y, y ∈ ["radius", "scale", "swing", "tilt", "turn"] ↔
      Relation.TransGen orbit.Refers "orbit" y :=
  ⟨found_of_orbit, found_iff_reached found_of_orbit⟩

end Dependency

end VectorScript
