import VectorScript.Proofs.Invalidation

/-!
# The tables of a session

A session keeps the declarations, the order of their names, the graph of their dependencies both
ways, and the values of variables, each in a table of its own.  Every operation changes several of
them, and a refused one changes some and puts them back; whatever is done, they fit together.

* `Session.refused_leaves_session`: a refused statement leaves the session as it was.
* `Session.Consistent`: the tables of a session fit together.
* `Session.consistent_afterRun`: they do so after every run.
-/

namespace VectorScript

/-! ### Refused statements -/

namespace Session

open DependencyGraph

variable {s s' : Session} {st : Statement} {name : String}

/-- Whatever was loaded and whatever was done since, a statement that is refused leaves the whole
session as it was: its declarations, their order and graph, and all else.  It is refused because it
could not be read, or because what it declares would depend on itself. -/
theorem refused_leaves_session (source : String) (ops : List Operation) {st : Statement}
    {e : Failure} {s' : Session} (hrefused : (afterRun source ops).update st = (.error e, s')) :
    s' = afterRun source ops ∧ (afterRun source ops).Refuses st e := by
  have hindexed := (orderly_afterRun source ops).indexed
  rcases hindexed.update_cases st with ⟨e', hupdate, hrefuses⟩ | ⟨-, hupdate⟩ | ⟨name, -, hupdate⟩
  · cases hrefused.symm.trans hupdate
    exact ⟨rfl, hrefuses⟩
  · cases hrefused.symm.trans hupdate
  · cases hrefused.symm.trans hupdate

/-- An outer ring around an inner one, which is drawn. -/
def rings : Session := afterRun "outer = inner; inner = time" [.values (reference "outer") .all]

/-- The inner ring is not declared yet. -/
def outerRing : Session := afterRun "outer = inner" []

/-- An inner ring that reaches back to the outer one. -/
def innerOfOuter : Statement := (parseScript "inner = outer").headD default

def cyclicInner : Failure := .evaluation ⟨.cyclicDefinition "inner", ⟨some "inner", .none⟩⟩

set_option maxRecDepth 4000 in
/-- The statement is taken back, where an inner ring had been declared before and where none had. -/
theorem update_rings : rings.update innerOfOuter = (.error cyclicInner, rings) ∧
    outerRing.update innerOfOuter = (.error cyclicInner, outerRing) := by
  have hrings : rings.update innerOfOuter = (.error cyclicInner, (rings.update innerOfOuter).2) :=
    Prod.ext (by cbv) rfl
  have houter : outerRing.update innerOfOuter =
      (.error cyclicInner, (outerRing.update innerOfOuter).2) := Prod.ext (by cbv) rfl
  rw [hrings, houter, (refused_leaves_session _ _ hrings).1, (refused_leaves_session _ _ houter).1]
  exact ⟨rfl, rfl⟩

end Session

/-! ### Graphs -/

namespace DependencyGraph

variable {ds : Declarations} {g : DependencyGraph}

/-- No name stands twice, and no declaration is noted where none reads. -/
structure Tidy (g : DependencyGraph) : Prop where
  dependencies : g.dependencies.Distinct
  dependents : g.dependents.Distinct
  noted : ∀ name readers, g.dependents.find? name = some readers → readers ≠ []

theorem tidy_empty : empty.Tidy :=
  ⟨NameTable.distinct_empty, NameTable.distinct_empty, fun _ _ h => by cases h⟩

theorem Tidy.addDependent (h : g.Tidy) (reader name : String) :
    Tidy ⟨g.dependencies, DependencyGraph.addDependent reader g.dependents name⟩ where
  dependencies := h.dependencies
  dependents := h.dependents.insert _ _
  noted x readers hx := by
    simp only [DependencyGraph.addDependent, NameTable.find?_insert] at hx
    split_ifs at hx with heq
    · cases hx
      exact List.ne_nil_of_mem (Dependency.mem_insertName.mpr (.inl rfl))
    · exact h.noted x readers hx

theorem Tidy.foldl_addDependent (reader : String) :
    ∀ (found : List String) {g : DependencyGraph}, g.Tidy →
      Tidy ⟨g.dependencies, found.foldl (DependencyGraph.addDependent reader) g.dependents⟩
  | [], _, h => h
  | name :: found, _, h => foldl_addDependent reader found (h.addDependent reader name)

theorem Tidy.add (h : g.Tidy) (name : String) : (add ds g name).Tidy := by
  unfold DependencyGraph.add
  cases Dependency.ofDeclaration ds name with
  | error cycle => exact h
  | ok found =>
    have hfold := Tidy.foldl_addDependent name found h
    exact ⟨h.dependencies.insert _ _, hfold.dependents, hfold.noted⟩

theorem Tidy.foldl_add (h : g.Tidy) (names : List String) :
    (names.foldl (DependencyGraph.add ds) g).Tidy := by
  induction names generalizing g with
  | nil => exact h
  | cons name names ih => exact ih (h.add name)

end DependencyGraph

/-! ### Consistent sessions -/

/-- The declarations stand under their own names, each name once. -/
structure Declarations.Keyed (ds : Declarations) : Prop where
  distinct : ds.Distinct
  named : ∀ name st, ds.find? name = some st → st.name? = some name

namespace Declarations.Keyed

variable {ds : Declarations} {st : Statement} {name : String}

theorem insert (h : ds.Keyed) (hname : st.name? = some name) : Keyed (ds.insert name st) where
  distinct := h.distinct.insert name st
  named x st' hx := by
    rw [NameTable.find?_insert] at hx
    split_ifs at hx with heq
    · cases hx
      exact heq ▸ hname
    · exact h.named x st' hx

end Declarations.Keyed

/-- Whatever is evaluated, no variable is remembered twice. -/
theorem Expr.carries_distinct (w : Setting) :
    (Simulation.withMemory NameTable.Distinct .any).Carries w fun _ _ => True where
  step _ _ := trivial
  site _ _ _ := trivial
  reopen _ _ _ _ := trivial
  recalled _ _ hdeclared := hdeclared.recalledOr fun _ _ _ _ => ⟨trivial, fun _ => trivial⟩
  remember _ _ _ _ _ hbody := hbody.ofVariable_of_insert fun _ v hcache _ => hcache.insert _ v

namespace Session

variable {s : Session}

/-- Declarations stand under their own names, and no table has two entries under one name. -/
structure Listed (s : Session) : Prop where
  keyed : s.declarations.Keyed
  cache : s.memory.cache.Distinct

theorem Listed.update (h : s.Listed) (hindexed : s.Indexed) (st : Statement) :
    (s.update st).2.Listed := by
  rcases hindexed.update_cases st with ⟨e, hupdate, -⟩ | ⟨-, hupdate⟩ | ⟨name, hname, hupdate⟩ <;>
    rw [hupdate]
  · exact h
  · exact ⟨h.keyed, h.cache⟩
  · exact ⟨h.keyed.insert hname, h.cache.foldl_erase _⟩

/-- One step of a run. -/
theorem Listed.perform (h : s.Listed) (hindexed : s.Indexed) (op : Operation) :
    (s.perform op).Listed := by
  cases op with
  | define st => exact h.update hindexed st
  | setLimits | setAnimation => exact ⟨h.keyed, NameTable.distinct_empty⟩
  | setTime | advanceTime | setPosition | setScale | setRotation | invalidate =>
    exact ⟨h.keyed, h.cache.foldl_erase _⟩
  | values e selection =>
    exact ⟨h.keyed, (((Expr.carries_distinct s.setting).matches .root e trivial).values selection
      s.memory h.cache).1⟩
  | shape e =>
    exact ⟨h.keyed, (((Expr.carries_distinct s.setting).matches .root e trivial).shape s.memory
      h.cache).1⟩

theorem listed_load (source : String) : (load source).1.Listed := by
  refine load_induction ⟨⟨NameTable.distinct_empty, nofun⟩, NameTable.distinct_empty⟩
    (fun _ _ h => ⟨h.keyed, h.cache⟩) (fun s st _ name hname h => ?_) fun _ h => ⟨h.keyed, h.cache⟩
  exact ⟨h.keyed.insert hname, h.cache⟩

theorem listed_afterRun (source : String) (ops : List Operation) :
    (afterRun source ops).Listed := by
  refine (afterRun_induction (P := fun s => s.Orderly ∧ s.Listed) ?_ (fun h op => ?_) ops).2
  · exact ⟨orderly_afterRun source [], listed_load source⟩
  · exact ⟨h.1.perform op, h.2.perform h.1.indexed op⟩

/-- The tables of a session fit together. -/
structure Consistent (s : Session) : Prop where
  /-- The order lists exactly the declared names, and each once. -/
  order_nodup : s.order.Nodup
  mem_order : ∀ name, name ∈ s.order ↔ s.declarations.contains name
  /-- A declaration stands under its own name. -/
  named : ∀ name st, s.declarations.find? name = some st → st.name? = some name
  /-- The dependencies of a name are those that the search finds now. -/
  dependencies : ∀ name found, s.graph.dependencies.find? name = some found ↔
    s.declarations.contains name ∧ Dependency.ofDeclaration s.declarations name = .ok found
  /-- Dependents are dependencies the other way round. -/
  dependents : ∀ name reader, reader ∈ (s.graph.dependents.find? name).getD [] ↔
    ∃ found, s.graph.dependencies.find? reader = some found ∧ name ∈ found
  noted : ∀ name readers, s.graph.dependents.find? name = some readers → readers ≠ []
  /-- No table has two entries under one name. -/
  distinct : s.declarations.Distinct ∧ s.graph.dependencies.Distinct ∧
    s.graph.dependents.Distinct ∧ s.memory.cache.Distinct
  /-- Only variables are remembered. -/
  remembered : ∀ name v, s.memory.cache.find? name = some v → s.declarations.IsVariable name

/-- Whatever was loaded and whatever was done since, whether it was taken up or refused, succeeded
or failed, the tables fit together. -/
theorem consistent_afterRun (source : String) (ops : List Operation) :
    (afterRun source ops).Consistent := by
  have hlisted := listed_afterRun source ops
  have horderly := orderly_afterRun source ops
  have htidy : (afterRun source ops).graph.Tidy := by
    rw [horderly.indexed.graph]
    exact DependencyGraph.tidy_empty.foldl_add _
  refine ⟨horderly.indexed.nodup, horderly.indexed.mem_order, hlisted.keyed.named, ?_, ?_,
    htidy.noted, ⟨hlisted.keyed.distinct, htidy.dependencies, htidy.dependents, hlisted.cache⟩,
    horderly.keeps⟩
  · intro name found
    rw [horderly.indexed.graph, DependencyGraph.find?_dependencies_ofNames,
      horderly.indexed.mem_order]
  · intro name reader
    show DependencyGraph.Notes _ reader name ↔ _
    rw [horderly.indexed.graph, DependencyGraph.notes_ofNames]
    simp only [DependencyGraph.find?_dependencies_ofNames, and_assoc, exists_and_left]

end Session

end VectorScript
