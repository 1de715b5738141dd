import VectorScript.Proofs.DependencySearch
import VectorScript.Session

/-!
# Laws of the dependency graph

The graph of some names holds, for every one of them from which the search succeeds, what the search
finds, and the same the other way round.  In a session these are all declared names.  So forgetting
a name and its dependents forgets every variable that reaches the name, unless the variable depends
on one that depends on itself.

* `DependencyGraph.notes_ofNames`: which declarations are noted under a name.
* `DependencyGraph.Indexes`: the order lists the declared names, and the graph is that of the order.
* `Session.Indexed.of_find?_invalidate`: what is still remembered when a name was forgotten.
-/

namespace VectorScript

namespace DependencyGraph

variable {ds : Declarations} {names : List String} {reader name x : String}

/-- `reader` is noted as one that reads `name`. -/
def Notes (t : NameTable (List String)) (reader name : String) : Prop :=
  reader ∈ (t.find? name).getD []

theorem notes_addDependent {t : NameTable (List String)} {r : String} :
    Notes (addDependent reader t name) r x ↔ (r = reader ∧ x = name) ∨ Notes t r x := by
  unfold Notes addDependent
  rw [NameTable.find?_insert]
  by_cases hx : x = name
  · subst hx
    simp [Dependency.mem_insertName]
  · simp [hx]

theorem notes_foldl_addDependent {r : String} :
    ∀ {found : List String} {t : NameTable (List String)},
      Notes (found.foldl (addDependent reader) t) r x ↔ (r = reader ∧ x ∈ found) ∨ Notes t r x
  | [], t => by simp
  | name :: found, t => by
    rw [List.foldl_cons, notes_foldl_addDependent, notes_addDependent, List.mem_cons]
    tauto

theorem notes_add {g : DependencyGraph} {r : String} :
    Notes (add ds g name).dependents r x ↔
      (r = name ∧ ∃ found, Dependency.ofDeclaration ds name = .ok found ∧ x ∈ found) ∨
        Notes g.dependents r x := by
  unfold add
  cases hsearch : Dependency.ofDeclaration ds name with
  | error c => simp
  | ok found => simp [notes_foldl_addDependent]

theorem find?_dependencies_add {g : DependencyGraph} {found : List String} :
    (add ds g name).dependencies.find? x = some found ↔
      (x = name ∧ Dependency.ofDeclaration ds name = .ok found) ∨
        ((x = name → ∃ c, Dependency.ofDeclaration ds name = .error c) ∧
          g.dependencies.find? x = some found) := by
  unfold add
  cases hsearch : Dependency.ofDeclaration ds name with
  | error c => simp
  | ok found' =>
    by_cases hx : x = name
    · subst hx
      simp
    · simp [NameTable.find?_insert, hx]

/-- A declaration is noted under exactly the names that the search finds from it. -/
theorem notes_ofNames : Notes (ofNames ds names).dependents reader x ↔
    reader ∈ names ∧ ∃ found, Dependency.ofDeclaration ds reader = .ok found ∧ x ∈ found := by
  have hfold : ∀ (names : List String) (g : DependencyGraph),
      Notes (names.foldl (add ds) g).dependents reader x ↔
        (reader ∈ names ∧
          ∃ found, Dependency.ofDeclaration ds reader = .ok found ∧ x ∈ found) ∨
          Notes g.dependents reader x := by
    intro names
    induction names with
    | nil => simp
    | cons name names ih =>
      intro g
      rw [List.foldl_cons, ih, notes_add, List.mem_cons]
      constructor
      · rintro (⟨hmem, hfound⟩ | ⟨rfl, hfound⟩ | h)
        · exact .inl ⟨.inr hmem, hfound⟩
        · exact .inl ⟨.inl rfl, hfound⟩
        · exact .inr h
      · rintro (⟨rfl | hmem, hfound⟩ | h)
        · exact .inr (.inl ⟨rfl, hfound⟩)
        · exact .inl ⟨hmem, hfound⟩
        · exact .inr (.inr h)
  rw [ofNames, hfold]
  simp [Notes, empty]

/-- A declaration has dependencies if the search from it succeeds, and these are what it finds. -/
theorem find?_dependencies_ofNames {found : List String} :
    (ofNames ds names).dependencies.find? x = some found ↔
      x ∈ names ∧ Dependency.ofDeclaration ds x = .ok found := by
  have hfold : ∀ (names : List String) (g : DependencyGraph),
      (g.dependencies.find? x = some found → Dependency.ofDeclaration ds x = .ok found) →
      ((names.foldl (add ds) g).dependencies.find? x = some found ↔
        (x ∈ names ∧ Dependency.ofDeclaration ds x = .ok found) ∨
          g.dependencies.find? x = some found) := by
    intro names
    induction names with
    | nil => simp
    | cons name names ih =>
      intro g hg
      rw [List.foldl_cons, ih, find?_dependencies_add, List.mem_cons]
      · constructor
        · rintro (⟨hmem, hsearch⟩ | ⟨rfl, hsearch⟩ | ⟨-, hfound⟩)
          · exact .inl ⟨.inr hmem, hsearch⟩
          · exact .inl ⟨.inl rfl, hsearch⟩
          · exact .inr hfound
        · rintro (⟨rfl | hmem, hsearch⟩ | hfound)
          · exact .inr (.inl ⟨rfl, hsearch⟩)
          · exact .inl ⟨hmem, hsearch⟩
          · by_cases hx : x = name
            · subst hx
              exact .inr (.inl ⟨rfl, hg hfound⟩)
            · exact .inr (.inr ⟨fun h => absurd h hx, hfound⟩)
      · intro hfound
        rcases find?_dependencies_add.mp hfound with ⟨rfl, hsearch⟩ | ⟨-, hfound⟩
        · exact hsearch
        · exact hg hfound
  rw [ofNames, hfold names empty (by simp [empty])]
  simp [empty]

/-- A declaration has dependencies if the search from it succeeds. -/
theorem contains_dependencies_iff : (ofNames ds names).dependencies.contains x ↔
    x ∈ names ∧ ∃ found, Dependency.ofDeclaration ds x = .ok found := by
  simp only [NameTable.contains, Option.isSome_iff_exists, find?_dependencies_ofNames,
    exists_and_left]

/-- If every declaration has its dependencies, no variable depends on itself. -/
theorem acyclic_of_dependencies
    (h : ∀ y, ds.contains y → (ofNames ds names).dependencies.contains y) (x : String) :
    ds.Acyclic x := by
  intro y _ hvar
  refine Dependency.not_reaches_self_of_searched (fun z hz => ?_) hvar
  exact (contains_dependencies_iff.mp (h z hz)).2

/-- The order lists the declared names, each once, and the graph is that of the names in order. -/
structure Indexes (g : DependencyGraph) (ds : Declarations) (order : List String) : Prop where
  nodup : order.Nodup
  mem_order : ∀ name, name ∈ order ↔ ds.contains name
  graph : g = ofNames ds order

end DependencyGraph

/-! ### Forgetting -/

namespace Session

variable {s : Session} {u x : String}

/-- Order and graph are those of the declarations. -/
abbrev Indexed (s : Session) : Prop :=
  s.graph.Indexes s.declarations s.order

theorem find?_invalidate_of_mem (h : x = u ∨ DependencyGraph.Notes s.graph.dependents x u) :
    (s.invalidate u).memory.cache.find? x = none := by
  show (List.foldl NameTable.erase s.memory.cache _).find? x = none
  rw [NameTable.find?_foldl_erase, if_pos (List.mem_cons.mpr h)]

theorem find?_invalidate_of_not_mem (h : x ≠ u)
    (hnotes : ¬ DependencyGraph.Notes s.graph.dependents x u) :
    (s.invalidate u).memory.cache.find? x = s.memory.cache.find? x := by
  show (List.foldl NameTable.erase s.memory.cache _).find? x = _
  rw [NameTable.find?_foldl_erase, if_neg]
  exact fun hmem => (List.mem_cons.mp hmem).elim h hnotes

/-- A name is noted under those that it reaches, if its dependencies are known. -/
theorem Indexed.notes_iff (h : s.Indexed) :
    DependencyGraph.Notes s.graph.dependents x u ↔
      s.declarations.Reaches x u ∧ s.graph.dependencies.contains x := by
  rw [h.graph, DependencyGraph.notes_ofNames, DependencyGraph.contains_dependencies_iff]
  constructor
  · rintro ⟨hmem, found, hfound, hu⟩
    exact ⟨(Dependency.mem_ofDeclaration_iff hfound).mp hu, hmem, found, hfound⟩
  · rintro ⟨hreaches, hmem, found, hfound⟩
    exact ⟨hmem, found, hfound, (Dependency.mem_ofDeclaration_iff hfound).mpr hreaches⟩

/-- What is remembered after a name and its dependents were forgotten was remembered before.  It is
not the name, and does not reach the name. -/
theorem Indexed.of_find?_invalidate (hindexed : s.Indexed) {v : Series}
    (h : (s.invalidate u).memory.cache.find? x = some v) :
    s.memory.cache.find? x = some v ∧ x ≠ u ∧ (s.declarations.contains x →
      s.declarations.Acyclic x → ¬ s.declarations.Reaches x u) := by
  by_cases hforget : x = u ∨ DependencyGraph.Notes s.graph.dependents x u
  · rw [find?_invalidate_of_mem hforget] at h
    cases h
  · obtain ⟨hne, hnotes⟩ := not_or.mp hforget
    rw [find?_invalidate_of_not_mem hne hnotes] at h
    -- if `x` reached the name, the search from `x` would have noted it there
    refine ⟨h, hne, fun hdeclared hacyclic hreach => hnotes (hindexed.notes_iff.mpr ⟨hreach, ?_⟩)⟩
    rw [hindexed.graph]
    exact DependencyGraph.contains_dependencies_iff.mpr
      ⟨(hindexed.mem_order x).mpr hdeclared, Dependency.exists_ofDeclaration hacyclic⟩

end Session

end VectorScript
