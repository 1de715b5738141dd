import VectorScript.Dependency
import VectorScript.Proofs.Failing
import VectorScript.Proofs.FreeNames

/-!
# The search for dependencies

The search walks expressions, but what it does depends on the free names of an expression only: it
visits them one after the other (`search_eq_foldlM`).  So it is a depth-first search in the graph of
`Declarations.Reads`.

* `mem_ofDeclaration_iff`: what is found is what the declaration reaches.
* `not_mem_ofDeclaration`: a variable is not found from itself.
* `exists_ofDeclaration`: the search fails only if a variable on its way leads back to itself.
-/

namespace VectorScript.Dependency

open Relation

theorem mem_insertName {x name : String} {names : List String} :
    x ∈ insertName name names ↔ x = name ∨ x ∈ names := by
  induction names with
  | nil => simp [insertName]
  | cons other rest ih =>
    unfold insertName
    split_ifs with heq hlt
    · simp [heq]
    · simp
    · simp only [List.mem_cons, ih]
      tauto

/-! ### The search visits free names -/

/-- Notes a name and follows its declaration. -/
def visit (ds : Declarations) (opened : List String) (s : Search) (name : String) :
    Except Cycle Search :=
  follow ds opened name (s.add name)

theorem reference_eq_foldlM {ds : Declarations} {opened bound : List String} {name : String}
    {s : Search} : reference ds opened bound name s =
      (if name ∈ bound then [] else [name]).foldlM (visit ds opened) s := by
  rw [reference]
  split_ifs
  · rfl
  · simp [visit]

mutual

theorem search_eq_foldlM {ds : Declarations} {opened : List String} :
    ∀ (e : Expr) (bound : List String) (s : Search),
      search ds opened bound e s = (e.reads ds bound).foldlM (visit ds opened) s
  | .constant .., bound, s => by rw [search]; rfl
  | .identifier name _, bound, s => by rw [search, reference_eq_foldlM, Expr.reads]
  | .vector items _, bound, s => by rw [search, Expr.reads, searchAll_eq_foldlM items]
  | .array items _, bound, s => by rw [search, Expr.reads, searchAll_eq_foldlM items]
  | .comprehension body binder source _, bound, s => by
    simp only [search, Expr.reads, List.foldlM_append, search_eq_foldlM source,
      search_eq_foldlM body]
  | .filtered body binder source condition _, bound, s => by
    simp only [search, Expr.reads, List.foldlM_append, search_eq_foldlM source,
      search_eq_foldlM body, search_eq_foldlM condition, bind_assoc]
  | .call name args _, bound, s => by
    simp only [search, Expr.reads, List.foldlM_append, searchAll_eq_foldlM args,
      reference_eq_foldlM]
    by_cases hname : ds.contains name <;> simp [hname, ite_not]
  | .unary _ operand _, bound, s => by rw [search, Expr.reads, search_eq_foldlM operand]
  | .binary _ left right _, bound, s => by
    simp only [search, Expr.reads, List.foldlM_append, search_eq_foldlM left,
      search_eq_foldlM right]
  | .range lower upper _, bound, s => by
    simp only [search, Expr.reads, List.foldlM_append, search_eq_foldlM lower,
      search_eq_foldlM upper]
  | .index target position _, bound, s => by
    simp only [search, Expr.reads, List.foldlM_append, search_eq_foldlM target,
      search_eq_foldlM position]
  | .swizzle target _ _, bound, s => by rw [search, Expr.reads, search_eq_foldlM target]
  | .conditional consequent condition alternative _, bound, s => by
    simp only [search, Expr.reads, List.foldlM_append, search_eq_foldlM consequent,
      search_eq_foldlM condition, search_eq_foldlM alternative, bind_assoc]

theorem searchAll_eq_foldlM {ds : Declarations} {opened : List String} :
    ∀ (es : List Expr) (bound : List String) (s : Search),
      searchAll ds opened bound es s = (Expr.readsAll ds bound es).foldlM (visit ds opened) s
  | [], bound, s => by rw [searchAll]; rfl
  | e :: rest, bound, s => by
    simp only [searchAll, Expr.readsAll, List.foldlM_append, search_eq_foldlM e,
      searchAll_eq_foldlM rest]

end

section Follow

variable {ds : Declarations} {opened : List String} {name : String} {s : Search}

theorem follow_undeclared (hfind : ds.find? name = none) : follow ds opened name s = .ok s := by
  rw [follow]
  split
  · rfl
  · simp_all

theorem follow_opened {st : Statement} (hfind : ds.find? name = some st) (hopen : name ∈ opened) :
    follow ds opened name s =
      if st.isFunction then .ok s else .error (cycleAt opened name) := by
  rw [follow]
  split
  · simp_all
  · simp_all

theorem follow_followed {st : Statement} (hfind : ds.find? name = some st) (hopen : name ∉ opened)
    (hdone : name ∈ s.followed) : follow ds opened name s = .ok s := by
  rw [follow]
  split
  · simp_all
  · simp [hopen, hdone]

/-- A declaration that is met for the first time: all its free names are visited. -/
theorem follow_new {st : Statement} (hfind : ds.find? name = some st) (hopen : name ∉ opened)
    (hnew : name ∉ s.followed) :
    follow ds opened name s =
      (fun s => s.finish name) <$> (st.reads ds).foldlM (visit ds (name :: opened)) s := by
  rw [follow]
  split
  · simp_all
  · rename_i st' hfind'
    obtain rfl : st' = st := by simpa [hfind'] using hfind
    simp only [hopen, hnew, ↓reduceDIte, ↓reduceIte, Statement.reads]
    cases st'.kind <;> simp [search_eq_foldlM] <;> rfl

/-- What a visit has done if it succeeds.  A name that is open is a function; a declaration that was
not met before is followed, with one more name open. -/
theorem visit_eq_ok {t : Search} (h : visit ds opened s name = .ok t) :
    (∀ st, ds.find? name = some st → name ∈ opened → st.isFunction) ∧
      ((t = s.add name ∧ (ds.contains name → name ∈ s.followed ∨ name ∈ opened)) ∨
        ∃ st u, ds.find? name = some st ∧ name ∉ opened ∧
          (st.reads ds).foldlM (visit ds (name :: opened)) (s.add name) = .ok u ∧
          t = u.finish name) := by
  unfold visit at h
  cases hfind : ds.find? name with
  | none =>
    rw [follow_undeclared hfind] at h
    exact ⟨nofun, .inl ⟨(Except.ok.inj h).symm, by simp [NameTable.contains, hfind]⟩⟩
  | some st =>
    by_cases hopen : name ∈ opened
    · rw [follow_opened hfind hopen] at h
      split_ifs at h with hfunction
      refine ⟨?_, .inl ⟨(Except.ok.inj h).symm, fun _ => .inr hopen⟩⟩
      rintro _ ⟨⟩ -
      exact hfunction
    · refine ⟨fun _ _ hopened => absurd hopened hopen, ?_⟩
      by_cases hdone : name ∈ s.followed
      · rw [follow_followed (s := s.add name) hfind hopen hdone] at h
        exact .inl ⟨(Except.ok.inj h).symm, fun _ => .inl hdone⟩
      · rw [follow_new (s := s.add name) hfind hopen hdone] at h
        obtain ⟨u, hu, rfl⟩ := map_eq_ok.mp h
        exact .inr ⟨st, u, rfl, hopen, hu, rfl⟩

end Follow

/-! ### What is found is closed -/

/-- Everything found is followed to the end or still open, and what was followed has had all it
reads found. -/
structure Search.Closed (ds : Declarations) (opened : List String) (s : Search) : Prop where
  done : ∀ x ∈ s.found, ds.contains x → x ∈ s.followed ∨ x ∈ opened
  reads : ∀ x ∈ s.followed, ∀ y, ds.Reads x y → y ∈ s.found

/-- A later state of a search. -/
structure Search.Extends (s t : Search) : Prop where
  found : ∀ x ∈ s.found, x ∈ t.found
  followed : ∀ x ∈ s.followed, x ∈ t.followed

theorem Search.Extends.refl (s : Search) : s.Extends s := ⟨fun _ h => h, fun _ h => h⟩

theorem Search.Extends.trans {s t u : Search} (h : s.Extends t) (h' : t.Extends u) :
    s.Extends u :=
  ⟨fun x hx => h'.found x (h.found x hx), fun x hx => h'.followed x (h.followed x hx)⟩

theorem Search.extends_add (s : Search) (name : String) : s.Extends (s.add name) :=
  ⟨fun _ hx => mem_insertName.mpr (.inr hx), fun _ hx => hx⟩

theorem Search.extends_finish (s : Search) (name : String) : s.Extends (s.finish name) :=
  ⟨fun _ hx => hx, fun _ hx => List.mem_cons_of_mem _ hx⟩

theorem Search.mem_found_add (s : Search) (name : String) : name ∈ (s.add name).found :=
  mem_insertName.mpr (.inl rfl)

section Visits

variable {ds : Declarations} {opened : List String}

theorem Search.Closed.add {s : Search} (h : s.Closed ds opened) {name : String}
    (hname : ds.contains name → name ∈ s.followed ∨ name ∈ opened) :
    (s.add name).Closed ds opened where
  done x hx hdeclared := by
    rcases mem_insertName.mp hx with rfl | hx
    · exact hname hdeclared
    · exact h.done x hx hdeclared
  reads x hx y hxy := mem_insertName.mpr (.inr (h.reads x hx y hxy))

theorem Search.Closed.open {s : Search} (h : s.Closed ds opened) (name : String) :
    s.Closed ds (name :: opened) where
  done x hx hdeclared := (h.done x hx hdeclared).imp_right (List.mem_cons_of_mem _)
  reads := h.reads

theorem Search.Closed.finish {s : Search} {name : String} (h : s.Closed ds (name :: opened))
    (hreads : ∀ y, ds.Reads name y → y ∈ s.found) : (s.finish name).Closed ds opened where
  done x hx hdeclared := by
    rcases h.done x hx hdeclared with hdone | hopen
    · exact .inl (List.mem_cons_of_mem _ hdone)
    · rcases List.mem_cons.mp hopen with rfl | hopen
      · exact .inl List.mem_cons_self
      · exact .inr hopen
  reads x hx y hxy := by
    rcases List.mem_cons.mp hx with rfl | hx
    · exact hreads y hxy
    · exact h.reads x hx y hxy

/-- What one visit does to a closed search. -/
def VisitCloses (ds : Declarations) (opened : List String) : Prop :=
  ∀ {s t : Search} {x : String}, visit ds opened s x = .ok t → s.Closed ds opened →
    t.Closed ds opened ∧ s.Extends t ∧ x ∈ t.found

theorem foldlM_visit_closed (hvisit : VisitCloses ds opened) :
    ∀ {names : List String} {s t : Search}, names.foldlM (visit ds opened) s = .ok t →
      s.Closed ds opened → t.Closed ds opened ∧ s.Extends t ∧ ∀ x ∈ names, x ∈ t.found
  | [], s, t, h, hs => by
    obtain rfl : s = t := pure_eq_ok.mp h
    exact ⟨hs, .refl s, by simp⟩
  | x :: names, s, t, h, hs => by
    rw [List.foldlM_cons] at h
    obtain ⟨u, hu, h⟩ := bind_eq_ok.mp h
    obtain ⟨hclosed, hext, hx⟩ := hvisit hu hs
    obtain ⟨hclosed', hext', hnames⟩ := foldlM_visit_closed hvisit h hclosed
    refine ⟨hclosed', hext.trans hext', fun y hy => ?_⟩
    rcases List.mem_cons.mp hy with rfl | hy
    · exact hext'.found y hx
    · exact hnames y hy

-- Induction on the declarations that are not open: a visit opens one more of them.
theorem visitCloses (ds : Declarations) (opened : List String) : VisitCloses ds opened := by
  induction hn : ds.unused opened using Nat.strongRecOn generalizing opened with
  | _ n ih =>
    intro s t x h hs
    obtain ⟨-, ⟨rfl, hdone⟩ | ⟨st, u, hfind, hopen, hu, rfl⟩⟩ := visit_eq_ok h
    · exact ⟨hs.add hdone, s.extends_add x, s.mem_found_add x⟩
    · have hless := NameTable.unused_cons_lt hfind hopen
      have hstart : (s.add x).Closed ds (x :: opened) :=
        (hs.open x).add fun _ => .inr List.mem_cons_self
      obtain ⟨hclosed, hext, hfound⟩ :=
        foldlM_visit_closed (ih _ (hn ▸ hless) (x :: opened) rfl) hu hstart
      refine ⟨hclosed.finish ?_, ((s.extends_add x).trans hext).trans (u.extends_finish x),
        hext.found x (s.mem_found_add x)⟩
      rintro y ⟨st', hst', hy⟩
      obtain rfl : st = st' := by simpa [hfind] using hst'
      exact hfound y hy

/-! ### What is found is reached -/

/-- A visit finds no more than the name and what it leads to. -/
def VisitReaches (ds : Declarations) (opened : List String) : Prop :=
  ∀ {s t : Search} {x : String}, visit ds opened s x = .ok t →
    ∀ y ∈ t.found, y ∈ s.found ∨ ReflTransGen ds.Reads x y

theorem foldlM_visit_reaches (hvisit : VisitReaches ds opened) :
    ∀ {names : List String} {s t : Search}, names.foldlM (visit ds opened) s = .ok t →
      ∀ y ∈ t.found, y ∈ s.found ∨ ∃ x ∈ names, ReflTransGen ds.Reads x y
  | [], s, t, h, y, hy => by
    obtain rfl : s = t := pure_eq_ok.mp h
    exact .inl hy
  | x :: names, s, t, h, y, hy => by
    rw [List.foldlM_cons] at h
    obtain ⟨u, hu, h⟩ := bind_eq_ok.mp h
    rcases foldlM_visit_reaches hvisit h y hy with hy | ⟨z, hz, hzy⟩
    · exact (hvisit hu y hy).imp_right fun hxy => ⟨x, List.mem_cons_self, hxy⟩
    · exact .inr ⟨z, List.mem_cons_of_mem _ hz, hzy⟩

theorem visitReaches (ds : Declarations) (opened : List String) : VisitReaches ds opened := by
  induction hn : ds.unused opened using Nat.strongRecOn generalizing opened with
  | _ n ih =>
    intro s t x h y hy
    have hadd : y ∈ (s.add x).found → y ∈ s.found ∨ ReflTransGen ds.Reads x y := by
      intro hmem
      rcases mem_insertName.mp hmem with rfl | hmem
      · exact .inr .refl
      · exact .inl hmem
    obtain ⟨-, ⟨rfl, -⟩ | ⟨st, u, hfind, hopen, hu, rfl⟩⟩ := visit_eq_ok h
    · exact hadd hy
    · have hless := NameTable.unused_cons_lt hfind hopen
      rcases foldlM_visit_reaches (ih _ (hn ▸ hless) (x :: opened) rfl) hu y hy with
        hy | ⟨z, hz, hzy⟩
      · exact hadd hy
      · exact .inr (hzy.head ⟨st, hfind, hz⟩)

/-! ### A variable that is open is not found -/

/-- A visit does not find a variable that is open. -/
def VisitSkips (ds : Declarations) (opened : List String) (o : String) : Prop :=
  ∀ {s t : Search} {x : String}, visit ds opened s x = .ok t → o ∈ t.found → o ∈ s.found

theorem foldlM_visit_skips {o : String} (hvisit : VisitSkips ds opened o) :
    ∀ {names : List String} {s t : Search}, names.foldlM (visit ds opened) s = .ok t →
      o ∈ t.found → o ∈ s.found
  | [], s, t, h, ho => by
    obtain rfl : s = t := pure_eq_ok.mp h
    exact ho
  | x :: names, s, t, h, ho => by
    rw [List.foldlM_cons] at h
    obtain ⟨u, hu, h⟩ := bind_eq_ok.mp h
    exact hvisit hu (foldlM_visit_skips hvisit h ho)

theorem visitSkips {st : Statement} {o : String} (ho : ds.find? o = some st)
    (hvar : ¬ st.isFunction) (hopened : o ∈ opened) : VisitSkips ds opened o := by
  induction hn : ds.unused opened using Nat.strongRecOn generalizing opened with
  | _ n ih =>
    intro s t x h hot
    obtain ⟨hfunction, hcases⟩ := visit_eq_ok h
    -- a visit of `o` itself would have failed
    have hne : o ≠ x := by
      rintro rfl
      exact hvar (hfunction st ho hopened)
    have hadd : o ∈ (s.add x).found → o ∈ s.found := fun hmem =>
      (mem_insertName.mp hmem).resolve_left hne
    rcases hcases with ⟨rfl, -⟩ | ⟨st', u, hfind, hopen, hu, rfl⟩
    · exact hadd hot
    · have hless := NameTable.unused_cons_lt hfind hopen
      exact hadd (foldlM_visit_skips
        (ih _ (hn ▸ hless) (List.mem_cons_of_mem _ hopened) rfl) hu hot)

/-! ### A search that fails -/

theorem isVariable_of_reads {st : Statement} {x y : String} (hfind : ds.find? x = some st)
    (hfun : ¬ st.isFunction) (hxy : ds.Reads x y) : ds.IsVariable x := by
  obtain ⟨st', hst', hy⟩ := hxy
  obtain rfl : st = st' := by simpa [hfind] using hst'
  refine ⟨st, hfind, ?_⟩
  cases hkind : st.kind <;> simp_all [Statement.isFunction, Statement.isVariable, Statement.reads]

/-- A visit fails where it comes back to an open declaration that is not a function, or further on,
in a visit from the declaration that it opens. -/
theorem visit_eq_error {s : Search} {x : String} {c : Cycle}
    (h : visit ds opened s x = .error c) : ∃ st, ds.find? x = some st ∧
      ((x ∈ opened ∧ ¬ st.isFunction ∧ c = cycleAt opened x) ∨
        x ∉ opened ∧ ∃ y ∈ st.reads ds, ∃ u, visit ds (x :: opened) u y = .error c) := by
  unfold visit at h
  cases hfind : ds.find? x with
  | none => simp [follow_undeclared hfind] at h
  | some st =>
    refine ⟨st, rfl, ?_⟩
    by_cases hopen : x ∈ opened
    · rw [follow_opened hfind hopen] at h
      split_ifs at h with hfun
      exact .inl ⟨hopen, hfun, (Except.error.inj h).symm⟩
    · by_cases hdone : x ∈ s.followed
      · simp [follow_followed (s := s.add x) hfind hopen hdone] at h
      · rw [follow_new (s := s.add x) hfind hopen hdone] at h
        have hfold : (st.reads ds).foldlM (visit ds (x :: opened)) (s.add x) = .error c := by
          cases hu : (st.reads ds).foldlM (visit ds (x :: opened)) (s.add x) with
          | error e => simpa [hu] using h
          | ok u => simp [hu] at h
        exact .inr ⟨hopen, foldlM_eq_error hfold⟩

/-- A visit fails only at a variable that leads back to itself, when all open declarations lead to
the name that is visited. -/
theorem exists_cycle_of_visit {s : Search} {x : String} {c : Cycle}
    (h : visit ds opened s x = .error c) (hchain : ∀ o ∈ opened, ds.Reaches o x) :
    ∃ y, ReflTransGen ds.Reads x y ∧ ds.IsVariable y ∧ ds.Reaches y y := by
  induction hn : ds.unused opened using Nat.strongRecOn generalizing opened s x with
  | _ n ih =>
    obtain ⟨st, hfind, ⟨hopen, hfun, -⟩ | ⟨hopen, y, hy, u, hu⟩⟩ := visit_eq_error h
    · have hxx := hchain x hopen
      obtain ⟨z, hxz, -⟩ := TransGen.head'_iff.mp hxx
      exact ⟨x, .refl, isVariable_of_reads hfind hfun hxz, hxx⟩
    · have hxy : ds.Reads x y := ⟨st, hfind, hy⟩
      have hless := NameTable.unused_cons_lt hfind hopen
      obtain ⟨z, hyz, hz⟩ := ih _ (hn ▸ hless) hu (fun o ho => by
        rcases List.mem_cons.mp ho with rfl | ho
        · exact .single hxy
        · exact (hchain o ho).tail hxy) rfl
      exact ⟨z, hyz.head hxy, hz⟩

end Visits

/-! ### Dependencies of a declaration -/

section OfDeclaration

variable {ds : Declarations} {r : String} {found : List String}

theorem ofDeclaration_eq {st : Statement} (hfind : ds.find? r = some st) :
    ofDeclaration ds r = Search.found <$> (st.reads ds).foldlM (visit ds [r]) .empty := by
  rw [ofDeclaration, follow_new hfind (by simp) (by simp [Search.empty])]
  cases (st.reads ds).foldlM (visit ds [r]) .empty <;> rfl

theorem closed_empty (opened : List String) : Search.empty.Closed ds opened :=
  ⟨by simp [Search.empty], by simp [Search.empty]⟩

/-- What is found from `r` holds everything that `r` reads, and everything that a declaration among
it reads. -/
theorem ofDeclaration_closed (h : ofDeclaration ds r = .ok found) :
    (∀ y, ds.Reads r y → y ∈ found) ∧ ∀ x ∈ found, ∀ y, ds.Reads x y → y ∈ found := by
  cases hfind : ds.find? r with
  | none =>
    have hempty : Search.empty.found = found := by
      simpa [ofDeclaration, follow_undeclared hfind, Except.map] using h
    refine ⟨?_, by simp [← hempty, Search.empty]⟩
    rintro y ⟨st, hst, -⟩
    simp [hfind] at hst
  | some st =>
    rw [ofDeclaration_eq hfind] at h
    obtain ⟨u, hu, rfl⟩ := map_eq_ok.mp h
    obtain ⟨hclosed, -, hfound⟩ :=
      foldlM_visit_closed (visitCloses ds [r]) hu (closed_empty _)
    have hr : ∀ y, ds.Reads r y → y ∈ u.found := by
      rintro y ⟨st', hst', hy⟩
      obtain rfl : st = st' := by simpa [hfind] using hst'
      exact hfound y hy
    refine ⟨hr, fun x hx y hxy => ?_⟩
    have hdeclared : ds.contains x := NameTable.contains_iff.mpr ⟨hxy.choose, hxy.choose_spec.1⟩
    rcases hclosed.done x hx hdeclared with hdone | hopen
    · exact hclosed.reads x hdone y hxy
    · obtain rfl : x = r := by simpa using hopen
      exact hr y hxy

/-- Everything that `r` reaches is found from it. -/
theorem mem_ofDeclaration_of_reaches (h : ofDeclaration ds r = .ok found) {y : String}
    (hy : ds.Reaches r y) : y ∈ found := by
  obtain ⟨hr, hclosed⟩ := ofDeclaration_closed h
  induction hy with
  | single hry => exact hr _ hry
  | tail _ hxy ih => exact hclosed _ ih _ hxy

/-- Everything that is found from `r` is reached from it. -/
theorem reaches_of_mem_ofDeclaration (h : ofDeclaration ds r = .ok found) {y : String}
    (hy : y ∈ found) : ds.Reaches r y := by
  cases hfind : ds.find? r with
  | none =>
    have hempty : Search.empty.found = found := by
      simpa [ofDeclaration, follow_undeclared hfind, Except.map] using h
    simp [← hempty, Search.empty] at hy
  | some st =>
    rw [ofDeclaration_eq hfind] at h
    obtain ⟨u, hu, rfl⟩ := map_eq_ok.mp h
    rcases foldlM_visit_reaches (visitReaches ds [r]) hu y hy with hy | ⟨x, hx, hxy⟩
    · simp [Search.empty] at hy
    · exact TransGen.head' ⟨st, hfind, hx⟩ hxy

/-- A search that succeeds finds what the declaration reaches. -/
theorem mem_ofDeclaration_iff (h : ofDeclaration ds r = .ok found) {y : String} :
    y ∈ found ↔ ds.Reaches r y :=
  ⟨reaches_of_mem_ofDeclaration h, mem_ofDeclaration_of_reaches h⟩

/-- A variable is not found from itself. -/
theorem not_mem_ofDeclaration (h : ofDeclaration ds r = .ok found) (hr : ds.IsVariable r) :
    r ∉ found := by
  obtain ⟨st, hfind, hvar⟩ := hr
  rw [ofDeclaration_eq hfind] at h
  obtain ⟨u, hu, rfl⟩ := map_eq_ok.mp h
  have hfun : ¬ st.isFunction := by
    cases hkind : st.kind <;> simp_all [Statement.isFunction, Statement.isVariable]
  intro hmem
  have := foldlM_visit_skips (visitSkips hfind hfun List.mem_cons_self) hu hmem
  simp [Search.empty] at this

/-- A variable from which the search succeeds does not lead back to itself. -/
theorem not_reaches_self (h : ofDeclaration ds r = .ok found) (hr : ds.IsVariable r) :
    ¬ ds.Reaches r r :=
  fun hreaches => not_mem_ofDeclaration h hr (mem_ofDeclaration_of_reaches h hreaches)

/-- If the search succeeds from every declaration, no variable leads back to itself. -/
theorem not_reaches_self_of_searched
    (h : ∀ name, ds.contains name → ∃ found, ofDeclaration ds name = .ok found)
    (hr : ds.IsVariable r) : ¬ ds.Reaches r r := by
  obtain ⟨st, hfind, -⟩ := id hr
  obtain ⟨found, hfound⟩ := h r (NameTable.contains_iff.mpr ⟨st, hfind⟩)
  exact not_reaches_self hfound hr

/-- It is enough to search from the names one after the other. -/
theorem searched_of_all (h : ds.names.all fun name => (ofDeclaration ds name).isOk) (name : String)
    (hname : ds.contains name) : ∃ found, ofDeclaration ds name = .ok found := by
  obtain ⟨st, hfind⟩ := NameTable.contains_iff.mp hname
  have hok := List.all_eq_true.mp h name (NameTable.mem_names_of_find? hfind)
  cases hsearch : ofDeclaration ds name with
  | ok found => exact ⟨found, rfl⟩
  | error c => simp [hsearch, Except.isOk, Except.toBool] at hok

/-- The search succeeds unless a variable on its way leads back to itself. -/
theorem exists_ofDeclaration (h : ds.Acyclic r) : ∃ found, ofDeclaration ds r = .ok found := by
  cases hfind : ds.find? r with
  | none => exact ⟨_, by rw [ofDeclaration, follow_undeclared hfind]; rfl⟩
  | some st =>
    rw [ofDeclaration_eq hfind]
    cases hu : (st.reads ds).foldlM (visit ds [r]) .empty with
    | ok u => exact ⟨u.found, rfl⟩
    | error c =>
      exfalso
      obtain ⟨x, hx, s, hs⟩ := foldlM_eq_error hu
      have hrx : ds.Reads r x := ⟨st, hfind, hx⟩
      obtain ⟨y, hxy, hvar, hyy⟩ := exists_cycle_of_visit hs (by
        intro o ho
        obtain rfl : o = r := by simpa using ho
        exact .single hrx)
      exact h y (hxy.head hrx) hvar hyy

end OfDeclaration

end VectorScript.Dependency
