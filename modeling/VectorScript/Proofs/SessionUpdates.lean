import VectorScript.Proofs.GraphLaws

/-!
# Taking up statements

A session keeps its declarations and the order of their names apart.  A declaration is taken up in
both before it is known whether it depends on itself; if it does, both are put back.  That this
gives what was there before rests on the order: a name that was not declared was not listed either,
so taking it out of the order takes out the one place that was added.

* `Session.Indexed.rebuild_insert`: order and graph fit the declarations when one is added.
* `Session.Refuses`: the statements that are not taken up.
* `Session.Indexed.update_cases`: all that may become of a statement.
* `Session.load_induction`: what holds of the session of a script.
-/

namespace VectorScript

namespace Session

variable {s s' : Session} {st : Statement} {name : String}

/-! ### Order and declarations -/

theorem Indexed.mem_order_insert (h : s.Indexed) (name : String) (st : Statement) (x : String) :
    x ∈ (s.insert name st).order ↔ (s.insert name st).declarations.contains x := by
  show x ∈ (if s.declarations.contains name then s.order else s.order ++ [name]) ↔
    (s.declarations.insert name st).contains x
  rw [NameTable.contains_insert, ← h.mem_order x]
  split
  · rename_i hname
    exact ⟨.inr, fun hx => hx.elim (fun heq => heq ▸ (h.mem_order name).mpr hname) id⟩
  · rw [List.mem_append, List.mem_singleton, or_comm]

theorem Indexed.nodup_insert (h : s.Indexed) (name : String) (st : Statement) :
    (s.insert name st).order.Nodup := by
  show (if s.declarations.contains name then s.order else s.order ++ [name]).Nodup
  split
  · exact h.nodup
  · rename_i hname
    have hnew : name ∉ s.order := fun hmem => hname ((h.mem_order name).mp hmem)
    refine List.nodup_append.mpr ⟨h.nodup, by simp, fun a ha b hb heq => hnew ?_⟩
    rwa [← List.mem_singleton.mp hb, ← heq]

/-- When a declaration is added and the graph is found anew, order and graph fit. -/
theorem Indexed.rebuild_insert (h : s.Indexed) (name : String) (st : Statement) :
    (s.insert name st).rebuild.Indexed :=
  ⟨h.nodup_insert name st, h.mem_order_insert name st, rfl⟩

/-! ### Refused statements -/

/-- Why a statement is not taken up: it could not be read, or what it declares would depend on
itself. -/
inductive Refuses (s : Session) (st : Statement) : Failure → Prop
  | unreadable {e : SyntaxError} (h : st.kind = .invalid e) : Refuses s st (.unreadable e)
  | cyclic {name : String} {cycle : Cycle} (hname : st.name? = some name)
    (h : Dependency.ofDeclaration (s.declarations.insert name st) name = .error cycle) :
    Refuses s st (.evaluation ⟨.cyclicDefinition name, ⟨some name, .none⟩⟩)

theorem Indexed.filter_order_append (h : s.Indexed) (hnone : s.declarations.find? name = none) :
    (s.order ++ [name]).filter (· ≠ name) = s.order := by
  have hunlisted : ∀ x ∈ s.order, x ≠ name := by
    rintro x hx rfl
    obtain ⟨st, hst⟩ := NameTable.contains_iff.mp ((h.mem_order x).mp hx)
    cases hnone.symm.trans hst
  rw [List.filter_append, List.filter_eq_self.mpr (by simpa using hunlisted)]
  simp

/-- A declaration that meets a cycle is taken back. -/
theorem Indexed.declare_of_cycle (h : s.Indexed) {cycle : Cycle}
    (hcycle : Dependency.ofDeclaration (s.declarations.insert name st) name = .error cycle) :
    s.declare name st = (.error (.evaluation ⟨.cyclicDefinition name, ⟨some name, .none⟩⟩), s) := by
  simp only [declare, insert, hcycle]
  cases hfind : s.declarations.find? name with
  | some previous =>
    have hcontains : s.declarations.contains name := NameTable.contains_iff.mpr ⟨previous, hfind⟩
    simp only [NameTable.insert_insert_of_find? hfind, hcontains, if_true]
  | none =>
    have hcontains : s.declarations.contains name = false := by simp [NameTable.contains, hfind]
    simp only [NameTable.erase_insert_of_find?_none hfind, hcontains, Bool.false_eq_true, if_false,
      h.filter_order_append hfind]

/-! ### All statements -/

/-- Another declaration stands under a name, and nothing is forgotten yet. -/
def replace (s : Session) (u : String) (st : Statement) : Session :=
  (s.insert u st).rebuild

/-- A declaration is taken up if the search from it succeeds. -/
theorem declare_of_found {found : List String}
    (h : Dependency.ofDeclaration (s.declarations.insert name st) name = .ok found) :
    s.declare name st = (.ok (), (s.replace name st).invalidate name) := by
  simp only [declare, insert, h]
  rfl

/-- All that may become of a statement. -/
theorem Indexed.update_cases (h : s.Indexed) (st : Statement) :
    (∃ e, s.update st = (.error e, s) ∧ s.Refuses st e) ∨
    (st.name? = none ∧ s.update st = (.ok (), { s with renders := s.renders ++ [st] })) ∨
    ∃ name, st.name? = some name ∧
      s.update st = (.ok (), (s.replace name st).invalidate name) := by
  have hdeclare : ∀ name, st.name? = some name → s.update st = s.declare name st →
      (∃ e, s.update st = (.error e, s) ∧ s.Refuses st e) ∨
      s.update st = (.ok (), (s.replace name st).invalidate name) := by
    intro name hname hupdate
    rw [hupdate]
    cases hsearch : Dependency.ofDeclaration (s.declarations.insert name st) name with
    | error cycle => exact .inl ⟨_, h.declare_of_cycle hsearch, .cyclic hname hsearch⟩
    | ok found => exact .inr (declare_of_found hsearch)
  cases hkind : st.kind with
  | invalid e => exact .inl ⟨.unreadable e, by simp only [update, hkind], .unreadable hkind⟩
  | render kind body =>
    exact .inr (.inl ⟨by simp only [Statement.name?, hkind], by simp only [update, hkind]⟩)
  | «variable» name body =>
    have hname : st.name? = some name := by simp only [Statement.name?, hkind]
    exact (hdeclare name hname (by simp only [update, hkind])).imp_right fun h =>
      .inr ⟨name, hname, h⟩
  | function name params body =>
    have hname : st.name? = some name := by simp only [Statement.name?, hkind]
    exact (hdeclare name hname (by simp only [update, hkind])).imp_right fun h =>
      .inr ⟨name, hname, h⟩

/-- A definition that is taken up adds a render statement, or replaces a declaration from which the
search succeeds. -/
theorem define_eq_ok (h : s.define st = .ok s') :
    (st.name? = none ∧ s' = { s with renders := s.renders ++ [st] }) ∨
    ∃ u found, st.name? = some u ∧ (st.isVariable ∨ st.isFunction) ∧
      Dependency.ofDeclaration (s.declarations.insert u st) u = .ok found ∧
      s' = (s.replace u st).invalidate u := by
  have hdeclare : ∀ u, s.declare u st = (.ok (), s') → ∃ found,
      Dependency.ofDeclaration (s.declarations.insert u st) u = .ok found ∧
      s' = (s.replace u st).invalidate u := by
    intro u hu
    unfold Session.declare at hu
    dsimp only at hu
    split at hu
    · cases hu
    · rename_i found hfound
      cases hu
      exact ⟨found, hfound, rfl⟩
  replace h : s.update st = (.ok (), s') := by
    unfold Session.define at h
    split at h
    · rename_i hupdate
      cases h
      exact hupdate
    · cases h
  unfold Session.update at h
  split at h
  · cases h
  · rename_i hkind
    cases h
    exact .inl ⟨by simp [Statement.name?, hkind], rfl⟩
  · rename_i u body hkind
    obtain ⟨found, hfound, hs'⟩ := hdeclare u h
    exact .inr ⟨u, found, by simp [Statement.name?, hkind],
      .inl (Statement.isVariable_iff.mpr ⟨_, _, hkind⟩), hfound, hs'⟩
  · rename_i u params body hkind
    obtain ⟨found, hfound, hs'⟩ := hdeclare u h
    exact .inr ⟨u, found, by simp [Statement.name?, hkind],
      .inr (by simp [Statement.isFunction, hkind]), hfound, hs'⟩

/-! ### Scripts -/

/-- Of the statements of a script, the declarations are inserted one after the other. -/
theorem take_eq (s : Session) (st : Statement) :
    s.take st = s ∨ s.take st = { s with renders := s.renders ++ [st] } ∨
      ∃ name, st.name? = some name ∧ s.take st = s.insert name st := by
  cases hkind : st.kind with
  | invalid e => exact .inl (by simp only [take, hkind])
  | render kind body => exact .inr (.inl (by simp only [take, hkind]))
  | «variable» name body | function name params body =>
    exact .inr (.inr ⟨name, by simp only [Statement.name?, hkind], by simp only [take, hkind]⟩)

/-- What holds of a session that knows nothing, is kept by every render statement and every
declaration of the script, and does not hang on the graph, holds of the session of a script. -/
theorem load_induction {P : Session → Prop} {source : String} (hempty : P empty)
    (hrender : ∀ s st, P s → P { s with renders := s.renders ++ [st] })
    (hinsert : ∀ s, ∀ st ∈ parseScript source, ∀ name, st.name? = some name → P s →
      P (s.insert name st))
    (hrebuild : ∀ s, P s → P s.rebuild) : P (load source).1 := by
  have hfold : ∀ (sts : List Statement) (s : Session), (∀ st ∈ sts, st ∈ parseScript source) →
      P s → P (sts.foldl take s) := by
    intro sts
    induction sts with
    | nil => exact fun s _ h => h
    | cons st sts ih =>
      intro s hsts h
      refine ih _ (fun st' hst' => hsts st' (List.mem_cons_of_mem _ hst')) ?_
      rcases s.take_eq st with heq | heq | ⟨name, hname, heq⟩ <;> rw [heq]
      · exact h
      · exact hrender s st h
      · exact hinsert s st (hsts st List.mem_cons_self) name hname h
  exact hrebuild _ (hfold _ empty (fun _ h => h) hempty)

/-- The order of a script's session lists its declarations, and the graph is that of the order. -/
theorem indexed_load (source : String) : (load source).1.Indexed := by
  have hempty : empty.Indexed := ⟨List.nodup_nil, fun name => by simp [empty]; rfl, rfl⟩
  have hordered : (load source).1.rebuild.Indexed := by
    refine load_induction (P := fun s => s.rebuild.Indexed) hempty (fun s st h => ?_)
      (fun s st _ name _ h => ?_) fun s h => h
    · exact ⟨h.nodup, h.mem_order, rfl⟩
    · exact h.rebuild_insert name st
  exact hordered

/-- Nothing is remembered or counted when a script is loaded. -/
theorem memory_load (source : String) : (load source).1.memory = empty.memory :=
  load_induction (P := fun s => s.memory = empty.memory) rfl (fun _ _ h => h) (fun _ _ _ _ _ h => h)
    fun _ h => h

/-- What is declared when a script is loaded is a statement of the script. -/
theorem mem_parseScript_of_find? {source : String} {x : String} {st : Statement}
    (h : (load source).1.declarations.find? x = some st) : st ∈ parseScript source := by
  have hall : ∀ x st, (load source).1.declarations.find? x = some st → st ∈ parseScript source :=
    load_induction
      (P := fun s => ∀ x st, s.declarations.find? x = some st → st ∈ parseScript source)
      nofun (fun _ _ h => h) (fun s st hst name _ h => NameTable.forall_insert h name hst)
      fun _ h => h
  exact hall x st h

end Session

end VectorScript
