import VectorScript.Proofs.FreeOccurrences

/-!
# Reported cycles

A search that fails reports a way from a variable back to it.  The declarations that are open during
a search form a way from its root to the name that is visited (`Trail`), and the report is the piece
of this way after the first visit of the variable.

* `Trail.cycleAt`: a way that comes back to an open declaration holds a cycle.
* `visit_reports_cycle`: every failure of a search is such a cycle.
* `reports_cycles`: reported cycles are cycles, and no variable that leads back to itself is missed.
-/

namespace VectorScript.Dependency

open Relation

variable {ds : Declarations} {r x y : String} {opened : List String}

/-- The open declarations, innermost first, lead from `r` to the name that is visited next: each
reads the one before it, none is open twice, and all are reached from `r`. -/
structure Trail (ds : Declarations) (r : String) (opened : List String) (x : String) : Prop where
  chain : (x :: opened).IsChain fun b a => ds.Reads a b
  nodup : opened.Nodup
  reached : ∀ o ∈ x :: opened, ReflTransGen ds.Reads r o

theorem Trail.root (h : ds.Reads r x) : Trail ds r [r] x where
  chain := List.isChain_pair.mpr h
  nodup := List.nodup_singleton r
  reached o ho := by
    rcases List.mem_cons.mp ho with rfl | ho
    · exact .single h
    · rw [List.mem_singleton.mp ho]

/-- A declaration that was not open is opened, and one of its names is visited. -/
theorem Trail.open (h : Trail ds r opened x) (hopen : x ∉ opened) (hxy : ds.Reads x y) :
    Trail ds r (x :: opened) y where
  chain := List.isChain_cons_cons.mpr ⟨hxy, h.chain⟩
  nodup := List.nodup_cons.mpr ⟨hopen, h.nodup⟩
  reached o ho := by
    rcases List.mem_cons.mp ho with rfl | ho
    · exact (h.reached x List.mem_cons_self).tail hxy
    · exact h.reached o ho

/-- The part of the open declarations inside `x` ends where `x` is open. -/
theorem takeWhile_append_of_mem (hopen : x ∈ opened) :
    ∃ outer, opened = opened.takeWhile (· ≠ x) ++ x :: outer := by
  obtain ⟨inner, outer, rfl, hx⟩ := List.eq_append_cons_of_mem hopen
  refine ⟨outer, ?_⟩
  rw [List.takeWhile_append_of_pos (by simpa using fun a ha => ne_of_mem_of_not_mem ha hx)]
  simp

/-- A way that has come back to an open declaration: the way since then leads from it to itself. -/
theorem Trail.cycleAt (h : Trail ds r opened x) (hopen : x ∈ opened) :
    ∃ middle, (Dependency.cycleAt opened x).chain = x :: middle ++ [x] ∧ (x :: middle).Nodup ∧
      (Dependency.cycleAt opened x).chain.IsChain ds.Reads := by
  obtain ⟨outer, hsplit⟩ := takeWhile_append_of_mem hopen
  refine ⟨(opened.takeWhile (· ≠ x)).reverse, rfl, ?_, ?_⟩
  · have hx : x ∉ opened.takeWhile (· ≠ x) := fun hmem => by
      simpa using List.mem_takeWhile_imp hmem
    refine List.nodup_cons.mpr ⟨by rwa [List.mem_reverse], List.nodup_reverse.mpr ?_⟩
    exact h.nodup.sublist (List.takeWhile_sublist _)
  · have hway : (x :: opened.takeWhile (· ≠ x) ++ [x]).IsChain fun b a => ds.Reads a b := by
      have hchain := h.chain
      rw [hsplit] at hchain
      refine hchain.prefix ⟨outer, ?_⟩
      simp
    rw [← List.isChain_reverse] at hway
    simpa [Dependency.cycleAt] using hway

/-- A search fails with a cycle of a variable that its root leads to. -/
theorem visit_reports_cycle {s : Search} {c : Cycle} (htrail : Trail ds r opened x)
    (h : visit ds opened s x = .error c) :
    ∃ y middle, c.chain = y :: middle ++ [y] ∧ ds.IsVariable y ∧ (y :: middle).Nodup ∧
      c.chain.IsChain ds.Reads ∧ ReflTransGen ds.Reads r y := by
  induction hn : ds.unused opened using Nat.strongRecOn generalizing opened s x with
  | _ n ih =>
    obtain ⟨st, hfind, ⟨hopen, hfun, rfl⟩ | ⟨hopen, y, hy, u, hu⟩⟩ := visit_eq_error h
    · obtain ⟨middle, heq, hnodup, hchain⟩ := htrail.cycleAt hopen
      refine ⟨x, middle, heq, ?_, hnodup, hchain, htrail.reached x List.mem_cons_self⟩
      -- what reads the next name of a cycle and is no function is a variable
      rw [heq, List.cons_append, List.isChain_cons] at hchain
      have hnext : ∃ z, z ∈ (middle ++ [x]).head? := by cases middle <;> simp
      exact hnext.elim fun z hz => isVariable_of_reads hfind hfun (hchain.1 z hz)
    · have hless := NameTable.unused_cons_lt hfind hopen
      exact ih _ (hn ▸ hless) (htrail.open hopen ⟨st, hfind, hy⟩) hu rfl

theorem ofDeclaration_eq_error {c : Cycle} (h : ofDeclaration ds r = .error c) :
    ∃ x s, ds.Reads r x ∧ visit ds [r] s x = .error c := by
  cases hfind : ds.find? r with
  | none => simp [ofDeclaration, follow_undeclared hfind, Except.map] at h
  | some st =>
    rw [ofDeclaration_eq hfind] at h
    cases hu : (st.reads ds).foldlM (visit ds [r]) .empty with
    | ok u => simp [hu] at h
    | error e =>
      obtain rfl : e = c := by simpa [hu] using h
      obtain ⟨x, hx, s, hs⟩ := foldlM_eq_error hu
      exact ⟨x, s, ⟨st, hfind, hx⟩, hs⟩

/-- A search that fails reports names that start and end with one variable, with none of them twice
before the end: each is declared and refers to the next, and the root of the search is the variable
or leads to it.  A search from a variable that leads back to itself, over whatever variables and
functions, fails. -/
theorem reports_cycles (ds : Declarations) (r : String) :
    (∀ c, ofDeclaration ds r = .error c → ∃ x middle, c.chain = x :: middle ++ [x] ∧
      ds.IsVariable x ∧ (x :: middle).Nodup ∧ c.chain.IsChain ds.Refers ∧
      (x = r ∨ TransGen ds.Refers r x)) ∧
    (ds.IsVariable r → TransGen ds.Refers r r → ∃ c, ofDeclaration ds r = .error c) := by
  rw [← Declarations.reads_eq_refers]
  constructor
  · intro c hc
    obtain ⟨y, s, hry, hs⟩ := ofDeclaration_eq_error hc
    obtain ⟨x, middle, heq, hvar, hnodup, hchain, hreached⟩ := visit_reports_cycle (.root hry) hs
    exact ⟨x, middle, heq, hvar, hnodup, hchain, reflTransGen_iff_eq_or_transGen.mp hreached⟩
  · intro hvar hself
    cases hsearch : ofDeclaration ds r with
    | error c => exact ⟨c, rfl⟩
    | ok found => exact absurd hself (not_reaches_self hsearch hvar)

/-- A phase that is shifted by itself, and a name for it.  The function was declared last. -/
def shiftedPhase : Declarations :=
  (Session.load "turn = phase; phase = shift(start); shift(p) = p + phase").1.declarations

set_option maxRecDepth 4000 in
theorem search_turn : ofDeclaration shiftedPhase "turn" = .error ⟨["phase", "shift", "phase"]⟩ := by
  cbv

/-- The search from the name reports the cycle, and so does the search from the phase itself. -/
theorem cycle_of_shiftedPhase :
    ofDeclaration shiftedPhase "turn" = .error ⟨["phase", "shift", "phase"]⟩ ∧
    shiftedPhase.IsVariable "phase" ∧
    ["phase", "shift", "phase"].IsChain shiftedPhase.Refers ∧
    TransGen shiftedPhase.Refers "turn" "phase" ∧
    ∃ c, ofDeclaration shiftedPhase "phase" = .error c := by
  obtain ⟨x, middle, heq, hvar, -, hchain, hreached⟩ :=
    (reports_cycles shiftedPhase "turn").1 _ search_turn
  obtain rfl : "phase" = x := (List.cons.inj heq).1
  have hself : TransGen shiftedPhase.Refers "phase" "phase" := by
    simp only [List.isChain_cons_cons] at hchain
    exact .head hchain.1 (.single hchain.2.1)
  exact ⟨search_turn, hvar, hchain, hreached.resolve_left (by decide),
    (reports_cycles shiftedPhase "phase").2 hvar hself⟩

end VectorScript.Dependency
