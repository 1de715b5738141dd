import Mathlib.Tactic.Common
import VectorScript.Statement.Brackets

/-!
# Balanced tokens

Tokens whose brackets pair up.  Pairing up the brackets of balanced tokens leaves the brackets that
were open before as they are, so the tokens behind them do not notice them.

* `Balanced`: the brackets of some tokens pair up.
* `Checked`: balanced tokens, all of them known.
* `BracketPair.pairUp_append`: the pairs of balanced tokens lie among them.
-/

namespace VectorScript

/-- Every bracket closes one that was opened before it among the tokens. -/
inductive Balanced : List Token → Prop
  | nil : Balanced []
  | single {t : Token} (h : ∀ b, t.kind ≠ .bracket b) : Balanced [t]
  | append {ts us : List Token} (hts : Balanced ts) (hus : Balanced us) : Balanced (ts ++ us)
  | group {b : Bracket} {opener closer : Token} {ts : List Token} (hb : b.isOpen)
    (hopener : opener.kind = .bracket b) (hcloser : closer.kind = .bracket b.closer)
    (hts : Balanced ts) : Balanced (opener :: (ts ++ [closer]))

/-- What is checked of tokens before they are read. -/
structure Checked (ts : List Token) : Prop where
  balanced : Balanced ts
  known : ∀ t ∈ ts, t.kind ≠ .unknown

namespace Checked

variable {ts us : List Token} {t : Token}

theorem nil : Checked [] := ⟨.nil, nofun⟩

theorem single (h : ∀ b, t.kind ≠ .bracket b) (hknown : t.kind ≠ .unknown) : Checked [t] :=
  ⟨.single h, by simpa using hknown⟩

theorem append (hts : Checked ts) (hus : Checked us) : Checked (ts ++ us) :=
  ⟨hts.balanced.append hus.balanced, by
    simpa [or_imp, forall_and] using And.intro hts.known hus.known⟩

theorem cons (h : ∀ b, t.kind ≠ .bracket b) (hknown : t.kind ≠ .unknown) (hts : Checked ts) :
    Checked (t :: ts) :=
  append (single h hknown) hts

theorem group {b : Bracket} {opener closer : Token} (hb : b.isOpen)
    (hopener : opener.kind = .bracket b) (hcloser : closer.kind = .bracket b.closer)
    (hts : Checked ts) : Checked (opener :: (ts ++ [closer])) := by
  refine ⟨.group hb hopener hcloser hts.balanced, fun t ht => ?_⟩
  simp only [List.mem_cons, List.mem_append, List.not_mem_nil, or_false] at ht
  rcases ht with rfl | ht | rfl
  · simp [hopener]
  · exact hts.known t ht
  · simp [hcloser]

end Checked

namespace BracketPair

variable {position : Nat} {unclosed : List (Nat × Bracket)} {t : Token} {ts rest : List Token}
  {b : Bracket}

theorem pairUp_other (h : ∀ b, t.kind ≠ .bracket b) :
    pairUp position unclosed (t :: ts) = pairUp (position + 1) unclosed ts := by
  rw [pairUp]
  split
  · exact absurd ‹_› (h _)
  · rfl

theorem pairUp_opener (hb : b.isOpen) (h : t.kind = .bracket b) :
    pairUp position unclosed (t :: ts) = pairUp (position + 1) ((position, b) :: unclosed) ts := by
  simp [pairUp, h, hb]

theorem pairUp_closer {i : Nat} (h : t.kind = .bracket b.closer) :
    pairUp position ((i, b) :: unclosed) (t :: ts) =
      (pairUp (position + 1) unclosed ts).map (⟨i, position⟩ :: ·) := by
  have hb : b.closer.isOpen = false := by cases b <;> rfl
  simp [pairUp, h, hb]

/-- Behind balanced tokens, pairing up goes on as if they were not there.  Their own pairs lie among
them. -/
theorem pairUp_append (h : Balanced ts) (position : Nat) :
    ∃ pairs : List BracketPair, (∀ p ∈ pairs, position ≤ p.opener ∧ position ≤ p.closer) ∧
      ∀ unclosed rest, pairUp position unclosed (ts ++ rest) =
        (pairUp (position + ts.length) unclosed rest).map (pairs ++ ·) := by
  induction h generalizing position with
  | nil =>
    refine ⟨[], nofun, fun unclosed rest => ?_⟩
    cases h : pairUp position unclosed rest <;> simp [h, Except.map]
  | single h =>
    refine ⟨[], nofun, fun unclosed rest => ?_⟩
    rw [List.singleton_append, pairUp_other h, List.length_singleton]
    cases pairUp (position + 1) unclosed rest <;> rfl
  | @append ts us _ _ ihts ihus =>
    obtain ⟨pairs, hpairs, hts⟩ := ihts position
    obtain ⟨pairs', hpairs', hus⟩ := ihus (position + ts.length)
    refine ⟨pairs ++ pairs', fun p hp => ?_, fun unclosed rest => ?_⟩
    · rcases List.mem_append.mp hp with hp | hp
      · exact hpairs p hp
      · have := hpairs' p hp
        omega
    · rw [List.append_assoc, hts, hus, List.length_append, Nat.add_assoc]
      cases pairUp (position + (ts.length + us.length)) unclosed rest <;> simp [Except.map]
  | @group b opener closer ts hb hopener hcloser _ ih =>
    obtain ⟨pairs, hpairs, hts⟩ := ih (position + 1)
    have hlength : position + (opener :: (ts ++ [closer])).length =
        position + 1 + ts.length + 1 := by
      simp
      omega
    refine ⟨pairs ++ [⟨position, position + 1 + ts.length⟩], fun p hp => ?_,
      fun unclosed rest => ?_⟩
    · rcases List.mem_append.mp hp with hp | hp
      · have := hpairs p hp
        omega
      · cases List.mem_singleton.mp hp
        simp
        omega
    · rw [hlength, List.cons_append, pairUp_opener hb hopener, List.append_assoc, hts,
        List.singleton_append, pairUp_closer hcloser]
      cases pairUp (position + 1 + ts.length + 1) unclosed rest <;> simp [Except.map]

theorem pairUp_of_balanced (h : Balanced ts) (position : Nat) :
    ∃ pairs, pairUp position [] ts = .ok pairs := by
  obtain ⟨pairs, -, hpairs⟩ := pairUp_append h position
  have hts := hpairs [] []
  rw [List.append_nil] at hts
  exact ⟨pairs ++ [], hts⟩

theorem ofTokens_of_known (h : ∀ t ∈ ts, t.kind ≠ .unknown) : ofTokens ts = pairUp 0 [] ts := by
  have hknown : ts.findIdx? (·.kind = .unknown) = none := by simpa using h
  rw [ofTokens, hknown]

theorem ofTokens_of_checked (h : Checked ts) : ∃ pairs, ofTokens ts = .ok pairs := by
  rw [ofTokens_of_known h.known]
  exact pairUp_of_balanced h.balanced 0

/-- The bracket behind the first token is paired with the one that closes it. -/
theorem partner?_of_checked {opener closer : Token} (ht : ∀ b, t.kind ≠ .bracket b)
    (htknown : t.kind ≠ .unknown) (hb : b.isOpen) (hopener : opener.kind = .bracket b)
    (hcloser : closer.kind = .bracket b.closer) (hts : Checked ts) (hrest : Checked rest) :
    ∃ pairs, ofTokens (t :: opener :: (ts ++ closer :: rest)) = .ok pairs ∧
      partner? pairs 1 = some (2 + ts.length) := by
  have hchecked : Checked (t :: opener :: (ts ++ closer :: rest)) := by
    simpa using Checked.cons ht htknown ((Checked.group hb hopener hcloser hts).append hrest)
  obtain ⟨inner, hinner, hpairs⟩ := pairUp_append hts.balanced 2
  obtain ⟨outer, houter⟩ := pairUp_of_balanced hrest.balanced (2 + ts.length + 1)
  refine ⟨inner ++ ⟨1, 2 + ts.length⟩ :: outer, ?_, ?_⟩
  · rw [ofTokens_of_known hchecked.known, pairUp_other ht, pairUp_opener hb hopener, hpairs,
      pairUp_closer hcloser, houter]
    rfl
  · have hnone : partner? inner 1 = none := by
      refine List.findSome?_eq_none_iff.mpr fun p hp => ?_
      have := hinner p hp
      rw [if_neg (by omega), if_neg (by omega)]
    simp only [partner?] at hnone ⊢
    rw [List.findSome?_append, hnone]
    simp

end BracketPair

end VectorScript
