import Mathlib.Data.List.Induction
import Mathlib.Order.Bounds.Defs
import VectorScript.Proofs.BalancedTokens
import VectorScript.Proofs.Failing

/-!
# Matched brackets

The check of brackets accepts the balanced tokens and no others.  The pairs that it finds are the
brackets between which all is balanced.  Where it refuses tokens it names the first token behind
which no others can make up for what is wrong, or else the last bracket that nothing closes.

All this follows from how tokens look of which some brackets are still open: these brackets stand
between balanced tokens.

* `Matched`: two positions hold a bracket and the one that closes it.
* `Leaves`: the brackets that some tokens leave open.
* `leaves_or_stuck`: tokens leave some brackets open, or one of them closes nothing.
* `Leaves.pairUp_append`: pairing up goes on with the brackets that are open.
* `BracketPair.checks_balance`: what is accepted, which positions are paired and what is refused.
-/

namespace VectorScript

/-- A bracket and the one that closes it stand at these positions: they have one type, and all that
stands between them is balanced. -/
inductive Matched : List Token → Nat → Nat → Prop
  | intro {b : Bracket} {opener closer : Token} {front inner back : List Token} (hb : b.isOpen)
    (hopener : opener.kind = .bracket b) (hcloser : closer.kind = .bracket b.closer)
    (hinner : Balanced inner) :
    Matched (front ++ opener :: (inner ++ closer :: back)) front.length
      (front.length + 1 + inner.length)

/-- Some tokens behind the given ones make them balanced. -/
def Completable (ts : List Token) : Prop := ∃ us, Balanced (ts ++ us)

/-- An opening bracket stands at position `i`. -/
def OpensAt (ts : List Token) (i : Nat) : Prop :=
  ∃ t ∈ ts[i]?, ∃ b : Bracket, b.isOpen ∧ t.kind = .bracket b

/-- The brackets that some tokens leave open, innermost first, with their positions.  What stands
between them is balanced. -/
inductive Leaves : List Token → List (Nat × Bracket) → Prop
  | balanced {ts : List Token} (h : Balanced ts) : Leaves ts []
  | opener {b : Bracket} {t : Token} {front ts : List Token} {unclosed : List (Nat × Bracket)}
    (hfront : Leaves front unclosed) (hb : b.isOpen) (ht : t.kind = .bracket b)
    (hts : Balanced ts) : Leaves (front ++ t :: ts) ((front.length, b) :: unclosed)

/-- A closing bracket that does not close the innermost open one. -/
def Unfit (t : Token) (unclosed : List (Nat × Bracket)) : Prop :=
  ∃ b, t.kind = .bracket b ∧ b.isOpen = false ∧ ∀ p ∈ unclosed.head?, p.2.closer ≠ b

theorem Bracket.isOpen_closer (b : Bracket) : b.closer.isOpen = false := by
  cases b <;> rfl

/-! ### Open brackets -/

namespace Leaves

variable {ts front : List Token} {t : Token} {b : Bracket} {i : Nat}
  {unclosed : List (Nat × Bracket)}

theorem append (h : Leaves front unclosed) (hts : Balanced ts) : Leaves (front ++ ts) unclosed := by
  cases h with
  | balanced h => exact .balanced (h.append hts)
  | opener hfront hb ht hinner =>
    rw [List.append_assoc, List.cons_append]
    exact .opener hfront hb ht (hinner.append hts)

/-- A bracket closes the innermost open one. -/
theorem close (h : Leaves front ((i, b) :: unclosed)) (ht : t.kind = .bracket b.closer) :
    Leaves (front ++ [t]) unclosed := by
  cases h with
  | @opener _ u front inner _ hfront hb hu hinner =>
    have hgroup : Balanced (u :: (inner ++ [t])) := .group hb hu ht hinner
    simpa using hfront.append hgroup

theorem completable (h : Leaves front unclosed) : Completable front := by
  induction unclosed generalizing front with
  | nil =>
    cases h with
    | balanced h => exact ⟨[], by simpa using h⟩
  | cons p unclosed ih =>
    obtain ⟨i, b⟩ := p
    have hclosed := h.close (t := { (default : Token) with kind := .bracket b.closer }) rfl
    obtain ⟨us, hus⟩ := ih hclosed
    exact ⟨_, by simpa using hus⟩

end Leaves

/-- What a token is where some brackets are open. -/
theorem bracket_cases (t : Token) (unclosed : List (Nat × Bracket)) :
    (∀ b, t.kind ≠ .bracket b) ∨ (∃ b : Bracket, b.isOpen ∧ t.kind = .bracket b) ∨
      (∃ i b outer, unclosed = (i, b) :: outer ∧ t.kind = .bracket b.closer) ∨
      Unfit t unclosed := by
  by_cases hbracket : ∃ b, t.kind = .bracket b
  · obtain ⟨b, hkind⟩ := hbracket
    cases hb : b.isOpen with
    | true => exact .inr (.inl ⟨b, hb, hkind⟩)
    | false =>
      by_cases hfit : ∃ p ∈ unclosed.head?, p.2.closer = b
      · obtain ⟨⟨i, opener⟩, hhead, rfl⟩ := hfit
        obtain ⟨outer, rfl⟩ := List.head?_eq_some_iff.mp hhead
        exact .inr (.inr (.inl ⟨i, opener, outer, rfl, hkind⟩))
      · exact .inr (.inr (.inr ⟨b, hkind, hb, fun p hp hcloser => hfit ⟨p, hp, hcloser⟩⟩))
  · exact .inl fun b hb => hbracket ⟨b, hb⟩

/-- Tokens leave some brackets open, or one of them closes nothing that is open there. -/
theorem leaves_or_stuck (ts : List Token) :
    (∃ unclosed, Leaves ts unclosed) ∨
      ∃ front t back unclosed, ts = front ++ t :: back ∧ Leaves front unclosed ∧
        Unfit t unclosed := by
  induction ts using List.reverseRecOn with
  | nil => exact .inl ⟨[], .balanced .nil⟩
  | append_singleton ts t ih =>
    rcases ih with ⟨unclosed, hleaves⟩ | ⟨front, u, back, unclosed, rfl, hleaves, hunfit⟩
    · rcases bracket_cases t unclosed with hother | ⟨b, hb, hkind⟩ | ⟨i, b, outer, rfl, hkind⟩ |
        hunfit
      · exact .inl ⟨unclosed, hleaves.append (.single hother)⟩
      · exact .inl ⟨_, hleaves.opener hb hkind .nil⟩
      · exact .inl ⟨outer, hleaves.close hkind⟩
      · exact .inr ⟨ts, t, [], unclosed, rfl, hleaves, hunfit⟩
    · exact .inr ⟨front, u, back ++ [t], unclosed, by simp, hleaves, hunfit⟩

/-! ### Pairing up -/

namespace BracketPair

variable {ts front back : List Token} {t : Token} {unclosed : List (Nat × Bracket)}

theorem pairUp_unfit (h : Unfit t unclosed) (position : Nat) :
    pairUp position unclosed (t :: ts) = .error ⟨.unmatchedBracket, .single position⟩ := by
  obtain ⟨b, hkind, hb, hhead⟩ := h
  cases unclosed with
  | nil => simp [pairUp, hkind, hb]
  | cons p outer =>
    have hcloser : p.2.closer ≠ b := hhead p rfl
    simp [pairUp, hkind, hb, hcloser]

end BracketPair

open BracketPair

/-- Pairing up goes on with the brackets that are open. -/
theorem Leaves.pairUp_append {front : List Token} {unclosed : List (Nat × Bracket)}
    (h : Leaves front unclosed) : ∃ pairs : List BracketPair, ∀ rest,
      pairUp 0 [] (front ++ rest) = (pairUp front.length unclosed rest).map (pairs ++ ·) := by
  induction h with
  | balanced h =>
    obtain ⟨pairs, -, hpairs⟩ := BracketPair.pairUp_append h 0
    exact ⟨pairs, fun rest => by rw [hpairs, Nat.zero_add]⟩
  | @opener b t front ts unclosed _ hb ht hts ih =>
    obtain ⟨outer, houter⟩ := ih
    obtain ⟨inner, -, hinner⟩ := BracketPair.pairUp_append hts (front.length + 1)
    refine ⟨outer ++ inner, fun rest => ?_⟩
    have hlength : (front ++ t :: ts).length = front.length + 1 + ts.length := by
      simp
      omega
    rw [List.append_assoc, List.cons_append, houter, pairUp_opener hb ht, hinner, hlength]
    cases pairUp (front.length + 1 + ts.length) ((front.length, b) :: unclosed) rest <;>
      simp [Except.map]

section Outcomes

variable {ts front back : List Token} {t : Token} {i : Nat} {b : Bracket}
  {unclosed : List (Nat × Bracket)}

theorem pairUp_of_stuck (h : Leaves front unclosed) (ht : Unfit t unclosed) (back : List Token) :
    pairUp 0 [] (front ++ t :: back) = .error ⟨.unmatchedBracket, .single front.length⟩ := by
  obtain ⟨pairs, hpairs⟩ := h.pairUp_append
  rw [hpairs, pairUp_unfit ht]
  rfl

theorem pairUp_of_unclosed (h : Leaves ts ((i, b) :: unclosed)) :
    pairUp 0 [] ts = .error ⟨.missingClosingBracket, .single i⟩ := by
  obtain ⟨pairs, hpairs⟩ := h.pairUp_append
  have hts := hpairs []
  rw [List.append_nil] at hts
  rw [hts]
  rfl

theorem not_completable_of_stuck (h : Leaves front unclosed) (ht : Unfit t unclosed) :
    ¬ Completable (front ++ [t]) := by
  rintro ⟨us, hus⟩
  obtain ⟨pairs, hpairs⟩ := pairUp_of_balanced hus 0
  rw [List.append_assoc, List.singleton_append, pairUp_of_stuck h ht us] at hpairs
  cases hpairs

theorem Completable.of_append (h : Completable (front ++ back)) : Completable front := by
  obtain ⟨us, hus⟩ := h
  exact ⟨back ++ us, by rwa [← List.append_assoc]⟩

/-- Tokens that can be completed leave some brackets open. -/
theorem Completable.leaves (h : Completable ts) : ∃ unclosed, Leaves ts unclosed := by
  rcases leaves_or_stuck ts with hleaves | ⟨front, t, back, unclosed, rfl, hleaves, hunfit⟩
  · exact hleaves
  · rw [← List.singleton_append, ← List.append_assoc] at h
    exact absurd h.of_append (not_completable_of_stuck hleaves hunfit)

/-- Behind balanced tokens nothing can be closed. -/
theorem not_balanced_append_closer {inner : List Token} (hinner : Balanced inner)
    (ht : t.kind = .bracket b.closer) : ¬ Balanced (inner ++ t :: back) := by
  intro hbalanced
  have hunfit : Unfit t [] := ⟨_, ht, b.isOpen_closer, nofun⟩
  refine not_completable_of_stuck (.balanced hinner) hunfit ⟨back, ?_⟩
  rwa [List.append_assoc, List.singleton_append]

end Outcomes

/-! ### Matched positions -/

namespace Matched

variable {ts : List Token} {i j k : Nat}

theorem exists_parts (h : Matched ts i j) : ∃ front opener inner closer back, ∃ b : Bracket,
    ts = front ++ opener :: (inner ++ closer :: back) ∧ i = front.length ∧
      j = front.length + 1 + inner.length ∧ b.isOpen ∧ opener.kind = .bracket b ∧
      closer.kind = .bracket b.closer ∧ Balanced inner := by
  cases h with
  | intro hb hopener hcloser hinner =>
    exact ⟨_, _, _, _, _, _, rfl, rfl, rfl, hb, hopener, hcloser, hinner⟩

/-- Matched brackets stay matched among more tokens. -/
theorem among (h : Matched ts i j) (front back : List Token) :
    Matched (front ++ ts ++ back) (front.length + i) (front.length + j) := by
  obtain ⟨front', opener, inner, closer, back', b, rfl, rfl, rfl, hb, hopener, hcloser, hinner⟩ :=
    h.exists_parts
  have hmatched : Matched ((front ++ front') ++ opener :: (inner ++ closer :: (back' ++ back)))
      (front ++ front').length ((front ++ front').length + 1 + inner.length) :=
    .intro hb hopener hcloser hinner
  simpa [Nat.add_assoc] using hmatched

theorem opensAt (h : Matched ts i j) : OpensAt ts i := by
  obtain ⟨front, opener, inner, closer, back, b, rfl, rfl, -, hb, hopener, -, -⟩ := h.exists_parts
  exact ⟨opener, by simp, b, hb, hopener⟩

theorem not_opensAt (h : Matched ts i j) : ¬ OpensAt ts j := by
  obtain ⟨front, opener, inner, closer, back, b, rfl, -, rfl, -, -, hcloser, -⟩ := h.exists_parts
  rintro ⟨t, ht, b', hb', hkind⟩
  have hat : (front ++ opener :: (inner ++ closer :: back))[front.length + 1 + inner.length]? =
      some closer := by
    rw [List.getElem?_append_right (by omega), Nat.add_assoc, Nat.add_sub_cancel_left,
      Nat.add_comm 1, List.getElem?_cons_succ, List.getElem?_append_right (Nat.le_refl _),
      Nat.sub_self]
    rfl
  obtain rfl : closer = t := Option.some.inj (hat.symm.trans ht)
  obtain rfl : b.closer = b' := Token.Kind.bracket.inj (hcloser.symm.trans hkind)
  rw [b.isOpen_closer] at hb'
  cases hb'

theorem lt_length (h : Matched ts i j) : j < ts.length := by
  obtain ⟨front, opener, inner, closer, back, b, rfl, -, rfl, -⟩ := h.exists_parts
  simp
  omega

/-- One bracket closes another one at most. -/
theorem closer_unique (h : Matched ts i j) (h' : Matched ts i k) : j = k := by
  obtain ⟨front, opener, inner, closer, back, b, rfl, rfl, rfl, -, -, hcloser, hinner⟩ :=
    h.exists_parts
  obtain ⟨front', opener', inner', closer', back', b', hts, hlength, rfl, -, -, hcloser',
    hinner'⟩ := h'.exists_parts
  obtain ⟨rfl, hrest⟩ := List.append_inj hts hlength
  obtain ⟨-, hrest⟩ := List.cons.inj hrest
  -- if one of the inner parts were longer it would hold the closer of the other one
  rcases List.append_eq_append_iff.mp hrest with ⟨more, rfl, hmore⟩ | ⟨more, rfl, hmore⟩
  · cases more with
    | nil => simp
    | cons t more =>
      obtain ⟨rfl, -⟩ := List.cons.inj hmore
      exact absurd hinner' (not_balanced_append_closer hinner hcloser)
  · cases more with
    | nil => simp
    | cons t more =>
      obtain ⟨rfl, -⟩ := List.cons.inj hmore
      exact absurd hinner (not_balanced_append_closer hinner' hcloser')

/-- Before the bracket that closes it, an opening bracket is the innermost one that is open. -/
theorem pairUp_take (hts : Completable ts) (h : Matched ts i j) :
    pairUp 0 [] (ts.take j) = .error ⟨.missingClosingBracket, .single i⟩ := by
  obtain ⟨front, opener, inner, closer, back, b, rfl, rfl, rfl, hb, hopener, -, hinner⟩ :=
    h.exists_parts
  obtain ⟨unclosed, hleaves⟩ := hts.of_append.leaves
  have htake : (front ++ opener :: (inner ++ closer :: back)).take
      (front.length + 1 + inner.length) = front ++ opener :: inner := by
    rw [List.take_append, List.take_of_length_le (by omega), Nat.add_assoc,
      Nat.add_sub_cancel_left, Nat.add_comm 1, List.take_succ_cons, List.take_left]
  rw [htake]
  exact pairUp_of_unclosed (hleaves.opener hb hopener hinner)

theorem opener_unique (hts : Completable ts) (h : Matched ts i k) (h' : Matched ts j k) :
    i = j := by
  have heq := (h.pairUp_take hts).symm.trans (h'.pairUp_take hts)
  simpa [Span.single] using heq

end Matched

/-- Every opening bracket among balanced tokens is closed. -/
theorem Balanced.matched_of_opensAt {ts : List Token} (h : Balanced ts) {i : Nat}
    (hi : OpensAt ts i) : ∃ j, Matched ts i j := by
  induction h generalizing i with
  | nil =>
    obtain ⟨t, ht, -⟩ := hi
    cases ht
  | @single t hother =>
    obtain ⟨u, hu, b, -, hkind⟩ := hi
    have hmem := List.mem_of_getElem? hu
    rw [List.mem_singleton] at hmem
    exact absurd (hmem ▸ hkind) (hother b)
  | @append ts us _ _ ihts ihus =>
    obtain ⟨t, ht, hopens⟩ := hi
    by_cases hlt : i < ts.length
    · rw [List.getElem?_append_left hlt] at ht
      obtain ⟨j, hj⟩ := ihts ⟨t, ht, hopens⟩
      have hmatched := hj.among [] us
      simp only [List.nil_append, List.length_nil, Nat.zero_add] at hmatched
      exact ⟨j, hmatched⟩
    · rw [List.getElem?_append_right (by omega)] at ht
      obtain ⟨j, hj⟩ := ihus ⟨t, ht, hopens⟩
      have hmatched := hj.among ts []
      rw [List.append_nil, Nat.add_sub_cancel' (by omega)] at hmatched
      exact ⟨_, hmatched⟩
  | @group b opener closer inner hb hopener hcloser hinner ih =>
    obtain ⟨t, ht, b', hb', hkind⟩ := hi
    cases i with
    | zero =>
      have hmatched : Matched ([] ++ opener :: (inner ++ closer :: [])) _ _ :=
        .intro hb hopener hcloser hinner
      exact ⟨_, hmatched⟩
    | succ i =>
      rw [List.getElem?_cons_succ] at ht
      by_cases hlt : i < inner.length
      · rw [List.getElem?_append_left hlt] at ht
        obtain ⟨j, hj⟩ := ih ⟨t, ht, b', hb', hkind⟩
        have hmatched := hj.among [opener] [closer]
        rw [List.length_singleton, Nat.add_comm] at hmatched
        exact ⟨_, hmatched⟩
      · rw [List.getElem?_append_right (by omega)] at ht
        have hmem := List.mem_of_getElem? ht
        rw [List.mem_singleton] at hmem
        subst hmem
        obtain rfl : b.closer = b' := Token.Kind.bracket.inj (hcloser.symm.trans hkind)
        rw [b.isOpen_closer] at hb'
        cases hb'

namespace BracketPair

variable {ts : List Token} {pairs : List BracketPair}

/-- The pairs that are found are matched. -/
theorem matched_of_mem_pairUp {front : List Token} {unclosed : List (Nat × Bracket)}
    (hfront : Leaves front unclosed) (h : pairUp front.length unclosed ts = .ok pairs)
    {p : BracketPair} (hp : p ∈ pairs) : Matched (front ++ ts) p.opener p.closer := by
  induction ts generalizing front unclosed pairs with
  | nil =>
    cases unclosed with
    | nil =>
      cases h
      cases hp
    | cons q outer => cases h
  | cons t rest ih =>
    have hsnoc : front ++ t :: rest = (front ++ [t]) ++ rest := by simp
    have hlength : front.length + 1 = (front ++ [t]).length := by simp
    rcases bracket_cases t unclosed with hother | ⟨b, hb, hkind⟩ | ⟨i, b, outer, rfl, hkind⟩ |
      hunfit
    · rw [pairUp_other hother, hlength] at h
      rw [hsnoc]
      exact ih (hfront.append (.single hother)) h hp
    · rw [pairUp_opener hb hkind, hlength] at h
      rw [hsnoc]
      exact ih (hfront.opener hb hkind .nil) h hp
    · rw [pairUp_closer hkind, hlength] at h
      obtain ⟨pairs', hpairs, rfl⟩ := map_eq_ok.mp h
      rcases List.mem_cons.mp hp with rfl | hp
      · cases hfront with
        | @opener _ u front inner _ hfront hb hu hinner =>
          have hmatched : Matched (front ++ u :: (inner ++ t :: rest)) front.length
              (front.length + 1 + inner.length) := .intro hb hu hkind hinner
          have hlast : (front ++ u :: inner).length = front.length + 1 + inner.length := by
            simp
            omega
          rw [List.append_assoc, List.cons_append]
          dsimp only
          rw [hlast]
          exact hmatched
      · rw [hsnoc]
        exact ih (hfront.close hkind) hpairs hp
    · rw [pairUp_unfit hunfit] at h
      cases h

/-- Matched brackets are found. -/
theorem mem_pairUp_of_matched (h : pairUp 0 [] ts = .ok pairs) {i j : Nat} (hij : Matched ts i j)
    (hts : Completable ts) : ⟨i, j⟩ ∈ pairs := by
  obtain ⟨front, opener, inner, closer, back, b, rfl, rfl, rfl, hb, hopener, hcloser, hinner⟩ :=
    hij.exists_parts
  obtain ⟨unclosed, hleaves⟩ := hts.of_append.leaves
  obtain ⟨before, hbefore⟩ := hleaves.pairUp_append
  obtain ⟨within, -, hwithin⟩ := pairUp_append hinner (front.length + 1)
  rw [hbefore, pairUp_opener hb hopener, hwithin, pairUp_closer hcloser] at h
  cases hback : pairUp (front.length + 1 + inner.length + 1) unclosed back with
  | error e =>
    rw [hback] at h
    cases h
  | ok behind =>
    rw [hback] at h
    cases h
    simp

/-- Positions are partners exactly if they are matched. -/
theorem partner?_eq_some_iff (hts : Balanced ts) (h : pairUp 0 [] ts = .ok pairs) {i j : Nat} :
    partner? pairs i = some j ↔ Matched ts i j ∨ Matched ts j i := by
  have hcompletable : Completable ts := ⟨[], by simpa using hts⟩
  have hsound : ∀ {j}, partner? pairs i = some j → Matched ts i j ∨ Matched ts j i := by
    intro j hj
    obtain ⟨p, hp, hpartner⟩ := List.exists_of_findSome?_eq_some hj
    have hmatched := matched_of_mem_pairUp (.balanced .nil) h hp
    split_ifs at hpartner with hopener hcloser
    · obtain rfl := Option.some.inj hpartner
      exact .inl (hopener ▸ hmatched)
    · obtain rfl := Option.some.inj hpartner
      exact .inr (hcloser ▸ hmatched)
  refine ⟨hsound, fun hij => ?_⟩
  -- some pair holds the position, and no other position can be matched with it
  have hsome : (partner? pairs i).isSome := by
    refine List.findSome?_isSome_iff.mpr ?_
    rcases hij with hij | hji
    · exact ⟨_, mem_pairUp_of_matched h hij hcompletable, by simp⟩
    · refine ⟨_, mem_pairUp_of_matched h hji hcompletable, ?_⟩
      rw [if_pos rfl]
      split_ifs <;> rfl
  obtain ⟨k, hk⟩ := Option.isSome_iff_exists.mp hsome
  rw [hk]
  congr 1
  rcases hsound hk, hij with ⟨hik | hki, hij | hji⟩
  · exact hik.closer_unique hij
  · exact absurd hik.opensAt hji.not_opensAt
  · exact absurd hij.opensAt hki.not_opensAt
  · exact hki.opener_unique hcompletable hji

end BracketPair

/-! ### What is refused -/

/-- What is wrong with tokens, and where: the first unknown token; if there is none, the first token
behind which nothing can make up for what is wrong; if there is none either, the last opening
bracket that nothing closes. -/
inductive Defect (ts : List Token) : SyntaxError → Prop
  | unknown {i : Nat} (hi : IsLeast {i | ∃ t ∈ ts[i]?, t.kind = .unknown} i) :
    Defect ts ⟨.unknownToken, .single i⟩
  | unmatched {i : Nat} (hknown : ∀ t ∈ ts, t.kind ≠ .unknown)
    (hi : IsLeast {i | i < ts.length ∧ ¬ Completable (ts.take (i + 1))} i) :
    Defect ts ⟨.unmatchedBracket, .single i⟩
  | unclosed {i : Nat} (hknown : ∀ t ∈ ts, t.kind ≠ .unknown)
    (hcompletable : ∀ i < ts.length, Completable (ts.take (i + 1)))
    (hi : IsGreatest {i | OpensAt ts i ∧ ∀ j, ¬ Matched ts i j} i) :
    Defect ts ⟨.missingClosingBracket, .single i⟩

section Defects

variable {ts front : List Token} {t : Token} {i : Nat} {b : Bracket}
  {unclosed : List (Nat × Bracket)}

theorem Completable.take (h : Completable ts) (n : Nat) : Completable (ts.take n) := by
  rw [← List.take_append_drop n ts] at h
  exact h.of_append

theorem isLeast_of_stuck (h : Leaves front unclosed) (ht : Unfit t unclosed) (back : List Token) :
    IsLeast {i | i < (front ++ t :: back).length ∧
      ¬ Completable ((front ++ t :: back).take (i + 1))} front.length := by
  refine ⟨⟨by simp, ?_⟩, ?_⟩
  · have htake : (front ++ t :: back).take (front.length + 1) = front ++ [t] := by
      rw [List.take_append, List.take_of_length_le (by omega), Nat.add_sub_cancel_left]
      rfl
    rw [htake]
    exact not_completable_of_stuck h ht
  · rintro i ⟨-, hi⟩
    by_contra hlt
    have htake : (front ++ t :: back).take (i + 1) = front.take (i + 1) :=
      List.take_append_of_le_length (by omega)
    exact hi (htake ▸ h.completable.take (i + 1))

theorem isGreatest_of_unclosed (h : Leaves ts ((i, b) :: unclosed)) :
    IsGreatest {i | OpensAt ts i ∧ ∀ j, ¬ Matched ts i j} i := by
  cases h with
  | @opener _ u front inner _ hfront hb hu hinner =>
    refine ⟨⟨⟨u, by simp, b, hb, hu⟩, fun j hj => ?_⟩, ?_⟩
    · obtain ⟨front', opener, inner', closer, back, b', hts, hlength, -, -, -, hcloser, hinner'⟩ :=
        hj.exists_parts
      obtain ⟨-, hrest⟩ := List.append_inj hts hlength
      obtain ⟨-, rfl⟩ := List.cons.inj hrest
      exact not_balanced_append_closer hinner' hcloser hinner
    · rintro k ⟨⟨t, ht, hopens⟩, hunmatched⟩
      by_contra hlt
      -- behind the bracket all is balanced, so an opening one there is closed
      obtain ⟨n, rfl⟩ : ∃ n, k = front.length + 1 + n := ⟨k - (front.length + 1), by omega⟩
      rw [List.getElem?_append_right (by omega), Nat.add_assoc, Nat.add_sub_cancel_left,
        Nat.add_comm 1, List.getElem?_cons_succ] at ht
      obtain ⟨j, hj⟩ := hinner.matched_of_opensAt ⟨t, ht, hopens⟩
      have hmatched := hj.among (front ++ [u]) []
      refine hunmatched ((front ++ [u]).length + j) ?_
      simpa using hmatched

end Defects

namespace BracketPair

variable {ts : List Token} {pairs : List BracketPair}

theorem ofTokens_of_unknown (h : ∃ t ∈ ts, t.kind = .unknown) :
    ∃ i, IsLeast {i | ∃ t ∈ ts[i]?, t.kind = .unknown} i ∧
      ofTokens ts = .error ⟨.unknownToken, .single i⟩ := by
  cases hfind : ts.findIdx? (·.kind = .unknown) with
  | none =>
    obtain ⟨t, ht, hkind⟩ := h
    exact absurd hkind (by simpa using List.findIdx?_eq_none_iff.mp hfind t ht)
  | some i =>
    obtain ⟨hi, hunknown, hbefore⟩ := List.findIdx?_eq_some_iff_getElem.mp hfind
    refine ⟨i, ⟨⟨ts[i], List.getElem?_eq_getElem hi, by simpa using hunknown⟩, ?_⟩, ?_⟩
    · rintro k ⟨t, ht, hkind⟩
      by_contra hlt
      obtain ⟨hk, rfl⟩ := List.getElem?_eq_some_iff.mp ht
      exact hbefore k (by omega) (by simpa using hkind)
    · rw [ofTokens, hfind]

theorem balanced_of_pairUp (h : pairUp 0 [] ts = .ok pairs) : Balanced ts := by
  rcases leaves_or_stuck ts with ⟨unclosed, hleaves⟩ | ⟨front, t, back, unclosed, rfl, hleaves,
    hunfit⟩
  · cases unclosed with
    | nil =>
      cases hleaves with
      | balanced hbalanced => exact hbalanced
    | cons p outer =>
      rw [pairUp_of_unclosed hleaves] at h
      cases h
  · rw [pairUp_of_stuck hleaves hunfit] at h
    cases h

theorem checked_of_ofTokens (h : ofTokens ts = .ok pairs) : Checked ts := by
  have hknown : ∀ t ∈ ts, t.kind ≠ .unknown := by
    intro t ht hkind
    obtain ⟨i, -, hrefused⟩ := ofTokens_of_unknown ⟨t, ht, hkind⟩
    rw [hrefused] at h
    cases h
  rw [ofTokens_of_known hknown] at h
  exact ⟨balanced_of_pairUp h, hknown⟩

theorem partner?_iff_matched (h : ofTokens ts = .ok pairs) {i j : Nat} :
    partner? pairs i = some j ↔ Matched ts i j ∨ Matched ts j i := by
  have hchecked := checked_of_ofTokens h
  rw [ofTokens_of_known hchecked.known] at h
  exact partner?_eq_some_iff hchecked.balanced h

theorem defect_of_ofTokens {e : SyntaxError} (h : ofTokens ts = .error e) : Defect ts e := by
  by_cases hunknown : ∃ t ∈ ts, t.kind = .unknown
  · obtain ⟨i, hi, hrefused⟩ := ofTokens_of_unknown hunknown
    obtain rfl := Except.error.inj (hrefused.symm.trans h)
    exact .unknown hi
  · have hknown : ∀ t ∈ ts, t.kind ≠ .unknown := fun t ht hkind => hunknown ⟨t, ht, hkind⟩
    rw [ofTokens_of_known hknown] at h
    rcases leaves_or_stuck ts with ⟨unclosed, hleaves⟩ | ⟨front, t, back, unclosed, rfl, hleaves,
      hunfit⟩
    · cases unclosed with
      | nil =>
        cases hleaves with
        | balanced hbalanced =>
          obtain ⟨pairs, hpairs⟩ := pairUp_of_balanced hbalanced 0
          rw [hpairs] at h
          cases h
      | cons p outer =>
        obtain rfl := Except.error.inj ((pairUp_of_unclosed hleaves).symm.trans h)
        exact .unclosed hknown (fun i _ => hleaves.completable.take (i + 1))
          (isGreatest_of_unclosed hleaves)
    · obtain rfl := Except.error.inj ((pairUp_of_stuck hleaves hunfit back).symm.trans h)
      exact .unmatched hknown (isLeast_of_stuck hleaves hunfit back)

/-- The check accepts tokens exactly if all of them are known and their brackets are balanced.  Then
positions are partners exactly if they hold an opening bracket and the one that closes it.  All
other tokens are refused for what is wrong first. -/
theorem checks_balance (ts : List Token) :
    ((∃ pairs, ofTokens ts = .ok pairs) ↔ Checked ts) ∧
    (∀ pairs, ofTokens ts = .ok pairs → ∀ i j,
      partner? pairs i = some j ↔ Matched ts i j ∨ Matched ts j i) ∧
    ∀ e, ofTokens ts = .error e → Defect ts e :=
  ⟨⟨fun ⟨_, h⟩ => checked_of_ofTokens h, ofTokens_of_checked⟩,
    fun _ h _ _ => partner?_iff_matched h, fun _ h => defect_of_ofTokens h⟩

end BracketPair

end VectorScript
