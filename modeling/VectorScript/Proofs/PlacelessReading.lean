import Mathlib.Data.List.Forall2
import VectorScript.Proofs.ParserForms

/-!
# Reading does not look at places

What is read from tokens depends on their kinds and texts only: no tree, no error and no span
changes when the tokens stand elsewhere.  The functions that read expressions are treated together
for each number of tokens, the tightest level first.

* `SameWords`: tokens that differ in their places only.
* `Alike`: two readings that differ in the places of what they leave.
* `Expr.AlikeAt`: how so many tokens are read, wherever they stand.
* `Statement.readKind_congr`, `Expr.ofTokens_congr`: what is read is the same.
-/

namespace VectorScript

/-- Tokens that differ in their places only. -/
abbrev SameWords : List Token → List Token → Prop :=
  List.Forall₂ fun t u => u.kind = t.kind ∧ u.text = t.text

/-- Both readings fail for one reason, or both give one value and leave the same words. -/
inductive Alike {α : Type} {n m : Nat} :
    Except SyntaxError (Reading α n) → Except SyntaxError (Reading α m) → Prop where
  | error (e : SyntaxError) : Alike (.error e) (.error e)
  | ok {value : α} {rest rest' : List Token} {hn : rest.length < n} {hm : rest'.length < m}
      (hrest : SameWords rest rest') : Alike (.ok ⟨value, rest, hn⟩) (.ok ⟨value, rest', hm⟩)

namespace Alike

variable {α β : Type} {n m k l : Nat}

theorem bind {x : Except SyntaxError (Reading β k)} {y : Except SyntaxError (Reading β l)}
    {f : Reading β k → Except SyntaxError (Reading α n)}
    {g : Reading β l → Except SyntaxError (Reading α m)} (h : Alike x y)
    (hf : ∀ value rest rest' hk hl, SameWords rest rest' →
      Alike (f ⟨value, rest, hk⟩) (g ⟨value, rest', hl⟩)) :
    Alike (x >>= f) (y >>= g) := by
  cases h with
  | error e => exact .error e
  | ok hrest => exact hf _ _ _ _ _ hrest

/-- A step that reads nothing. -/
theorem step {x : Except SyntaxError β} {f : β → Except SyntaxError (Reading α n)}
    {g : β → Except SyntaxError (Reading α m)} (h : ∀ b, Alike (f b) (g b)) :
    Alike (x >>= f) (x >>= g) := by
  cases x with
  | error e => exact .error e
  | ok b => exact h b

end Alike

namespace Expr

/-- How `n` tokens are read, wherever they stand. -/
structure AlikeAt (n : Nat) : Prop where
  read : ∀ total inArray {ts us}, SameWords ts us → ts.length = n →
    Alike (read total inArray ts) (read total inArray us)
  readClauses : ∀ total inArray body {ts us}, SameWords ts us → ts.length = n →
    Alike (readClauses total inArray body ts) (readClauses total inArray body us)
  readRange : ∀ total inArray {ts us}, SameWords ts us → ts.length = n →
    Alike (readRange total inArray ts) (readRange total inArray us)
  readConditional : ∀ total {ts us}, SameWords ts us → ts.length = n →
    Alike (readConditional total ts) (readConditional total us)
  readBinary : ∀ total least {ts us}, SameWords ts us → ts.length = n →
    Alike (readBinary total least ts) (readBinary total least us)
  readOperators : ∀ total least left {ts us}, SameWords ts us → ts.length = n →
    Alike (readOperators total least left ts) (readOperators total least left us)
  readSelectors : ∀ total target {ts us}, SameWords ts us → ts.length = n →
    Alike (readSelectors total target ts) (readSelectors total target us)
  readDotted : ∀ total dot {ts us}, SameWords ts us → ts.length = n →
    Alike (readDotted total dot ts) (readDotted total dot us)
  readList : ∀ total inArray closer {ts us}, SameWords ts us → ts.length = n →
    Alike (readList total inArray closer ts) (readList total inArray closer us)
  readItems : ∀ total inArray closer {ts us}, SameWords ts us → ts.length = n →
    Alike (readItems total inArray closer ts) (readItems total inArray closer us)

section

variable {n total : Nat} {inArray : Bool} {ts us : List Token}

theorem unexpected_congr (h : SameWords ts us) : unexpected total us = unexpected total ts := by
  cases h with
  | nil => rfl
  | cons ht hrest => simp only [unexpected, ht.1, ← hrest.length_eq]

theorem any_kind_congr (h : SameWords ts us) (kind : Token.Kind) :
    us.head?.any (·.kind = kind) = ts.head?.any (·.kind = kind) := by
  cases h with
  | nil => rfl
  | cons ht hrest => simp only [List.head?_cons, Option.any_some, ht.1]

theorem readBinder_alike {start : Nat} (h : SameWords ts us) :
    Alike (readBinder start ts) (readBinder start us) := by
  cases h with
  | nil => exact .error _
  | cons ht hrest =>
    cases hrest with
    | nil =>
      simp only [readBinder, ht.1]
      split_ifs <;> exact .error _
    | cons hu hrest =>
      simp only [readBinder, ht.1, ht.2, hu.1]
      split_ifs
      · exact .error _
      · exact .error _
      · exact .ok hrest

theorem readOperand_alike (ih : ∀ k < n, AlikeAt k) (h : SameWords ts us) (hn : ts.length = n) :
    Alike (readOperand total ts) (readOperand total us) := by
  subst hn
  rw [readOperand.eq_def, readOperand.eq_def total us]
  cases h with
  | nil => exact .error _
  | @cons t u rest rest' ht hrest =>
    simp only [ht.1, ht.2, ← hrest.length_eq]
    split
    · split
      · exact .ok hrest
      · exact .error _
    · cases hrest with
      | nil => exact .ok .nil
      | @cons p q rest rest' hp hrest =>
        simp only [hp.1, List.length_cons]
        split_ifs
        · refine .bind ((ih rest.length (by simp only [List.length_cons]; omega)).readList
            _ _ _ hrest rfl) fun args left left' _ _ hleft => ?_
          simp only [← hleft.length_eq]
          exact .ok hleft
        · exact .ok (.cons hp hrest)
    · refine .bind ((ih rest.length (by simp)).readList _ _ _ hrest rfl)
        fun items left left' _ _ hleft => ?_
      simp only [← hleft.length_eq]
      exact .step fun value => .ok hleft
    · refine .bind ((ih rest.length (by simp)).readList _ _ _ hrest rfl)
        fun items left left' _ _ hleft => ?_
      simp only [← hleft.length_eq]
      split_ifs
      · exact .error _
      · exact .ok hleft
    · exact .error _
    · exact .error _

theorem readOperators_alike (ih : ∀ k < n, AlikeAt k) {least : Nat} {left : Expr}
    (h : SameWords ts us) (hn : ts.length = n) :
    Alike (readOperators total least left ts) (readOperators total least left us) := by
  subst hn
  rw [readOperators.eq_def, readOperators.eq_def total least left us]
  cases h with
  | nil => exact .ok .nil
  | @cons t u rest rest' ht hrest =>
    simp only [ht.1]
    split
    · exact .ok (.cons ht hrest)
    · split_ifs
      · exact .ok (.cons ht hrest)
      · refine .bind ((ih rest.length (by simp)).readBinary _ _ hrest rfl)
          fun right after after' hshort _ hafter => ?_
        refine .bind ((ih after.length (by simp only [List.length_cons]; omega)).readOperators
          _ _ _ hafter rfl) fun whole left left' _ _ hleft => .ok hleft

theorem readSelectors_alike (ih : ∀ k < n, AlikeAt k) {target : Expr} (h : SameWords ts us)
    (hn : ts.length = n) :
    Alike (readSelectors total target ts) (readSelectors total target us) := by
  subst hn
  rw [readSelectors.eq_def, readSelectors.eq_def total target us]
  cases h with
  | nil => exact .ok .nil
  | @cons t u rest rest' ht hrest =>
    simp only [ht.1, ← hrest.length_eq, any_kind_congr hrest]
    split
    · refine .step fun _ => ?_
      split_ifs
      · exact .error _
      · refine .bind ((ih rest.length (by simp)).read _ _ hrest rfl)
          fun index after after' hshort _ hafter => ?_
        cases hafter with
        | nil => exact .error _
        | @cons c d after after' hc hafter =>
          simp only [hc.1, ← hafter.length_eq]
          split_ifs
          · rw [unexpected_congr (.cons hc hafter)]
            exact .error _
          · refine .step fun chosen => ?_
            simp only [List.length_cons] at hshort
            refine .bind ((ih after.length (by simp only [List.length_cons]; omega)).readSelectors
              _ _ hafter rfl) fun whole left left' _ _ hleft => .ok hleft
    · refine .step fun _ => .bind ((ih rest.length (by simp)).readDotted _ _ hrest rfl)
          fun index after after' hshort _ hafter => .step fun chosen => ?_
      exact .bind ((ih after.length (by simp only [List.length_cons]; omega)).readSelectors
        _ _ hafter rfl) fun whole left left' _ _ hleft => .ok hleft
    · exact .bind ((ih rest.length (by simp)).readSelectors _ _ hrest rfl)
        fun whole left left' _ _ hleft => .ok hleft
    · exact .error _
    · exact .ok (.cons ht hrest)

theorem readDotted_alike (ih : ∀ k < n, AlikeAt k) {dot : Nat} (h : SameWords ts us)
    (hn : ts.length = n) : Alike (readDotted total dot ts) (readDotted total dot us) := by
  rw [readDotted.eq_def, readDotted.eq_def total dot us]
  cases h with
  | nil => exact .error _
  | @cons t u rest rest' ht hrest =>
    simp only [ht.1, ht.2, ← hrest.length_eq]
    split
    · exact .ok hrest
    · exact .error _
    · exact readOperand_alike ih (.cons ht hrest) hn
    · exact .error _

theorem readSelection_alike (ih : ∀ k < n, AlikeAt k) (h : SameWords ts us) (hn : ts.length = n) :
    Alike (readSelection total ts) (readSelection total us) := by
  subst hn
  rw [readSelection.eq_def, readSelection.eq_def total us]
  refine .bind (readOperand_alike ih h rfl) fun target after after' hshort _ hafter => ?_
  exact .bind ((ih after.length hshort).readSelectors _ _ hafter rfl)
    fun whole left left' _ _ hleft => .ok hleft

theorem readUnary_alike (ih : ∀ k < n, AlikeAt k) (h : SameWords ts us) (hn : ts.length = n) :
    Alike (readUnary total ts) (readUnary total us) := by
  subst hn
  rw [readUnary.eq_def, readUnary.eq_def total us]
  cases h with
  | nil => exact .error _
  | @cons t u rest rest' ht hrest =>
    simp only [ht.1, ← hrest.length_eq]
    split
    · exact readSelection_alike ih (.cons ht hrest) rfl
    · exact .bind ((ih rest.length (by simp)).readBinary _ _ hrest rfl)
        fun operand left left' _ _ hleft => .ok hleft

theorem readBinary_alike (ih : ∀ k < n, AlikeAt k) {least : Nat} (h : SameWords ts us)
    (hn : ts.length = n) : Alike (readBinary total least ts) (readBinary total least us) := by
  subst hn
  rw [readBinary.eq_def, readBinary.eq_def total least us]
  refine .bind (readUnary_alike ih h rfl) fun first after after' hshort _ hafter => ?_
  exact .bind ((ih after.length hshort).readOperators _ _ _ hafter rfl)
    fun whole left left' _ _ hleft => .ok hleft

theorem readConditional_alike (ih : ∀ k < n, AlikeAt k) (h : SameWords ts us)
    (hn : ts.length = n) : Alike (readConditional total ts) (readConditional total us) := by
  subst hn
  rw [readConditional.eq_def, readConditional.eq_def total us]
  refine .bind (readBinary_alike ih h rfl) fun consequent after after' hshort _ hafter => ?_
  cases hafter with
  | nil => exact .ok .nil
  | @cons t u after after' ht hafter =>
    simp only [ht.1, ← hafter.length_eq]
    split_ifs
    · rw [List.length_cons] at hshort
      refine .bind ((ih after.length (by omega)).readBinary _ _ hafter rfl)
        fun condition behind behind' hshort' _ hbehind => ?_
      cases hbehind with
      | nil => exact .error _
      | @cons t' u' behind behind' ht' hbehind =>
        simp only [ht'.1]
        split_ifs
        · rw [List.length_cons] at hshort'
          exact .bind ((ih behind.length (by omega)).readConditional _ hbehind rfl)
            fun alternative left left' _ _ hleft => .ok hleft
        · exact .error _
    · exact .ok (.cons ht hafter)

theorem readRange_alike (ih : ∀ k < n, AlikeAt k) (h : SameWords ts us) (hn : ts.length = n) :
    Alike (readRange total inArray ts) (readRange total inArray us) := by
  subst hn
  rw [readRange.eq_def, readRange.eq_def total inArray us]
  refine .bind (readConditional_alike ih h rfl) fun lower after after' hshort _ hafter => ?_
  cases hafter with
  | nil => exact .ok .nil
  | @cons t u after after' ht hafter =>
    simp only [ht.1, ← hafter.length_eq]
    split_ifs
    · exact .error _
    · rw [List.length_cons] at hshort
      refine .bind ((ih after.length (by omega)).readConditional _ hafter rfl)
        fun upper left left' _ _ hleft => ?_
      simp only [any_kind_congr hleft, ← hleft.length_eq]
      split_ifs
      · exact .error _
      · exact .ok hleft
    · exact .ok (.cons ht hafter)

theorem readClauses_alike (ih : ∀ k < n, AlikeAt k) {body : Expr} (h : SameWords ts us)
    (hn : ts.length = n) :
    Alike (readClauses total inArray body ts) (readClauses total inArray body us) := by
  subst hn
  rw [readClauses.eq_def, readClauses.eq_def total inArray body us]
  cases h with
  | nil => exact .ok .nil
  | @cons t u rest rest' ht hrest =>
    simp only [ht.1, ← hrest.length_eq]
    split_ifs
    · exact .error _
    · refine .bind (readBinder_alike hrest) fun binder after after' hshort _ hafter => ?_
      refine .bind ((ih after.length (by simp only [List.length_cons]; omega)).readRange
        _ _ hafter rfl) fun source behind behind' hshort' _ hbehind => ?_
      cases hbehind with
      | nil => exact .ok .nil
      | @cons w x behind behind' hw hbehind =>
        simp only [hw.1, List.length_cons, ← hbehind.length_eq]
        have hshort'' : behind.length + 1 < after.length := hshort'
        split_ifs
        · refine .bind ((ih behind.length (by simp only [List.length_cons]; omega)).readConditional
            _ hbehind rfl) fun condition last last' hlast' _ hlast => ?_
          simp only [← hlast.length_eq]
          exact .bind ((ih last.length (by simp only [List.length_cons]; omega)).readClauses
            _ _ _ hlast rfl) fun whole left left' _ _ hleft => .ok hleft
        · exact .bind ((ih (behind.length + 1) (by simp only [List.length_cons]; omega)).readClauses
            _ _ _ (.cons hw hbehind) rfl) fun whole left left' _ _ hleft => .ok hleft
    · exact .ok (.cons ht hrest)

theorem read_alike (ih : ∀ k < n, AlikeAt k) (h : SameWords ts us) (hn : ts.length = n) :
    Alike (read total inArray ts) (read total inArray us) := by
  subst hn
  rw [read.eq_def, read.eq_def total inArray us]
  refine .bind (readRange_alike ih h rfl) fun body after after' hshort _ hafter => ?_
  exact .bind ((ih after.length hshort).readClauses _ _ _ hafter rfl)
    fun whole left left' _ _ hleft => .ok hleft

theorem readItems_alike (ih : ∀ k < n, AlikeAt k) {closer : Bracket} (h : SameWords ts us)
    (hn : ts.length = n) :
    Alike (readItems total inArray closer ts) (readItems total inArray closer us) := by
  subst hn
  rw [readItems.eq_def, readItems.eq_def total inArray closer us]
  refine .bind (read_alike ih h rfl) fun item after after' hshort _ hafter => ?_
  cases hafter with
  | nil => exact .error _
  | @cons t u after after' ht hafter =>
    simp only [ht.1]
    split_ifs
    · rw [List.length_cons] at hshort
      exact .bind ((ih after.length (by omega)).readItems _ _ _ hafter rfl)
        fun items left left' _ _ hleft => .ok hleft
    · exact .ok hafter
    · rw [unexpected_congr (.cons ht hafter)]
      exact .error _

theorem readList_alike (ih : ∀ k < n, AlikeAt k) {closer : Bracket} (h : SameWords ts us)
    (hn : ts.length = n) :
    Alike (readList total inArray closer ts) (readList total inArray closer us) := by
  rw [readList.eq_def, readList.eq_def total inArray closer us]
  cases h with
  | nil => exact readItems_alike ih .nil hn
  | @cons t u rest rest' ht hrest =>
    simp only [ht.1]
    split_ifs
    · exact .ok hrest
    · exact readItems_alike ih (.cons ht hrest) hn

end

/-- Tokens are read alike wherever they stand. -/
theorem alikeAt (n : Nat) : AlikeAt n := by
  -- on the number of tokens: every reader hands on fewer than it was given
  induction n using Nat.strongRecOn with
  | ind n ih =>
    exact {
      read := fun _ _ _ _ h hn => read_alike ih h hn
      readClauses := fun _ _ _ _ _ h hn => readClauses_alike ih h hn
      readRange := fun _ _ _ _ h hn => readRange_alike ih h hn
      readConditional := fun _ _ _ h hn => readConditional_alike ih h hn
      readBinary := fun _ _ _ _ h hn => readBinary_alike ih h hn
      readOperators := fun _ _ _ _ _ h hn => readOperators_alike ih h hn
      readSelectors := fun _ _ _ _ h hn => readSelectors_alike ih h hn
      readDotted := fun _ _ _ _ h hn => readDotted_alike ih h hn
      readList := fun _ _ _ _ _ h hn => readList_alike ih h hn
      readItems := fun _ _ _ _ _ h hn => readItems_alike ih h hn }

end Expr

/-! ### Statements -/

section

variable {ts us : List Token}

theorem SameWords.kinds (h : SameWords ts us) : us.map Token.kind = ts.map Token.kind := by
  induction h with
  | nil => rfl
  | cons ht _ ih => rw [List.map_cons, List.map_cons, ih, ht.1]

theorem SameWords.findIdx?_kind (h : SameWords ts us) (kind : Token.Kind) :
    us.findIdx? (·.kind = kind) = ts.findIdx? (·.kind = kind) := by
  have hkinds := congrArg (List.findIdx? (· = kind)) h.kinds
  rwa [List.findIdx?_map, List.findIdx?_map] at hkinds

namespace BracketPair

theorem pairUp_congr (h : SameWords ts us) (position : Nat) (unclosed : List (Nat × Bracket)) :
    pairUp position unclosed us = pairUp position unclosed ts := by
  induction h generalizing position unclosed with
  | nil => rfl
  | cons ht _ ih => simp only [pairUp, ht.1, ih]

theorem ofTokens_congr (h : SameWords ts us) : ofTokens us = ofTokens ts := by
  rw [ofTokens, ofTokens, h.findIdx?_kind, pairUp_congr h]

end BracketPair

namespace Statement

theorem readBody_congr (h : SameWords ts us) (start : Nat) :
    readBody us start = readBody ts start := by
  have halike := (Expr.alikeAt (ts.drop start).length).read ts.length true
    (List.forall₂_drop start h) rfl
  rw [readBody, readBody, ← h.length_eq]
  generalize Expr.read ts.length true (ts.drop start) = x at halike
  generalize Expr.read ts.length true (us.drop start) = y at halike
  split_ifs
  · rfl
  · cases halike with
    | error e => rfl
    | ok hrest =>
      show (if _ then _ else _) = (if _ then _ else _)
      rw [Expr.unexpected_congr hrest]
      cases hrest <;> rfl

theorem readParams_congr (h : SameWords ts us) (position : Nat) (seen : List String) :
    readParams position seen us = readParams position seen ts := by
  fun_induction readParams position seen ts generalizing us with
  | case1 =>
    cases h
    rfl
  | case2 position seen name rest hname =>
    obtain _ | ⟨ht, hrest⟩ := h
    rw [readParams.eq_def]
    simp only [ht.1, ht.2]
    exact if_pos hname
  | case3 position seen name hname =>
    obtain _ | ⟨ht, ⟨⟩⟩ := h
    simp only [readParams, ht.1, ht.2]
    exact if_neg hname
  | case4 position seen name hname comma =>
    obtain _ | ⟨ht, _ | ⟨-, ⟨⟩⟩⟩ := h
    simp only [readParams, ht.1, ht.2]
    exact if_neg hname
  | case5 position seen name hname comma rest hmore hcomma =>
    obtain _ | ⟨ht, _ | ⟨hu, _ | ⟨hv, hrest⟩⟩⟩ := h
    · exact absurd rfl hmore
    · simp only [readParams, ht.1, ht.2, hu.1]
      rw [if_neg hname, if_pos hcomma]
  | case6 position seen name hname comma rest hmore hcomma ih =>
    obtain _ | ⟨ht, _ | ⟨hu, _ | ⟨hv, hrest⟩⟩⟩ := h
    · exact absurd rfl hmore
    · rw [← ih (.cons hv hrest)]
      simp only [readParams, ht.1, ht.2, hu.1]
      rw [if_neg hname, if_neg hcomma]

theorem readFunction_congr (h : SameWords ts us) (name : String) (close : Nat) :
    readFunction us name close = readFunction ts name close := by
  have hassign : us.any (·.kind = .operator .assign) = ts.any (·.kind = .operator .assign) := by
    have hkinds := congrArg (List.any · (· = .operator .assign)) h.kinds
    rwa [List.any_map, List.any_map] at hkinds
  have hbehind : us[close + 1]?.any (·.kind = .operator .assign) =
      ts[close + 1]?.any (·.kind = .operator .assign) := by
    have hkinds := congrArg (fun kinds => kinds[close + 1]?.any (· = .operator .assign)) h.kinds
    simpa only [List.getElem?_map, Option.any_map] using hkinds
  rw [readFunction, readFunction, hassign, hbehind, readBody_congr h, ← h.length_eq,
    readParams_congr (List.forall₂_drop 2 (List.forall₂_take close h))]

/-- What a statement says does not depend on where it stands. -/
theorem readKind_congr (h : SameWords ts us) : readKind us = readKind ts := by
  have hsecond : us[1]?.map Token.kind = ts[1]?.map Token.kind := by
    rw [← List.getElem?_map, ← List.getElem?_map, h.kinds]
  have hbody := readBody_congr h
  have hfunction := readFunction_congr h
  have hassign := h.findIdx?_kind (.operator .assign)
  rw [readKind, readKind, BracketPair.ofTokens_congr h, hsecond]
  simp only [hbody, hfunction, hassign, ← h.length_eq]
  cases h with
  | nil => rfl
  | cons ht hrest => simp only [List.head?_cons, ht.1, ht.2]

end Statement

theorem Expr.ofTokens_congr (h : SameWords ts us) : Expr.ofTokens us = Expr.ofTokens ts := by
  rw [Expr.ofTokens, Expr.ofTokens, BracketPair.ofTokens_congr h, Statement.readBody_congr h]

end

end VectorScript
