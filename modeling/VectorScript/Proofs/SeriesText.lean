import VectorScript.Proofs.PlacedTokens
import VectorScript.Proofs.PlacelessReading
import VectorScript.Proofs.PrintedStatements
import VectorScript.Proofs.ScalarText
import VectorScript.Series
import VectorScript.Session

/-!
# Texts of series

The text of a series of finite numbers is the text of an expression: of a constant with or without a
sign, of a vector, or of an array of these.  It is cut into the tokens of that expression, and these
are read back.

* `Expr.ofSeries`: the expression that writes a series out.
* `Piece.Reads`: what a text is cut into, whatever stands behind it.
* `Series.reads_text`: the text of a series.
* `Series.readExpr_text`: what is read from it.
-/

namespace VectorScript

/-! ### Words -/

namespace Piece

/-- The tokens among some pieces, apart from their places. -/
def words (ps : List Piece) : List Token :=
  ps.filterMap fun p =>
    match p.kind with
    | .token kind => some (.word kind (String.ofList p.text))
    | _ => none

theorem sameWords_placed (p : Position) (ps : List Piece) :
    SameWords ((placed p ps).filterMap token?) (words ps) := by
  induction ps generalizing p with
  | nil => exact .nil
  | cons piece ps ih =>
    obtain ⟨kind, text⟩ := piece
    cases kind with
    | token kind => exact .cons ⟨rfl, rfl⟩ (ih _)
    | _ => exact ih _

/-- What stands behind a number does not go on with it. -/
def Ends (rest : List Char) : Prop := ∀ c ∈ rest.head?, c.isDigit = false ∧ c ≠ '.'

theorem ends_nil : Ends [] := by simp [Ends]

theorem ends_cons {c : Char} (hdigit : c.isDigit = false) (hpoint : c ≠ '.') (rest : List Char) :
    Ends (c :: rest) := by
  intro d hd
  obtain rfl : c = d := Option.some.inj hd
  exact ⟨hdigit, hpoint⟩

/-- A text is cut into some tokens and leaves the rest. -/
def Reads (cs : List Char) (ts : List Token) : Prop :=
  ∀ rest, Ends rest → words (pieces (cs ++ rest)) = ts ++ words (pieces rest)

/-! ### Signs and blanks -/

theorem words_sign {c : Char} {kind : Token.Kind} {rest : List Char}
    (h : first c rest = (.token kind, [])) :
    words (pieces (c :: rest)) = .word kind (String.ofList [c]) :: words (pieces rest) := by
  rw [pieces, h]
  rfl

theorem words_blank (rest : List Char) : words (pieces (' ' :: rest)) = words (pieces rest) := by
  have hspace : words (pieces (' ' :: rest)) =
      words (pieces (rest.drop (rest.takeWhile isBlank).length)) := by
    rw [pieces]
    rfl
  rw [hspace]
  cases rest with
  | nil => rfl
  | cons c rest =>
    by_cases hc : isBlank c
    · have hfirst : first c rest = (.blank, rest.takeWhile isBlank) := if_pos hc
      rw [List.takeWhile_cons_of_pos hc, pieces, hfirst]
      rfl
    · rw [List.takeWhile_cons_of_neg hc]
      rfl

/-! ### Numbers -/

theorem numberTail_of_ends {rest : List Char} (h : Ends rest) : numberTail rest = [] := by
  cases rest with
  | nil => rfl
  | cons c rest =>
    obtain ⟨hdigit, hpoint⟩ := h c rfl
    simp [numberTail, hdigit, hpoint]

theorem numberTail_digits {digits : List Char} (h : ∀ c ∈ digits, c.isDigit) (rest : List Char) :
    numberTail (digits ++ rest) = digits ++ numberTail rest := by
  induction digits with
  | nil => rfl
  | cons c digits ih =>
    obtain ⟨hc, hdigits⟩ := List.forall_mem_cons.mp h
    simp [numberTail, hc, ih hdigits]

theorem first_digit {c : Char} (h : c.isDigit) (rest : List Char) :
    first c rest = (.token .number, numberTail rest) := by
  have hblank : ¬ isBlank c := by
    intro hc
    simp only [isBlank, Bool.or_eq_true, beq_iff_eq] at hc
    rcases hc with (rfl | rfl) | rfl <;> cases h
  have hseparator : ¬ isSeparator c := by
    intro hc
    simp only [isSeparator, Bool.or_eq_true, beq_iff_eq] at hc
    rcases hc with rfl | rfl <;> cases h
  rw [first, if_neg hblank, if_neg hseparator, if_pos h]

theorem words_number {c : Char} {tail rest : List Char} (hc : c.isDigit)
    (htail : numberTail (tail ++ rest) = tail) :
    words (pieces (c :: tail ++ rest)) =
      .word .number (String.ofList (c :: tail)) :: words (pieces rest) := by
  rw [List.cons_append, pieces, first_digit hc, htail]
  dsimp only
  rw [List.drop_left]
  rfl

/-- A numeral is one token. -/
theorem reads_numeral {cs : List Char} (h : Scalar.IsNumeral cs) :
    Reads cs [.word .number (String.ofList cs)] := by
  intro rest hrest
  obtain ⟨digits, hne, hdigits, hform⟩ := h
  obtain ⟨c, digits, rfl⟩ := List.exists_cons_of_ne_nil hne
  obtain ⟨hc, hdigits⟩ := List.forall_mem_cons.mp hdigits
  rcases hform with rfl | ⟨fraction, hne', hfraction, rfl⟩
  · refine words_number hc ?_
    rw [numberTail_digits hdigits, numberTail_of_ends hrest, List.append_nil]
  · obtain ⟨d, fraction, rfl⟩ := List.exists_cons_of_ne_nil hne'
    have hd : d.isDigit := hfraction d List.mem_cons_self
    have hpoint : numberTail ('.' :: (d :: fraction ++ rest)) =
        '.' :: numberTail (d :: fraction ++ rest) := by
      simp [numberTail, hd]
    have htail : numberTail (digits ++ '.' :: d :: fraction ++ rest) =
        digits ++ '.' :: d :: fraction := by
      rw [List.append_assoc, List.cons_append, numberTail_digits hdigits, hpoint,
        numberTail_digits hfraction, numberTail_of_ends hrest, List.append_nil]
    exact words_number hc htail

end Piece

open Piece

/-! ### Expressions of series -/

/-- The numbers of an element. -/
def Series.numbersAt (v : Series) (i : Nat) : List Float32 := v.channels.map (·.getD i Scalar.nan)

namespace Expr

/-- A constant, with a sign before it if the number is negative. -/
def ofNumber (x : Float32) : Expr :=
  if (Scalar.parts x).negative then .unary .negate (.constant (-x) .none) .none
  else .constant x .none

/-- A number alone, or a vector. -/
def ofElement : List Float32 → Expr
  | [x] => ofNumber x
  | xs => .vector (xs.map ofNumber) .none

theorem makesRun_ofNumber (x : Float32) : (ofNumber x).makesRun = false := by
  unfold ofNumber
  split_ifs <;> rfl

/-- The expression that writes a series out. -/
def ofSeries (v : Series) : Expr :=
  if v.length = 1 then ofElement (v.numbersAt 0)
  else .array ((List.range v.length).map fun i => ofElement (v.numbersAt i)) .none

theorem reads_ofNumber {x : Float32} (h : x.isFinite) :
    Reads (Scalar.text x).toList ((ofNumber x).print Scalar.text) := by
  unfold ofNumber
  split_ifs with hsign
  · have hneg : (Scalar.parts (-x)).negative = false := by simp [Scalar.parts_neg h, hsign]
    have hnumeral := reads_numeral (Scalar.isNumeral_text (Scalar.isFinite_neg h) hneg)
    rw [String.ofList_toList] at hnumeral
    intro rest hrest
    rw [Scalar.text_of_negative h hsign, List.cons_append, words_sign rfl, hnumeral rest hrest]
    rfl
  · have hnumeral := reads_numeral (Scalar.isNumeral_text h (by simpa using hsign))
    rwa [String.ofList_toList] at hnumeral

/-- Items with commas and blanks between them. -/
theorem reads_printItems {texts : List (List Char)} {items : List Expr}
    (h : List.Forall₂ (fun cs e => Reads cs (print Scalar.text e)) texts items) :
    Reads ([',', ' '].intercalate texts) (printItems Scalar.text items) := by
  induction h with
  | nil =>
    intro rest _
    rfl
  | @cons cs e texts items hcs hrest ih =>
    cases hrest with
    | nil =>
      rw [List.intercalate_singleton]
      exact hcs
    | @cons cs' e' texts items hcs' hrest =>
      intro rest hends
      rw [List.intercalate_cons_cons, printItems, List.append_assoc, List.append_assoc,
        List.cons_append, List.cons_append, List.nil_append,
        hcs _ (ends_cons rfl (by decide) _), words_sign rfl, words_blank, ih rest hends,
        List.append_assoc]
      rfl

theorem reads_inParens {cs : List Char} {ts : List Token} (h : Reads cs ts) :
    Reads ('(' :: (cs ++ [')'])) (inParens ts) := by
  intro rest _
  have hclose := h (')' :: rest) (ends_cons rfl (by decide) _)
  rw [List.cons_append, words_sign rfl, List.append_assoc, List.singleton_append, hclose,
    words_sign rfl, inParens_append]

theorem reads_inSquares {cs : List Char} {ts : List Token} (h : Reads cs ts) :
    Reads ('[' :: (cs ++ [']'])) (inSquares ts) := by
  intro rest _
  have hclose := h (']' :: rest) (ends_cons rfl (by decide) _)
  rw [List.cons_append, words_sign rfl, List.append_assoc, List.singleton_append, hclose,
    words_sign rfl, inSquares_append]

/-! ### Reading back -/

theorem readsBack_ofNumber {x : Float32}
    (h : Scalar.read? (Scalar.text (Scalar.magnitude x)) = some (Scalar.magnitude x)) :
    (ofNumber x).ReadsBack Scalar.text := by
  unfold Scalar.magnitude at h
  unfold ofNumber
  split_ifs at h ⊢
  · exact readsBack_prefixed (by decide) (readsBack_constant h) rfl
  · exact readsBack_constant h

theorem readsBack_ofElement {xs : List Float32}
    (h : ∀ x ∈ xs, Scalar.read? (Scalar.text (Scalar.magnitude x)) = some (Scalar.magnitude x))
    (hpos : 0 < xs.length) (hfour : xs.length ≤ 4) : (ofElement xs).ReadsBack Scalar.text := by
  unfold ofElement
  split
  · exact readsBack_ofNumber (h _ List.mem_cons_self)
  · rename_i hmany
    have htwo : 2 ≤ xs.length := by
      match xs with
      | [x] => exact absurd rfl (hmany x)
      | _ :: _ :: _ => simp
    refine readsBack_vector (fun e he => ?_) (fun e he => ?_) (by simpa using htwo)
      (by simpa using hfour)
    · obtain ⟨x, hx, rfl⟩ := List.mem_map.mp he
      exact readsBack_ofNumber (h x hx)
    · obtain ⟨x, -, rfl⟩ := List.mem_map.mp he
      exact makesRun_ofNumber x

end Expr

/-! ### Texts of series -/

namespace Series

variable {v : Series}

theorem reads_elementText {i : Nat} (h : ∀ x ∈ v.numbersAt i, x.isFinite) :
    Reads (v.elementText i).toList ((Expr.ofElement (v.numbersAt i)).print Scalar.text) := by
  have htexts : v.channels.map (fun c => Scalar.text (c.getD i Scalar.nan)) =
      (v.numbersAt i).map Scalar.text := by
    rw [numbersAt, List.map_map]
    rfl
  have hnumbers : ∀ x ∈ v.numbersAt i,
      Reads (Scalar.text x).toList ((Expr.ofNumber x).print Scalar.text) :=
    fun x hx => Expr.reads_ofNumber (h x hx)
  rw [elementText, htexts]
  generalize v.numbersAt i = xs at hnumbers
  have hlist : Reads ("(" ++ ", ".intercalate (xs.map Scalar.text) ++ ")").toList
      ((Expr.vector (xs.map Expr.ofNumber) .none).print Scalar.text) := by
    have hitems : List.Forall₂ (fun cs e => Reads cs (Expr.print Scalar.text e))
        ((xs.map Scalar.text).map String.toList) (xs.map Expr.ofNumber) := by
      rw [List.map_map, List.forall₂_map_left_iff, List.forall₂_map_right_iff]
      exact List.forall₂_same.mpr hnumbers
    have hparens := Expr.reads_inParens (Expr.reads_printItems hitems)
    rw [Expr.print]
    simpa [String.toList_intercalate] using hparens
  cases xs with
  | nil => exact hlist
  | cons x rest =>
    cases rest with
    | nil => exact hnumbers x List.mem_cons_self
    | cons y rest => exact hlist

/-- The text of a series is the text of its expression. -/
theorem reads_text (h : ∀ i < v.length, ∀ x ∈ v.numbersAt i, x.isFinite) :
    Reads v.text.toList ((Expr.ofSeries v).print Scalar.text) := by
  unfold text Expr.ofSeries
  split_ifs with hone
  · exact reads_elementText (h 0 (by omega))
  · have hitems : List.Forall₂ (fun cs e => Reads cs (Expr.print Scalar.text e))
        (((List.range v.length).map v.elementText).map String.toList)
        ((List.range v.length).map fun i => Expr.ofElement (v.numbersAt i)) := by
      rw [List.map_map, List.forall₂_map_left_iff, List.forall₂_map_right_iff]
      exact List.forall₂_same.mpr fun i hi => reads_elementText (h i (List.mem_range.mp hi))
    have hsquares := Expr.reads_inSquares (Expr.reads_printItems hitems)
    rw [Expr.print]
    simpa [String.toList_intercalate] using hsquares

theorem sameWords_text (h : ∀ i < v.length, ∀ x ∈ v.numbersAt i, x.isFinite) :
    SameWords (flatTokens v.text) ((Expr.ofSeries v).print Scalar.text) := by
  have hwords := reads_text h [] ends_nil
  rw [List.append_nil] at hwords
  have hsame := sameWords_placed .start (pieces v.text.toList)
  rw [hwords, ← flatTokens_eq] at hsame
  simpa [pieces, words] using hsame

theorem readsBack_ofSeries (hlength : 0 < v.length) (hpos : 0 < v.dimension)
    (hfour : v.dimension ≤ 4) (h : ∀ i < v.length, ∀ x ∈ v.numbersAt i,
      Scalar.read? (Scalar.text (Scalar.magnitude x)) = some (Scalar.magnitude x)) :
    (Expr.ofSeries v).ReadsBack Scalar.text := by
  have hcount : ∀ i, (v.numbersAt i).length = v.dimension := fun i => by simp [numbersAt, dimension]
  have helement : ∀ i < v.length, (Expr.ofElement (v.numbersAt i)).ReadsBack Scalar.text :=
    fun i hi => Expr.readsBack_ofElement (h i hi) (hcount i ▸ hpos) (hcount i ▸ hfour)
  unfold Expr.ofSeries
  split_ifs
  · exact helement 0 hlength
  · refine Expr.readsBack_array (fun e he => ?_) ?_
    · obtain ⟨i, hi, rfl⟩ := List.mem_map.mp he
      exact helement i (List.mem_range.mp hi)
    · simpa using Nat.ne_of_gt hlength

/-- The text of a series is read as its expression, up to spans. -/
theorem readExpr_text (hlength : 0 < v.length) (hpos : 0 < v.dimension) (hfour : v.dimension ≤ 4)
    (hfinite : ∀ i < v.length, ∀ x ∈ v.numbersAt i, x.isFinite)
    (hnumerals : ∀ i < v.length, ∀ x ∈ v.numbersAt i,
      Scalar.read? (Scalar.text (Scalar.magnitude x)) = some (Scalar.magnitude x)) :
    ∃ e, Session.readExpr v.text = .ok e ∧ e.plain = (Expr.ofSeries v).plain := by
  have hback := Expr.plain_ofTokens (readsBack_ofSeries hlength hpos hfour hnumerals)
  rw [Expr.ofTokens_congr (sameWords_text hfinite)] at hback
  cases hread : Expr.ofTokens (flatTokens v.text) with
  | error e =>
    rw [hread] at hback
    cases hback
  | ok e =>
    rw [hread] at hback
    refine ⟨e, ?_, Except.ok.inj hback⟩
    unfold Session.readExpr
    split
    · rename_i hnone
      rw [hnone] at hread
      cases hread
    · exact hread

end Series

end VectorScript
