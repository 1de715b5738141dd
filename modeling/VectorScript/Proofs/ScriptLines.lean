import VectorScript.Proofs.PlacedTokens
import VectorScript.Proofs.PlacelessReading

/-!
# Lines of a script

A newline keeps what is before it apart from what is behind it, unless a backslash joins the lines.
Every piece of the first part is cut as if the text ended at the newline, and every statement of the
second part is read as if it stood alone, only further down.

* `endsOpen`: a line that goes on behind the next newline.
* `Token.moved`, `Statement.moved`: the same further down.
* `pieces_append_newline`, `tokenize_append_newline`: cutting goes part by part.
* `parseScript_append_newline`: reading does.
-/

namespace VectorScript

/-- Whether a line ends in a backslash and blanks. -/
def endsOpen (line : List Char) : Bool :=
  (line.rdropWhile Piece.isBlank).getLast? == some '\\'

theorem endsOpen_lastLine {before blanks : List Char} (h : ∀ c ∈ blanks, Piece.isBlank c) :
    endsOpen (lastLine (before ++ '\\' :: blanks)) := by
  have hreverse : ∀ c ∈ blanks.reverse, Piece.isBlank c := by simpa using h
  have hnewline : ∀ c ∈ blanks.reverse, decide (c ≠ '\n') = true := by
    intro c hc
    have hblank := hreverse c hc
    rw [decide_eq_true_iff]
    rintro rfl
    cases hblank
  rw [endsOpen, lastLine, List.rtakeWhile, List.rdropWhile, List.reverse_reverse,
    List.reverse_append, List.reverse_cons, List.append_assoc,
    List.takeWhile_append_of_pos hnewline, List.dropWhile_append_of_pos hreverse]
  simp [Piece.isBlank]

/-! ### Pieces before a newline -/

namespace Piece

variable {cs rest : List Char}

theorem takeWhile_append_newline {p : Char → Bool} (h : p '\n' = false) :
    (cs ++ '\n' :: rest).takeWhile p = cs.takeWhile p := by
  induction cs with
  | nil => simp [h]
  | cons c cs ih => rw [List.cons_append, List.takeWhile_cons, List.takeWhile_cons, ih]

theorem numberTail_append_newline : numberTail (cs ++ '\n' :: rest) = numberTail cs := by
  induction cs with
  | nil => rfl
  | cons c cs ih =>
    have hnext : (cs ++ '\n' :: rest).head?.any Char.isDigit = cs.head?.any Char.isDigit := by
      cases cs <;> rfl
    rw [List.cons_append, numberTail, numberTail, ih, hnext]

/-- A backslash with more than blanks behind it continues nothing. -/
theorem continuationTail?_append_newline (h : ¬ ∀ c ∈ cs, isBlank c) :
    continuationTail? (cs ++ '\n' :: rest) = continuationTail? cs := by
  obtain ⟨c, ds, hds⟩ : ∃ c ds, cs.dropWhile isBlank = c :: ds := by
    apply List.exists_cons_of_ne_nil
    rwa [ne_eq, List.dropWhile_eq_nil_iff]
  have happend : (cs ++ '\n' :: rest).dropWhile isBlank = c :: (ds ++ '\n' :: rest) := by
    rw [List.dropWhile_append, hds]
    rfl
  rw [continuationTail?, continuationTail?, happend, hds]
  simp only [takeWhile_append_newline (show isBlank '\n' = false from rfl)]

theorem signTail_append_newline (alone withEquals : Operator) :
    signTail alone withEquals (cs ++ '\n' :: rest) = signTail alone withEquals cs := by
  cases cs with
  | nil => rfl
  | cons c cs =>
    by_cases hc : c = '=' <;> simp [signTail, hc]

theorem pointTail_append_newline : pointTail (cs ++ '\n' :: rest) = pointTail cs := by
  match cs with
  | [] => rfl
  | [c] => by_cases hc : c = '.' <;> simp [pointTail, hc]
  | c :: d :: cs => by_cases hc : c = '.' <;> by_cases hd : d = '.' <;> simp [pointTail, hc, hd]

theorem signPiece_append_newline (c : Char) :
    signPiece c (cs ++ '\n' :: rest) = signPiece c cs := by
  unfold signPiece
  simp only [pointTail_append_newline, signTail_append_newline]

/-- A piece ends before a newline, if no backslash takes the newline in. -/
theorem first_append_newline {c : Char} (h : c = '\\' → ¬ ∀ c ∈ cs, isBlank c) :
    first c (cs ++ '\n' :: rest) = first c cs := by
  have hslash : ((cs ++ '\n' :: rest).head? == some '/') = (cs.head? == some '/') := by
    cases cs <;> rfl
  have hcontinuation : c = '\\' →
      continuationTail? (cs ++ '\n' :: rest) = continuationTail? cs :=
    fun hc => continuationTail?_append_newline (h hc)
  unfold first
  rw [takeWhile_append_newline (show isBlank '\n' = false from rfl),
    takeWhile_append_newline (show isWordPart '\n' = false from rfl),
    takeWhile_append_newline (p := (· != '\n')) rfl, numberTail_append_newline,
    signPiece_append_newline, hslash]
  by_cases hc : c = '\\'
  · rw [hcontinuation hc]
  · simp [hc]

end Piece

open Piece

/-- A newline behind a closed text is a piece on its own. -/
theorem pieces_append_newline {text rest : List Char} (h : ¬ endsOpen (lastLine text)) :
    pieces (text ++ '\n' :: rest) = pieces text ++ ⟨.separator, ['\n']⟩ :: pieces rest := by
  have hclosed : ∀ before blanks, text = before ++ '\\' :: blanks → ¬ ∀ c ∈ blanks, isBlank c := by
    rintro before blanks rfl hblanks
    exact h (endsOpen_lastLine hblanks)
  clear h
  fun_induction pieces text with
  | case1 => rw [List.nil_append, pieces]; rfl
  | case2 c cs kind tail hfirst ih =>
    obtain ⟨left, hleft⟩ : tail <+: cs := by
      have htail := first_isPrefix c cs
      rwa [hfirst] at htail
    have hnewline : first c (cs ++ '\n' :: rest) = (kind, tail) := by
      rw [first_append_newline, hfirst]
      rintro rfl
      exact hclosed [] cs rfl
    rw [List.cons_append, pieces, hnewline]
    have hdrop : (cs ++ '\n' :: rest).drop tail.length = cs.drop tail.length ++ '\n' :: rest := by
      apply List.drop_append_of_le_length
      rw [← hleft, List.length_append]
      omega
    have hlast : ∀ before blanks, cs.drop tail.length = before ++ '\\' :: blanks →
        ¬ ∀ c ∈ blanks, isBlank c := by
      intro before blanks hdropped
      refine hclosed (c :: (tail ++ before)) blanks ?_
      rw [List.cons_append, List.append_assoc, ← hdropped, ← hleft, List.drop_left]
    show _ :: pieces ((cs ++ '\n' :: rest).drop tail.length) = _
    rw [hdrop, ih hlast]
    rfl

/-! ### Tokens further down -/

/-- A token so many lines and bytes further down. -/
def Token.moved (lines bytes : Nat) (t : Token) : Token :=
  { t with line := t.line + lines, offset := t.offset + bytes }

def Statement.moved (lines bytes : Nat) (s : Statement) : Statement :=
  { s with tokens := s.tokens.map (Token.moved lines bytes) }

def Position.moved (lines bytes : Nat) (p : Position) : Position :=
  { p with line := p.line + lines, offset := p.offset + bytes }

section

variable (lines bytes : Nat)

theorem Position.after_moved (p : Position) (text : List Char) :
    (p.moved lines bytes).after text = (p.after text).moved lines bytes := by
  induction text generalizing p with
  | nil => rfl
  | cons c text ih =>
    have hnext : (p.moved lines bytes).next c = (p.next c).moved lines bytes := by
      unfold next moved
      split
      · simp only [mk.injEq, true_and]
        omega
      · simp only [mk.injEq, true_and]
        omega
    show ((p.moved lines bytes).next c).after text = _
    rw [hnext, ih]
    rfl

theorem placed_moved (p : Position) (ps : List Piece) :
    placed (p.moved lines bytes) ps = (placed p ps).map (Prod.map (·.moved lines bytes) id) := by
  induction ps generalizing p with
  | nil => rfl
  | cons piece rest ih => rw [placed, placed, Position.after_moved, ih]; rfl

theorem tokenGroups_moved (xs : List (Position × Piece)) :
    tokenGroups (xs.map (Prod.map (·.moved lines bytes) id)) =
      (tokenGroups xs).map (List.map (Token.moved lines bytes)) := by
  induction xs with
  | nil => rfl
  | cons x xs ih =>
    obtain ⟨p, kind, text⟩ := x
    obtain ⟨group, groups, hgroups⟩ := List.exists_cons_of_ne_nil (tokenGroups_ne_nil xs)
    rw [List.map_cons, tokenGroups_cons, tokenGroups_cons, ih, hgroups]
    cases kind <;> rfl

theorem sameWords_moved (ts : List Token) : SameWords ts (ts.map (Token.moved lines bytes)) := by
  induction ts with
  | nil => exact .nil
  | cons t ts ih => exact .cons ⟨rfl, rfl⟩ ih

theorem Statement.ofTokens_moved (ts : List Token) :
    ofTokens (ts.map (Token.moved lines bytes)) = (ofTokens ts).moved lines bytes := by
  rw [ofTokens, ofTokens, readKind_congr (sameWords_moved lines bytes ts)]
  cases readKind ts <;> rfl

end

/-! ### Scripts -/

/-- The tokens behind a newline are those of the text behind it, further down. -/
theorem tokenize_append_newline {s₁ s₂ : String} (h : ¬ endsOpen (lastLine s₁.toList)) :
    tokenize (s₁ ++ "\n" ++ s₂) = tokenize s₁ ++ (tokenize s₂).map
      (List.map (Token.moved (s₁.toList.count '\n' + 1) (s₁.utf8ByteSize + 1))) := by
  have htext : (s₁ ++ "\n" ++ s₂).toList = s₁.toList ++ '\n' :: s₂.toList := by simp
  have hplace : (Position.start.after s₁.toList).after ['\n'] =
      Position.start.moved (s₁.toList.count '\n' + 1) (s₁.utf8ByteSize + 1) := by
    have hline := Position.line_after .start s₁.toList
    have hoffset := Position.offset_after .start s₁.toList
    show (Position.start.after s₁.toList).next '\n' = _
    rw [Position.next, if_pos rfl, hline, hoffset]
    simp only [Position.moved, Position.start, Position.mk.injEq, true_and, String.utf8Len_toList]
    omega
  rw [tokenize, htext, pieces_append_newline h, placed_append, textOf_pieces, placed,
    tokenGroups_append_separator, hplace, placed_moved, tokenGroups_moved, List.filter_append,
    List.filter_map]
  simp only [Function.comp_def, List.isEmpty_map]
  rfl

/-- A script whose first part does not end in a backslash is read line by line: statements, trees,
spans and errors behind a newline are those of the text behind it read on its own, and its tokens
stand as many lines and bytes further down as there are before it. -/
theorem parseScript_append_newline (s₁ s₂ : String) (h : ¬ endsOpen (lastLine s₁.toList)) :
    parseScript (s₁ ++ "\n" ++ s₂) = parseScript s₁ ++ (parseScript s₂).map
      (Statement.moved (s₁.toList.count '\n' + 1) (s₁.utf8ByteSize + 1)) := by
  rw [parseScript, tokenize_append_newline h, List.map_append, List.map_map, parseScript,
    parseScript, List.map_map]
  congr 1
  apply List.map_congr_left
  intro ts _
  exact Statement.ofTokens_moved _ _ ts

/-- An open bracket, a stray backslash and a comment end with their line. -/
theorem parseScript_open_bracket_line :
    ¬ endsOpen (lastLine "x = 1\na = ( \\ [ // é ; \\ )".toList) ∧
    parseScript ("x = 1\na = ( \\ [ // é ; \\ )" ++ "\n" ++ "b = x]\n.") =
      parseScript "x = 1\na = ( \\ [ // é ; \\ )" ++
        (parseScript "b = x]\n.").map (Statement.moved
          ("x = 1\na = ( \\ [ // é ; \\ )".toList.count '\n' + 1)
          ("x = 1\na = ( \\ [ // é ; \\ )".utf8ByteSize + 1)) :=
  ⟨by decide +kernel, parseScript_append_newline _ _ (by decide +kernel)⟩

end VectorScript
