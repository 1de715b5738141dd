import Mathlib.Data.List.DropRight
import Mathlib.Data.String.Basic
import VectorScript.Statement.Parser

/-!
# Places of tokens

Where a text leads to, and how the pieces of a source become tokens and groups of tokens.

* `Position.offset_after`, `Position.line_after`, `Position.column_after_start`: lines, columns and
  offsets count newlines and bytes.
* `placed_append`: pieces are placed behind the text of the pieces before them.
* `flatTokens_eq`: all tokens of a source in order.
* `tokenGroups_append_separator`: a separator divides the groups before it from those behind it.
-/

namespace VectorScript

/-- What stands behind the last newline. -/
def lastLine (text : List Char) : List Char := text.rtakeWhile (· ≠ '\n')

namespace Position

theorem after_append (p : Position) (xs ys : List Char) :
    p.after (xs ++ ys) = (p.after xs).after ys :=
  List.foldl_append

theorem offset_after (p : Position) (text : List Char) :
    (p.after text).offset = p.offset + String.utf8Len text := by
  induction text generalizing p with
  | nil => rfl
  | cons c rest ih =>
    have hnext : (p.next c).offset = p.offset + c.utf8Size := by
      unfold next
      split
      · rename_i hc
        rw [hc]
        rfl
      · rfl
    show ((p.next c).after rest).offset = _
    rw [ih, hnext, String.utf8Len_cons]
    omega

theorem line_after (p : Position) (text : List Char) :
    (p.after text).line = p.line + text.count '\n' := by
  induction text generalizing p with
  | nil => rfl
  | cons c rest ih =>
    show ((p.next c).after rest).line = _
    rw [ih, List.count_cons]
    unfold next
    by_cases hc : c = '\n'
    · simp only [hc, if_true, beq_self_eq_true]
      omega
    · simp [hc]

/-- The column counts the bytes of the last line. -/
theorem column_after_start (text : List Char) :
    (start.after text).column = 1 + String.utf8Len (lastLine text) := by
  induction text using List.reverseRecOn with
  | nil => rfl
  | append_singleton text c ih =>
    rw [after_append, lastLine, List.rtakeWhile_concat]
    show ((start.after text).next c).column = _
    unfold next
    by_cases hc : c = '\n'
    · simp [hc]
    · simp only [hc, if_false, ih, lastLine, ne_eq, not_false_eq_true, decide_true, if_true,
        String.utf8Len_append, String.utf8Len_cons, String.utf8Len_nil]
      omega

end Position

/-! ### Pieces -/

namespace Piece

/-- The text of some pieces, one after the other. -/
def textOf (ps : List Piece) : List Char := (ps.map Piece.text).flatten

@[simp] theorem textOf_nil : textOf [] = [] := rfl

@[simp] theorem textOf_cons (p : Piece) (ps : List Piece) :
    textOf (p :: ps) = p.text ++ textOf ps := rfl

@[simp] theorem textOf_append (ps qs : List Piece) :
    textOf (ps ++ qs) = textOf ps ++ textOf qs := by
  simp [textOf]

theorem textOf_pieces (text : List Char) : textOf (pieces text) = text :=
  flatten_pieces text

/-- The token that a piece is at its place, if it is one. -/
def token? : Position × Piece → Option Token
  | (p, ⟨.token kind, text⟩) => some ⟨kind, String.ofList text, p.line, p.column, p.offset⟩
  | _ => none

end Piece

open Piece

theorem placed_append (p : Position) (ps qs : List Piece) :
    placed p (ps ++ qs) = placed p ps ++ placed (p.after (textOf ps)) qs := by
  induction ps generalizing p with
  | nil => rfl
  | cons piece rest ih =>
    rw [List.cons_append, placed, placed, ih, textOf_cons, Position.after_append, List.cons_append]

theorem map_snd_placed (p : Position) (ps : List Piece) : (placed p ps).map Prod.snd = ps := by
  induction ps generalizing p with
  | nil => rfl
  | cons piece rest ih => rw [placed, List.map_cons, ih]

/-! ### Groups of tokens -/

theorem tokenGroups_ne_nil (xs : List (Position × Piece)) : tokenGroups xs ≠ [] := by
  fun_induction tokenGroups xs <;> simp_all

/-- Tokens are put in front of the first group. -/
theorem tokenGroups_cons (x : Position × Piece) (xs : List (Position × Piece)) :
    tokenGroups (x :: xs) =
      if x.2.kind = .separator then [] :: tokenGroups xs
      else ((token? x).toList ++ (tokenGroups xs).headD []) :: (tokenGroups xs).tail := by
  obtain ⟨p, kind, text⟩ := x
  obtain ⟨group, groups, hgroups⟩ := List.exists_cons_of_ne_nil (tokenGroups_ne_nil xs)
  cases kind <;> simp [tokenGroups, hgroups, token?]

theorem flatten_tokenGroups (xs : List (Position × Piece)) :
    (tokenGroups xs).flatten = xs.filterMap token? := by
  induction xs with
  | nil => rfl
  | cons x xs ih =>
    obtain ⟨group, groups, hgroups⟩ := List.exists_cons_of_ne_nil (tokenGroups_ne_nil xs)
    rw [tokenGroups_cons, List.filterMap_cons, ← ih, hgroups]
    obtain ⟨p, kind, text⟩ := x
    cases kind <;> simp [token?]

/-- A separator divides the groups before it from those behind it. -/
theorem tokenGroups_append_separator (xs ys : List (Position × Piece)) (p : Position)
    (text : List Char) :
    tokenGroups (xs ++ (p, ⟨.separator, text⟩) :: ys) = tokenGroups xs ++ tokenGroups ys := by
  induction xs with
  | nil => rfl
  | cons x xs ih =>
    obtain ⟨group, groups, hgroups⟩ := List.exists_cons_of_ne_nil (tokenGroups_ne_nil xs)
    rw [List.cons_append, tokenGroups_cons, tokenGroups_cons x xs, ih, hgroups]
    split <;> simp

/-- All tokens of a source, in order. -/
theorem flatTokens_eq (source : String) :
    flatTokens source = (placed .start (pieces source.toList)).filterMap token? := by
  rw [flatTokens, tokenize, List.flatten_filter_not_isEmpty, flatten_tokenGroups]

end VectorScript
