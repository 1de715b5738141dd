import VectorScript.SyntaxError
import VectorScript.Token

/-!
# Brackets

Before a statement is read its tokens are checked: every token is known, and the brackets pair up.
-/

namespace VectorScript

/-- Positions of an opening bracket and of the bracket that closes it. -/
structure BracketPair where
  opener : Nat
  closer : Nat
deriving DecidableEq, Repr, Inhabited

namespace BracketPair

/-- The other position of the pair that holds position `i`. -/
def partner? (pairs : List BracketPair) (i : Nat) : Option Nat :=
  pairs.findSome? fun p =>
    if p.opener = i then some p.closer else if p.closer = i then some p.opener else none

/-- Pairs up the brackets of `ts`, whose front is at `position`, behind brackets that are still
open, innermost first. -/
def pairUp (position : Nat) (unclosed : List (Nat × Bracket)) :
    List Token → Except SyntaxError (List BracketPair)
  | [] =>
    match unclosed with
    | [] => .ok []
    | (i, _) :: _ => .error ⟨.missingClosingBracket, .single i⟩
  | t :: rest =>
    match t.kind with
    | .bracket b =>
      if b.isOpen then pairUp (position + 1) ((position, b) :: unclosed) rest
      else
        match unclosed with
        | (i, opener) :: outer =>
          if opener.closer = b then
            (pairUp (position + 1) outer rest).map (⟨i, position⟩ :: ·)
          else .error ⟨.unmatchedBracket, .single position⟩
        | [] => .error ⟨.unmatchedBracket, .single position⟩
    | _ => pairUp (position + 1) unclosed rest

/-- Refuses unknown tokens, then brackets that do not pair up. -/
def ofTokens (ts : List Token) : Except SyntaxError (List BracketPair) :=
  match ts.findIdx? (·.kind = .unknown) with
  | some i => .error ⟨.unknownToken, .single i⟩
  | none => pairUp 0 [] ts

end BracketPair

end VectorScript
