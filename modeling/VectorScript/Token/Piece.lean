import VectorScript.Token

/-!
# Source pieces

A script is cut into pieces that follow one another without gaps: tokens, blanks, comments, line
continuations and separators.  Tokens get their place from the pieces before them, and separators
divide them into statements.

`pieces` never loses a character (`flatten_pieces`).
-/

namespace VectorScript

namespace Piece

inductive Kind where
  | blank
  | separator
  | comment
  | continuation
  | token (kind : Token.Kind)
deriving DecidableEq, Repr, Inhabited

end Piece

/-- A stretch of source text of one kind. -/
structure Piece where
  kind : Piece.Kind
  text : List Char
deriving DecidableEq, Repr, Inhabited

namespace Piece

def isBlank (c : Char) : Bool :=
  c == ' ' || c == '\t' || c == '\r'

def isSeparator (c : Char) : Bool :=
  c == '\n' || c == ';'

def isWordStart (c : Char) : Bool :=
  c.isAlpha || c == '_'

def isWordPart (c : Char) : Bool :=
  c.isAlphanum || c == '_'

/-- What continues a number: digits, and points that a digit follows. -/
def numberTail : List Char → List Char
  | [] => []
  | c :: cs =>
    if c.isDigit || (c == '.' && cs.head?.any Char.isDigit) then c :: numberTail cs else []

/-- What continues a backslash when only blanks stand between it and the end of its line. -/
def continuationTail? (cs : List Char) : Option (List Char) :=
  match cs.dropWhile isBlank with
  | [] => some cs
  | c :: _ => if c = '\n' then some (cs.takeWhile isBlank ++ ['\n']) else none

/-- A sign alone, or together with a `=` that follows it. -/
def signTail (alone withEquals : Operator) : List Char → Kind × List Char
  | '=' :: _ => (.token (.operator withEquals), ['='])
  | _ => (.token (.operator alone), [])

/-- One point selects, three make a range, two are nothing. -/
def pointTail : List Char → Kind × List Char
  | '.' :: '.' :: _ => (.token (.operator .ellipsis), ['.', '.'])
  | '.' :: _ => (.token .unknown, ['.'])
  | _ => (.token (.operator .dot), [])

/-- A piece that starts with a sign: an operator, a bracket, a comma or nothing known. -/
def signPiece (c : Char) (cs : List Char) : Kind × List Char :=
  match c with
  | '.' => pointTail cs
  | '+' => (.token (.operator .plus), [])
  | '-' => (.token (.operator .minus), [])
  | '*' => (.token (.operator .star), [])
  | '/' => (.token (.operator .slash), [])
  | '%' => (.token (.operator .percent), [])
  | '^' => (.token (.operator .caret), [])
  | '!' => signTail .bang .notEqual cs
  | '=' => signTail .assign .equal cs
  | '<' => signTail .less .lessEqual cs
  | '>' => signTail .greater .greaterEqual cs
  | '(' => (.token (.bracket .openParen), [])
  | ')' => (.token (.bracket .closeParen), [])
  | '[' => (.token (.bracket .openSquare), [])
  | ']' => (.token (.bracket .closeSquare), [])
  | ',' => (.token .comma, [])
  | _ => (.token .unknown, [])

/-- The kind of the piece that starts with `c`, and the characters of `cs` that belong to it. -/
def first (c : Char) (cs : List Char) : Kind × List Char :=
  if isBlank c then (.blank, cs.takeWhile isBlank)
  else if isSeparator c then (.separator, [])
  else if c.isDigit then (.token .number, numberTail cs)
  else if isWordStart c then
    let tail := cs.takeWhile isWordPart
    (.token (.ofWord (String.ofList (c :: tail))), tail)
  else if c == '\\' then
    match continuationTail? cs with
    | some tail => (.continuation, tail)
    | none => (.token .unknown, [])
  else if c == '/' && cs.head? == some '/' then (.comment, cs.takeWhile (· != '\n'))
  else signPiece c cs

end Piece

/-- Cuts text into pieces. -/
def pieces : List Char → List Piece
  | [] => []
  | c :: cs =>
    let (kind, tail) := Piece.first c cs
    ⟨kind, c :: tail⟩ :: pieces (cs.drop tail.length)
termination_by text => text.length
decreasing_by simp only [List.length_drop, List.length_cons]; omega

/-- A place in the source. -/
structure Position where
  line : Nat
  column : Nat
  offset : Nat
deriving DecidableEq, Repr, Inhabited

namespace Position

/-- Where a script starts. -/
def start : Position := ⟨1, 1, 0⟩

def next (p : Position) (c : Char) : Position :=
  if c = '\n' then ⟨p.line + 1, 1, p.offset + 1⟩
  else ⟨p.line, p.column + c.utf8Size, p.offset + c.utf8Size⟩

/-- The place just after `text`. -/
def after (p : Position) (text : List Char) : Position :=
  text.foldl next p

end Position

/-- Gives every piece the place where it starts. -/
def placed (p : Position) : List Piece → List (Position × Piece)
  | [] => []
  | piece :: rest => (p, piece) :: placed (p.after piece.text) rest

/-- The tokens between separators, group by group; there is always a last group. -/
def tokenGroups : List (Position × Piece) → List (List Token)
  | [] => [[]]
  | (p, piece) :: rest =>
    match piece.kind, tokenGroups rest with
    | .separator, groups => [] :: groups
    | .token kind, group :: groups =>
      (⟨kind, String.ofList piece.text, p.line, p.column, p.offset⟩ :: group) :: groups
    | _, groups => groups

/-- The tokens of a script, statement by statement.  A statement has at least one token. -/
def tokenize (source : String) : List (List Token) :=
  (tokenGroups (placed .start (pieces source.toList))).filter (!·.isEmpty)

/-! ### Nothing is lost -/

namespace Piece

theorem numberTail_isPrefix (cs : List Char) : numberTail cs <+: cs := by
  induction cs with
  | nil => exact List.prefix_rfl
  | cons c cs ih =>
    unfold numberTail
    split
    · exact (List.prefix_cons_inj c).2 ih
    · exact List.nil_prefix

theorem continuationTail?_isPrefix {cs tail : List Char} (h : continuationTail? cs = some tail) :
    tail <+: cs := by
  unfold continuationTail? at h
  split at h
  · simp_all
  · rename_i c rest hrest
    split at h
    · rename_i hc
      obtain rfl := Option.some.inj h
      refine ⟨rest, ?_⟩
      rw [List.append_assoc, List.singleton_append, ← hc, ← hrest, List.takeWhile_append_dropWhile]
    · cases h

theorem signTail_isPrefix (a b : Operator) (cs : List Char) : (signTail a b cs).2 <+: cs := by
  unfold signTail
  split
  · exact ⟨_, rfl⟩
  · exact List.nil_prefix

theorem pointTail_isPrefix (cs : List Char) : (pointTail cs).2 <+: cs := by
  unfold pointTail
  split
  · exact ⟨_, rfl⟩
  · exact ⟨_, rfl⟩
  · exact List.nil_prefix

theorem signPiece_isPrefix (c : Char) (cs : List Char) : (signPiece c cs).2 <+: cs := by
  unfold signPiece
  split <;> first
    | exact List.nil_prefix
    | exact pointTail_isPrefix cs
    | exact signTail_isPrefix _ _ cs

/-- A piece is its first character and a stretch that follows it at once. -/
theorem first_isPrefix (c : Char) (cs : List Char) : (first c cs).2 <+: cs := by
  unfold first
  split
  · exact List.takeWhile_prefix _
  split
  · exact List.nil_prefix
  split
  · exact numberTail_isPrefix cs
  split
  · exact List.takeWhile_prefix _
  split
  · split
    · rename_i tail h
      exact continuationTail?_isPrefix h
    · exact List.nil_prefix
  split
  · exact List.takeWhile_prefix _
  · exact signPiece_isPrefix c cs

end Piece

/-- The pieces of a text, one after the other, are the text. -/
theorem flatten_pieces (text : List Char) : ((pieces text).map Piece.text).flatten = text := by
  fun_induction pieces text with
  | case1 => rfl
  | case2 c cs kind tail h ih =>
    obtain ⟨rest, hrest⟩ := Piece.first_isPrefix c cs
    rw [h] at hrest
    obtain rfl := hrest
    simpa using ih

end VectorScript
