import VectorScript.Proofs.SourceTiling
import VectorScript.Proofs.TokenSpans

/-!
# Snippets of a source

A span of a statement is shown as the stretch of the source from its first to its last token.  The
tokens are shown as they are, and every byte between them as a space.  So the snippet has as many
bytes as the stretch, and is the stretch if there are only spaces between the tokens.

* `bytes`: the bytes of a text.
* `Piece.shownOf`: pieces with spaces in place of all that is no token.
* `spaced_placed`: the tokens of some pieces are shown as these pieces.
* `getElem?_bytes_shownOf`: what is shown, byte by byte.
* `Statement.snippet_reproduces`: snippets and locations of all spans.
-/

namespace VectorScript

/-! ### Bytes -/

/-- The bytes of a text in UTF-8. -/
def bytes (text : String) : List UInt8 := text.toByteArray.data.toList

theorem bytes_ofList (cs : List Char) :
    bytes (String.ofList cs) = cs.flatMap String.utf8EncodeChar := by
  rw [bytes, String.toByteArray_ofList, List.utf8Encode, List.toList_data_toByteArray]

theorem bytes_append (s t : String) : bytes (s ++ t) = bytes s ++ bytes t := by
  rw [bytes, String.toByteArray_append, ByteArray.data_append, Array.toList_append]
  rfl

theorem length_bytes (s : String) : (bytes s).length = s.utf8ByteSize := rfl

theorem length_bytes_ofList (cs : List Char) :
    (bytes (String.ofList cs)).length = String.utf8Len cs := by
  rw [length_bytes, String.utf8ByteSize_ofList]

theorem bytes_injective : Function.Injective bytes := by
  intro s t h
  apply String.toByteArray_inj.mp
  apply ByteArray.ext
  exact Array.toList_inj.mp h

theorem getElem?_bytes_append_left {cs ds : List Char} {i : Nat}
    (h : i < String.utf8Len cs) :
    (bytes (String.ofList (cs ++ ds)))[i]? = (bytes (String.ofList cs))[i]? := by
  rw [String.ofList_append, bytes_append, List.getElem?_append_left]
  rwa [length_bytes_ofList]

theorem getElem?_bytes_append_right (cs ds : List Char) (i : Nat) :
    (bytes (String.ofList (cs ++ ds)))[String.utf8Len cs + i]? =
      (bytes (String.ofList ds))[i]? := by
  rw [String.ofList_append, bytes_append, List.getElem?_append_right, length_bytes_ofList,
    Nat.add_sub_cancel_left]
  rw [length_bytes_ofList]
  omega

theorem bytes_replicate_space (n : Nat) :
    bytes (String.ofList (List.replicate n ' ')) = List.replicate n ' '.toUInt8 := by
  rw [bytes_ofList]
  induction n with
  | zero => rfl
  | succ n ih =>
    rw [List.replicate_succ, List.flatMap_cons, ih]
    rfl

theorem utf8Len_replicate_space (n : Nat) : String.utf8Len (List.replicate n ' ') = n := by
  rw [← length_bytes_ofList, bytes_replicate_space, List.length_replicate]

/-- Two texts of one size, the first of which agrees with the second at some bytes and is a space at
all others, are equal exactly if the second is a space there as well. -/
theorem eq_iff_of_bytes {shown text : String} {P : Nat → Prop}
    (hsize : shown.utf8ByteSize = text.utf8ByteSize)
    (hagree : ∀ i < text.utf8ByteSize, P i → (bytes shown)[i]? = (bytes text)[i]?)
    (hspace : ∀ i < text.utf8ByteSize, ¬ P i → (bytes shown)[i]? = some ' '.toUInt8) :
    shown = text ↔
      ∀ i < text.utf8ByteSize, ¬ P i → (bytes text)[i]? = some ' '.toUInt8 := by
  constructor
  · rintro rfl
    exact hspace
  · intro h
    apply bytes_injective
    ext1 i
    by_cases hi : i < text.utf8ByteSize
    · by_cases hP : P i
      · exact hagree i hi hP
      · rw [hspace i hi hP, h i hi hP]
    · rw [List.getElem?_eq_none (by rw [length_bytes]; omega),
        List.getElem?_eq_none (by rw [length_bytes]; omega)]

/-! ### What is shown of pieces -/

/-- A byte of the source belongs to a token. -/
def Token.Covers (t : Token) (i : Nat) : Prop := t.offset ≤ i ∧ i < t.stop

namespace Piece

/-- A token is shown as it is, all else as spaces. -/
def shownText (p : Piece) : List Char :=
  if p.isFiller then List.replicate (String.utf8Len p.text) ' ' else p.text

theorem token?_filler {p : Position} {piece : Piece} (h : piece.isFiller) :
    token? (p, piece) = none := by
  obtain ⟨kind, text⟩ := piece
  cases kind with
  | token kind => cases h
  | _ => rfl

/-- What is shown of some pieces. -/
def shownOf (ps : List Piece) : List Char := (ps.map shownText).flatten

theorem shownOf_cons (p : Piece) (ps : List Piece) :
    shownOf (p :: ps) = p.shownText ++ shownOf ps := rfl

theorem utf8Len_shownText (p : Piece) : String.utf8Len p.shownText = String.utf8Len p.text := by
  unfold shownText
  split_ifs
  · exact utf8Len_replicate_space _
  · rfl

theorem utf8Len_shownOf (ps : List Piece) :
    String.utf8Len (shownOf ps) = String.utf8Len (textOf ps) := by
  induction ps with
  | nil => rfl
  | cons p ps ih =>
    rw [shownOf_cons, textOf_cons, String.utf8Len_append, String.utf8Len_append,
      utf8Len_shownText, ih]

end Piece

open Piece

namespace Statement

/-- What is shown of tokens behind an offset. -/
def spacedFrom (offset : Nat) : List Token → List Char
  | [] => []
  | t :: ts => List.replicate (t.offset - offset) ' ' ++ spaced (t :: ts)

theorem spaced_cons (t : Token) (ts : List Token) :
    spaced (t :: ts) = t.text.toList ++ spacedFrom t.stop ts := by
  cases ts with
  | nil => rw [spaced, spacedFrom, List.append_nil]
  | cons u ts => rw [spaced, spacedFrom, List.append_assoc]

/-- A filler in front of tokens adds as many spaces as it has bytes. -/
theorem spacedFrom_filler {p : Position} {text : List Char} {ts : List Token} (hts : ts ≠ [])
    (hbehind : ∀ t ∈ ts, (p.after text).offset ≤ t.offset) :
    spacedFrom p.offset ts =
      List.replicate (String.utf8Len text) ' ' ++ spacedFrom (p.after text).offset ts := by
  cases ts with
  | nil => exact absurd rfl hts
  | cons t ts =>
    have hle := hbehind t List.mem_cons_self
    rw [Position.offset_after] at hle
    rw [spacedFrom, spacedFrom, ← List.append_assoc, List.replicate_append_replicate,
      Position.offset_after]
    congr 2
    omega

/-- Pieces that end with a token have tokens. -/
theorem filterMap_token?_ne_nil {p : Position} {ps : List Piece} (hps : ps ≠ [])
    (hlast : ∀ piece ∈ ps.getLast?, ¬ piece.isFiller) : (placed p ps).filterMap token? ≠ [] := by
  obtain ⟨init, piece, rfl⟩ := (List.eq_nil_or_concat' ps).resolve_left hps
  obtain ⟨kind, text, rfl⟩ := exists_token_of_not_isFiller (hlast piece (by simp))
  simp [placed_append, placed, token?]

/-- The tokens of pieces are shown as the pieces, if nothing stands behind the last token. -/
theorem spacedFrom_placed (p : Position) (ps : List Piece)
    (hlast : ∀ piece ∈ ps.getLast?, ¬ piece.isFiller) :
    spacedFrom p.offset ((placed p ps).filterMap token?) = shownOf ps := by
  induction ps generalizing p with
  | nil => rfl
  | cons piece rest ih =>
    have hrest : ∀ q ∈ rest.getLast?, ¬ q.isFiller := by
      intro q hq
      apply hlast q
      rw [List.getLast?_cons, hq]
      rfl
    rw [placed, List.filterMap_cons, shownOf_cons, ← ih (p.after piece.text) hrest]
    by_cases hfiller : piece.isFiller
    · have hne : rest ≠ [] := by
        rintro rfl
        exact hlast piece rfl hfiller
      rw [token?_filler hfiller, shownText, if_pos hfiller]
      exact spacedFrom_filler (filterMap_token?_ne_nil hne hrest) (pairwise_tokens _ rest).2
    · obtain ⟨kind, text, rfl⟩ := exists_token_of_not_isFiller hfiller
      show spacedFrom p.offset (_ :: _) = _
      rw [spacedFrom, spaced_cons, stop_token, shownText, if_neg hfiller]
      simp

/-- Pieces from one token to another are shown as their tokens. -/
theorem spaced_placed {p : Position} {ps : List Piece}
    (hfirst : ∀ piece ∈ ps.head?, ¬ piece.isFiller)
    (hlast : ∀ piece ∈ ps.getLast?, ¬ piece.isFiller) :
    spaced ((placed p ps).filterMap token?) = shownOf ps := by
  rw [← spacedFrom_placed p ps hlast]
  cases ps with
  | nil => rfl
  | cons piece rest =>
    obtain ⟨kind, text, rfl⟩ := exists_token_of_not_isFiller (hfirst piece rfl)
    simp [placed, token?, spacedFrom]

end Statement

/-- Bytes behind the first piece belong to the tokens behind it. -/
theorem covers_placed_cons {p : Position} {piece : Piece} {rest : List Piece} {i : Nat}
    (h : (p.after piece.text).offset ≤ i) :
    (∃ t ∈ (placed p (piece :: rest)).filterMap token?, t.Covers i) ↔
      ∃ t ∈ (placed (p.after piece.text) rest).filterMap token?, t.Covers i := by
  rw [placed, List.filterMap_cons]
  cases htoken : token? (p, piece) with
  | none => rfl
  | some t =>
    obtain ⟨kind, text, rfl, rfl⟩ := token?_eq_some htoken
    constructor
    · rintro ⟨u, hu, hcovers⟩
      rcases List.mem_cons.mp hu with rfl | hu
      · have hlt := hcovers.2
        rw [stop_token] at hlt
        exact absurd h (Nat.not_le.mpr hlt)
      · exact ⟨u, hu, hcovers⟩
    · rintro ⟨u, hu, hcovers⟩
      exact ⟨u, List.mem_cons_of_mem _ hu, hcovers⟩

/-- A byte of what is shown is that of the text if it belongs to a token, and a space if not. -/
theorem getElem?_bytes_shownOf (p : Position) (ps : List Piece) {i : Nat}
    (hi : i < String.utf8Len (textOf ps)) :
    ((∃ t ∈ (placed p ps).filterMap token?, t.Covers (p.offset + i)) →
      (bytes (String.ofList (shownOf ps)))[i]? = (bytes (String.ofList (textOf ps)))[i]?) ∧
    ((¬ ∃ t ∈ (placed p ps).filterMap token?, t.Covers (p.offset + i)) →
      (bytes (String.ofList (shownOf ps)))[i]? = some ' '.toUInt8) := by
  induction ps generalizing p i with
  | nil => exact absurd hi (Nat.not_lt_zero i)
  | cons piece rest ih =>
    have hafter := Position.offset_after p piece.text
    have hbehind := (pairwise_tokens (p.after piece.text) rest).2
    rw [textOf_cons, shownOf_cons]
    by_cases hwithin : i < String.utf8Len piece.text
    · -- the byte belongs to the first piece, and to no token behind it
      rw [getElem?_bytes_append_left hwithin,
        getElem?_bytes_append_left (by rwa [utf8Len_shownText])]
      by_cases hfiller : piece.isFiller
      · refine ⟨?_, fun _ => ?_⟩
        · rintro ⟨t, ht, hcovers⟩
          rw [placed, List.filterMap_cons, token?_filler hfiller] at ht
          have hle := hbehind t ht
          have hstart := hcovers.1
          omega
        · rw [shownText, if_pos hfiller, bytes_replicate_space,
            List.getElem?_replicate_of_lt hwithin]
      · obtain ⟨kind, text, rfl⟩ := exists_token_of_not_isFiller hfiller
        refine ⟨fun _ => ?_, fun hnone => absurd ?_ hnone⟩
        · rw [shownText, if_neg hfiller]
        · refine ⟨_, List.mem_cons_self, Nat.le_add_right _ _, ?_⟩
          rw [stop_token, hafter]
          exact Nat.add_lt_add_left hwithin _
    · -- the byte stands behind the first piece
      obtain ⟨j, rfl⟩ := Nat.exists_eq_add_of_le (Nat.le_of_not_lt hwithin)
      rw [textOf_cons, String.utf8Len_append] at hi
      have hrest := ih (p.after piece.text) (i := j) (by omega)
      have hshown := getElem?_bytes_append_right piece.shownText (shownOf rest) j
      rw [utf8Len_shownText] at hshown
      rw [hafter, Nat.add_assoc] at hrest
      rw [covers_placed_cons (by omega), getElem?_bytes_append_right, hshown]
      exact hrest

namespace Statement

/-- The tokens of a span. -/
def spanned (st : Statement) (span : Span) : List Token :=
  (st.tokens.take span.stop).drop span.start

theorem tokens_ofTokens (ts : List Token) : (ofTokens ts).tokens = ts := by
  unfold ofTokens
  split <;> rfl

/-- The tokens of a span follow one another in the source. -/
theorem exists_flatTokens_eq {source : String} {st : Statement} {span : Span}
    (hst : st ∈ parseScript source) (hspan : span.start ≤ span.stop) :
    ∃ front back, flatTokens source = front ++ (st.spanned span ++ back) := by
  obtain ⟨ts, hts, rfl⟩ := List.mem_map.mp hst
  obtain ⟨groups, groups', hgroups⟩ := List.append_of_mem hts
  refine ⟨groups.flatten ++ ts.take span.start, ts.drop span.stop ++ groups'.flatten, ?_⟩
  have hcut : ts.take span.start ++ ((ts.take span.stop).drop span.start ++ ts.drop span.stop) =
      ts := by
    calc ts.take span.start ++ ((ts.take span.stop).drop span.start ++ ts.drop span.stop)
        = (ts.take span.stop).take span.start ++ (ts.take span.stop).drop span.start ++
            ts.drop span.stop := by rw [List.take_take, Nat.min_eq_left hspan, List.append_assoc]
      _ = ts := by rw [List.take_append_drop, List.take_append_drop]
  calc flatTokens source
      = groups.flatten ++ (ts ++ groups'.flatten) := by
        rw [flatTokens, hgroups, List.flatten_append, List.flatten_cons]
    _ = groups.flatten ++ (ts.take span.start ++ ((ts.take span.stop).drop span.start ++
          ts.drop span.stop) ++ groups'.flatten) := by rw [hcut]
    _ = _ := by simp only [spanned, tokens_ofTokens, List.append_assoc]

/-- A span is a stretch of pieces that starts and ends with a token. -/
theorem exists_stretch {source : String} {front back ts : List Token}
    (h : flatTokens source = front ++ (ts ++ back)) :
    ∃ before middle after : List Piece, pieces source.toList = before ++ middle ++ after ∧
      (placed (Position.start.after (textOf before)) middle).filterMap token? = ts ∧
      (∀ piece ∈ middle.head?, ¬ piece.isFiller) ∧
      ∀ piece ∈ middle.getLast?, ¬ piece.isFiller := by
  rw [flatTokens_eq] at h
  obtain ⟨init, gap, rest, hpieces, -, -, hrest, -, hfirst⟩ := exists_gap h
  obtain ⟨middle, gap', after, rfl, -, hmiddle, -, hlast, -⟩ := exists_gap hrest
  refine ⟨init ++ gap, middle, gap' ++ after, ?_, hmiddle, fun piece hpiece => hfirst piece ?_,
    hlast⟩
  · simpa using hpieces
  · rw [List.append_assoc, List.head?_append, Option.mem_def.mp hpiece]
    rfl

/-- A byte between two tokens of a stretch belongs to no token but those of the stretch. -/
theorem mem_of_covers {source : String} {front ts back : List Token} {first last t : Token}
    {i : Nat} (h : flatTokens source = front ++ (ts ++ back)) (hfirst : ts.head? = some first)
    (hlast : ts.getLast? = some last) (hle : first.offset ≤ i) (hlt : i < last.stop)
    (ht : t ∈ flatTokens source) (hcovers : t.Covers i) : t ∈ ts := by
  have hpairwise := (pairwise_tokens .start (pieces source.toList)).1
  rw [← flatTokens_eq, h] at hpairwise
  obtain ⟨-, hrest, hfront⟩ := List.pairwise_append.mp hpairwise
  obtain ⟨-, -, hback⟩ := List.pairwise_append.mp hrest
  obtain ⟨hstart, hstop⟩ := hcovers
  rw [h] at ht
  rcases List.mem_append.mp ht with ht | ht
  · have hbefore := hfront t ht first (List.mem_append_left _ (List.mem_of_head? hfirst))
    omega
  · rcases List.mem_append.mp ht with ht | ht
    · exact ht
    · have hbehind := hback last (List.mem_of_getLast? hlast) t ht
      omega

/-- Pieces that start with a token start where it does. -/
theorem place_of_head? {p : Position} {ps : List Piece} {t : Token}
    (hfirst : ∀ piece ∈ ps.head?, ¬ piece.isFiller)
    (ht : ((placed p ps).filterMap token?).head? = some t) :
    t.line = p.line ∧ t.column = p.column ∧ t.offset = p.offset := by
  cases ps with
  | nil => cases ht
  | cons piece rest =>
    obtain ⟨kind, text, rfl⟩ := exists_token_of_not_isFiller (hfirst piece rfl)
    obtain rfl := Option.some.inj ht
    exact ⟨rfl, rfl, rfl⟩

theorem spanned_ne_nil {st : Statement} {span : Span} (hspan : span.Fits st.tokens.length) :
    st.spanned span ≠ [] := by
  have hfilled := hspan.filled
  have hwithin := hspan.within
  apply List.ne_nil_of_length_pos
  rw [spanned, List.length_drop, List.length_take]
  omega

theorem head?_spanned {st : Statement} {span : Span} (hspan : span.Fits st.tokens.length) :
    (st.spanned span).head? = st.tokens[span.start]? := by
  rw [spanned, List.head?_drop, List.getElem?_take_of_lt hspan.filled]

theorem getLast?_spanned {st : Statement} {span : Span} (hspan : span.Fits st.tokens.length) :
    (st.spanned span).getLast? = st.tokens[span.stop - 1]? := by
  have hfilled := hspan.filled
  have hwithin := hspan.within
  rw [spanned, List.getLast?_drop, if_neg (by rw [List.length_take]; omega), List.getLast?_take,
    if_neg (by omega), List.getElem?_eq_getElem (by omega)]
  rfl

/-- A snippet shows the stretch of the source from the first to the last token of its span.  It has
as many bytes.  Where a byte belongs to a token, the snippet agrees with the source, and elsewhere
it is a space; so the two are equal exactly if only spaces stand between the tokens of the span.
The location of a span is the line and the column where this stretch begins. -/
theorem snippet_reproduces {source : String} {st : Statement} {span : Span}
    (hst : st ∈ parseScript source) (hspan : span.Fits st.tokens.length) :
    ∃ first ∈ st.tokens[span.start]?, ∃ last ∈ st.tokens[span.stop - 1]?,
    ∃ before text after : String, source = before ++ text ++ after ∧
      before.utf8ByteSize = first.offset ∧ (before ++ text).utf8ByteSize = last.stop ∧
      (st.snippet span).utf8ByteSize = text.utf8ByteSize ∧
      (∀ i < text.utf8ByteSize, ∀ t ∈ flatTokens source, t.Covers (first.offset + i) →
        (bytes (st.snippet span))[i]? = (bytes text)[i]?) ∧
      (∀ i < text.utf8ByteSize, (¬ ∃ t ∈ st.spanned span, t.Covers (first.offset + i)) →
        (bytes (st.snippet span))[i]? = some ' '.toUInt8) ∧
      (st.snippet span = text ↔ ∀ i < text.utf8ByteSize,
        (¬ ∃ t ∈ st.spanned span, t.Covers (first.offset + i)) →
          (bytes text)[i]? = some ' '.toUInt8) ∧
      st.location? span = some (1 + before.toList.count '\n',
        1 + (String.ofList (lastLine before.toList)).utf8ByteSize) := by
  have hne := spanned_ne_nil hspan
  have hfirst := List.head?_eq_some_head hne
  have hlast := List.getLast?_eq_some_getLast hne
  set first := (st.spanned span).head hne
  set last := (st.spanned span).getLast hne
  obtain ⟨front, back, hflat⟩ := exists_flatTokens_eq hst (Nat.le_of_lt hspan.filled)
  obtain ⟨before, middle, after, hpieces, hmiddle, hhead, htail⟩ := exists_stretch hflat
  set p := Position.start.after (textOf before) with hp
  have hplace : p.offset = String.utf8Len (textOf before) := by
    rw [hp, Position.offset_after]
    exact Nat.zero_add _
  obtain ⟨hline, hcolumn, hfrom⟩ := place_of_head? hhead (hmiddle ▸ hfirst)
  have hto : p.offset + String.utf8Len (textOf middle) = last.stop := by
    have hafter := offset_after_before (p := p) htail
    rwa [Position.offset_after, hmiddle, hlast] at hafter
  have hsnippet : st.snippet span = String.ofList (shownOf middle) := by
    rw [snippet, ← spanned, ← hmiddle, spaced_placed hhead htail]
  have hsize : (st.snippet span).utf8ByteSize = (String.ofList (textOf middle)).utf8ByteSize := by
    rw [hsnippet, String.utf8ByteSize_ofList, String.utf8ByteSize_ofList, utf8Len_shownOf]
  have hbytes := fun i hi => getElem?_bytes_shownOf p middle (i := i) hi
  rw [hmiddle, ← hfrom, ← hsnippet, ← String.utf8ByteSize_ofList] at hbytes
  have hagree := fun i hi => (hbytes i hi).1
  have hspace := fun i hi => (hbytes i hi).2
  refine ⟨first, by rwa [← head?_spanned hspan], last, by rwa [← getLast?_spanned hspan],
    String.ofList (textOf before), String.ofList (textOf middle), String.ofList (textOf after),
    source_eq hpieces, ?_, ?_, hsize, fun i hi t ht hcovers => ?_, hspace,
    eq_iff_of_bytes hsize hagree hspace, ?_⟩
  · rw [String.utf8ByteSize_ofList, ← hplace, hfrom]
  · rw [String.utf8ByteSize_append, String.utf8ByteSize_ofList, String.utf8ByteSize_ofList,
      ← hplace, hto]
  · rw [String.utf8ByteSize_ofList] at hi
    exact hagree i (by rwa [String.utf8ByteSize_ofList])
      ⟨t, mem_of_covers hflat hfirst hlast (by omega) (by omega) ht hcovers, hcovers⟩
  · rw [location?, ← head?_spanned hspan, hfirst]
    show some (first.line, first.column) = _
    rw [hline, hcolumn, hp, Position.line_after, Position.column_after_start, String.toList_ofList,
      String.utf8ByteSize_ofList]
    rfl

/-- A stretch of six bytes with a character of two bytes and a continued line. -/
theorem snippet_reproduces_continued :
    ∃ st ∈ parseScript "x = é\\\n + y", ∃ before text after : String,
      "x = é\\\n + y" = before ++ text ++ after ∧ before.utf8ByteSize = 4 ∧
      (st.snippet ⟨2, 4⟩).utf8ByteSize = 6 ∧ text.utf8ByteSize = 6 := by
  have hoffsets : (tokenize "x = é\\\n + y").map (·.map fun t => (t.offset, t.stop)) =
      [[(0, 1), (2, 3), (4, 6), (9, 10), (11, 12)]] := by cbv
  obtain ⟨ts, hts, hplaces⟩ := List.map_eq_singleton_iff.mp hoffsets
  have hst : ofTokens ts ∈ parseScript "x = é\\\n + y" :=
    List.mem_map_of_mem (hts ▸ List.mem_singleton_self ts)
  have hspan : Span.Fits ⟨2, 4⟩ (ofTokens ts).tokens.length := by
    rw [tokens_ofTokens, ← List.length_map, hplaces]
    exact ⟨by decide, by decide⟩
  have hplace : ∀ {i : Nat} {t : Token}, t ∈ (ofTokens ts).tokens[i]? →
      [(0, 1), (2, 3), (4, 6), (9, 10), (11, 12)][i]? = some (t.offset, t.stop) := by
    intro i t ht
    rw [tokens_ofTokens] at ht
    rw [← hplaces, List.getElem?_map, Option.mem_def.mp ht]
    rfl
  obtain ⟨first, hfirst, last, hlast, before, text, after, hsource, hbefore, htext, hsize, -⟩ :=
    snippet_reproduces hst hspan
  obtain ⟨hoffset, -⟩ := Prod.mk.inj (Option.some.inj (hplace hfirst))
  obtain ⟨-, hstop⟩ := Prod.mk.inj (Option.some.inj (hplace hlast))
  rw [String.utf8ByteSize_append] at htext
  exact ⟨_, hst, before, text, after, hsource, by omega, by omega, by omega⟩

end Statement

end VectorScript
