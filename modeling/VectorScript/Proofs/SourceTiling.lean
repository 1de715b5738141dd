import VectorScript.Proofs.PlacedTokens

/-!
# Tokens tile their source

Every character of a source stands in one token or in the gap between two tokens.  A gap is filled
by blanks, separators, comments up to the end of their line, and continuations; it divides two
statements if one of these is a separator.

* `Piece.HasForm`: what pieces of each kind look like.
* `Piece.Fills`: what may stand between tokens.
* `exists_gap`: the pieces between two tokens that follow one another.
* `tokens_tile_source`: texts, places and gaps of all tokens of a source.
-/

namespace VectorScript

namespace Piece

/-! ### Forms of pieces -/

/-- What a piece looks like in front of `rest`.  A comment goes to the end of its line; a
continuation takes the newline with it. -/
def HasForm (p : Piece) (rest : List Char) : Prop :=
  match p.kind with
  | .token _ => p.text ≠ []
  | .blank => ∀ c ∈ p.text, isBlank c
  | .separator => p.text = ['\n'] ∨ p.text = [';']
  | .comment =>
    (∃ words, p.text = '/' :: '/' :: words ∧ '\n' ∉ words) ∧ (rest = [] ∨ rest.head? = some '\n')
  | .continuation =>
    ∃ blanks : List Char, (∀ c ∈ blanks, isBlank c) ∧
      (p.text = '\\' :: blanks ++ ['\n'] ∨ p.text = '\\' :: blanks ∧ rest = [])

def isFiller (p : Piece) : Bool :=
  match p.kind with
  | .token _ => false
  | _ => true

/-- Pieces that follow one another in front of `rest`, all in their forms. -/
def Formed (rest : List Char) : List Piece → Prop
  | [] => True
  | p :: ps => p.HasForm (textOf ps ++ rest) ∧ Formed rest ps

/-- Blanks, separators, comments and continuations that stand in front of `rest`. -/
def Fills (gap : List Piece) (rest : List Char) : Prop :=
  (∀ p ∈ gap, p.isFiller) ∧ Formed rest gap

theorem formed_append {rest : List Char} {ps qs : List Piece} :
    Formed rest (ps ++ qs) ↔ Formed (textOf qs ++ rest) ps ∧ Formed rest qs := by
  induction ps with
  | nil => simp [Formed]
  | cons p ps ih => simp [Formed, ih, and_assoc]

theorem signPiece_isToken (c : Char) (cs : List Char) :
    ∃ kind, (signPiece c cs).1 = .token kind := by
  unfold signPiece pointTail signTail
  split <;> first
    | exact ⟨_, rfl⟩
    | (split <;> exact ⟨_, rfl⟩)

theorem continuation_hasForm {cs tail : List Char} (h : continuationTail? cs = some tail) :
    HasForm ⟨.continuation, '\\' :: tail⟩ (cs.drop tail.length) := by
  unfold continuationTail? at h
  split at h
  · rename_i hall
    obtain rfl := Option.some.inj h
    exact ⟨cs, by simpa [List.dropWhile_eq_nil_iff] using hall, .inr ⟨rfl, by simp⟩⟩
  · split at h
    · obtain rfl := Option.some.inj h
      exact ⟨cs.takeWhile isBlank, fun c hc => List.mem_takeWhile_imp hc, .inl rfl⟩
    · cases h

theorem drop_length_takeWhile (p : Char → Bool) (cs : List Char) :
    cs.drop (cs.takeWhile p).length = cs.dropWhile p := by
  calc cs.drop (cs.takeWhile p).length
      = (cs.takeWhile p ++ cs.dropWhile p).drop (cs.takeWhile p).length := by
        rw [List.takeWhile_append_dropWhile]
    _ = cs.dropWhile p := List.drop_left

theorem comment_hasForm {cs : List Char} (h : cs.head? = some '/') :
    HasForm ⟨.comment, '/' :: cs.takeWhile (· != '\n')⟩
      (cs.drop (cs.takeWhile (· != '\n')).length) := by
  obtain ⟨cs, rfl⟩ : ∃ cs', cs = '/' :: cs' := by
    cases cs with
    | nil => cases h
    | cons c cs => exact ⟨cs, by simp_all⟩
  refine ⟨⟨cs.takeWhile (· != '\n'), by simp, fun hmem => ?_⟩, ?_⟩
  · simpa using List.mem_takeWhile_imp hmem
  · rw [drop_length_takeWhile]
    have hstop := List.head?_dropWhile_not (· != '\n') ('/' :: cs)
    cases hrest : ('/' :: cs).dropWhile (· != '\n') with
    | nil => exact .inl rfl
    | cons c rest => simp_all

/-- The first piece of a text has the form of its kind. -/
theorem first_hasForm (c : Char) (cs : List Char) :
    HasForm ⟨(first c cs).1, c :: (first c cs).2⟩ (cs.drop (first c cs).2.length) := by
  unfold first
  split_ifs with hblank hseparator hdigit hword hbackslash hcomment
  · show ∀ d ∈ c :: cs.takeWhile isBlank, isBlank d
    exact List.forall_mem_cons.mpr ⟨hblank, fun d hd => List.mem_takeWhile_imp hd⟩
  · show [c] = ['\n'] ∨ [c] = [';']
    simpa [isSeparator] using hseparator
  · exact List.cons_ne_nil _ _
  · exact List.cons_ne_nil _ _
  · obtain rfl : c = '\\' := by simpa using hbackslash
    split
    · rename_i tail htail
      exact continuation_hasForm htail
    · exact List.cons_ne_nil _ _
  · obtain ⟨rfl, hslash⟩ : c = '/' ∧ cs.head? = some '/' := by simpa using hcomment
    exact comment_hasForm hslash
  · obtain ⟨kind, hkind⟩ := signPiece_isToken c cs
    rw [HasForm]
    simp only [hkind]
    exact List.cons_ne_nil _ _

end Piece

open Piece

theorem formed_pieces (text : List Char) : Formed [] (pieces text) := by
  fun_induction pieces text with
  | case1 => trivial
  | case2 c cs kind tail h ih =>
    refine ⟨?_, ih⟩
    have hform := first_hasForm c cs
    rw [h] at hform
    rwa [textOf_pieces, List.append_nil]

/-! ### Tokens among pieces -/

/-- A placed piece stands behind the text of the pieces before it. -/
theorem exists_of_mem_placed {p q : Position} {piece : Piece} {ps : List Piece}
    (h : (q, piece) ∈ placed p ps) :
    ∃ before after, ps = before ++ piece :: after ∧ q = p.after (textOf before) := by
  induction ps generalizing p with
  | nil => cases h
  | cons first rest ih =>
    rcases List.mem_cons.mp h with hfirst | hrest
    · obtain ⟨rfl, rfl⟩ := Prod.mk.inj hfirst
      exact ⟨[], rest, rfl, rfl⟩
    · obtain ⟨before, after, rfl, rfl⟩ := ih hrest
      exact ⟨first :: before, after, rfl, (Position.after_append ..).symm⟩

theorem token?_eq_some {p : Position} {piece : Piece} {t : Token}
    (h : token? (p, piece) = some t) :
    ∃ kind text, piece = ⟨.token kind, text⟩ ∧
      t = ⟨kind, String.ofList text, p.line, p.column, p.offset⟩ := by
  obtain ⟨kind, text⟩ := piece
  cases kind with
  | token kind => exact ⟨kind, text, rfl, (Option.some.inj h).symm⟩
  | _ => cases h

/-- A token ends where the text of its piece does. -/
theorem stop_token (kind : Token.Kind) (text : List Char) (p : Position) :
    Token.stop ⟨kind, String.ofList text, p.line, p.column, p.offset⟩ = (p.after text).offset := by
  rw [Token.stop, Position.offset_after, String.utf8ByteSize_ofList]

theorem filterMap_token?_fillers {gap : List Piece} (h : ∀ p ∈ gap, p.isFiller) (p : Position) :
    (placed p gap).filterMap token? = [] := by
  rw [List.filterMap_eq_nil_iff]
  rintro ⟨q, piece⟩ hmem
  obtain ⟨before, after, rfl, -⟩ := exists_of_mem_placed hmem
  have hfiller := h piece (by simp)
  obtain ⟨kind, text⟩ := piece
  cases kind <;> simp_all [isFiller, token?]

/-- Tokens do not overlap, and stand in the order of their places. -/
theorem pairwise_tokens (p : Position) (ps : List Piece) :
    ((placed p ps).filterMap token?).Pairwise (fun t u => t.stop ≤ u.offset) ∧
      ∀ u ∈ (placed p ps).filterMap token?, p.offset ≤ u.offset := by
  induction ps generalizing p with
  | nil => simp [placed]
  | cons piece rest ih =>
    obtain ⟨hpairwise, hle⟩ := ih (p.after piece.text)
    have hafter := Position.offset_after p piece.text
    rw [placed, List.filterMap_cons]
    cases htoken : token? (p, piece) with
    | none => exact ⟨hpairwise, fun u hu => by have := hle u hu; omega⟩
    | some t =>
      obtain ⟨kind, text, rfl, rfl⟩ := token?_eq_some htoken
      have hstop := stop_token kind text p
      refine ⟨List.pairwise_cons.mpr ⟨fun u hu => ?_, hpairwise⟩, fun u hu => ?_⟩
      · rw [hstop]
        exact hle u hu
      · rcases List.mem_cons.mp hu with rfl | hu
        · exact Nat.le_refl _
        · have := hle u hu
          omega

/-- Where a list of tokens is cut in two, a gap stands between pieces that end and start with a
token. -/
theorem exists_gap {p : Position} {ps : List Piece} {front back : List Token}
    (h : (placed p ps).filterMap token? = front ++ back) :
    ∃ before gap after : List Piece, ps = before ++ gap ++ after ∧ (∀ p ∈ gap, p.isFiller) ∧
      (placed p before).filterMap token? = front ∧
      (placed (p.after (textOf (before ++ gap))) after).filterMap token? = back ∧
      (∀ piece ∈ before.getLast?, ¬ piece.isFiller) ∧ ∀ piece ∈ after.head?, ¬ piece.isFiller := by
  obtain ⟨xs, ys, hsplit, hxs, hys⟩ := List.filterMap_eq_append_iff.mp h
  obtain ⟨as, bs, rfl, rfl, rfl⟩ : ∃ as bs, ps = as ++ bs ∧ xs = placed p as ∧
      ys = placed (p.after (textOf as)) bs := by
    have hps : ps = xs.map Prod.snd ++ ys.map Prod.snd := by
      rw [← List.map_append, ← hsplit, map_snd_placed]
    refine ⟨_, _, hps, ?_⟩
    rw [hps, placed_append] at hsplit
    obtain ⟨h₁, h₂⟩ := List.append_inj hsplit (by
      rw [← List.length_map Prod.snd, map_snd_placed, List.length_map])
    exact ⟨h₁.symm, h₂.symm⟩
  -- the fillers at the end of the front and at the start of the back make the gap
  have has : as = as.rdropWhile isFiller ++ as.rtakeWhile isFiller :=
    List.rdropWhile_append_rtakeWhile.symm
  have hbs : bs = bs.takeWhile isFiller ++ bs.dropWhile isFiller :=
    List.takeWhile_append_dropWhile.symm
  have hfront : ∀ piece ∈ as.rtakeWhile isFiller, piece.isFiller :=
    fun _ hpiece => List.mem_rtakeWhile_imp hpiece
  have hback : ∀ piece ∈ bs.takeWhile isFiller, piece.isFiller :=
    fun _ hpiece => List.mem_takeWhile_imp hpiece
  refine ⟨as.rdropWhile isFiller, as.rtakeWhile isFiller ++ bs.takeWhile isFiller,
    bs.dropWhile isFiller, ?_, ?_, ?_, ?_, ?_, ?_⟩
  · rw [← List.append_assoc, ← has, List.append_assoc, ← hbs]
  · exact List.forall_mem_append.mpr ⟨hfront, hback⟩
  · rw [← hxs]
    conv_rhs => rw [has, placed_append, List.filterMap_append,
      filterMap_token?_fillers hfront, List.append_nil]
  · rw [← hys]
    conv_rhs => rw [hbs, placed_append, List.filterMap_append,
      filterMap_token?_fillers hback, List.nil_append]
    rw [← List.append_assoc, ← has, textOf_append, Position.after_append]
  · intro piece hpiece
    obtain ⟨init, hinit⟩ := List.mem_getLast?_eq_getLast hpiece
    have hlast := List.rdropWhile_last_not isFiller as init
    rwa [← hinit] at hlast
  · intro piece hpiece
    have hstop := List.head?_dropWhile_not isFiller bs
    rw [Option.mem_def.mp hpiece] at hstop
    simpa using hstop

/-! ### Statements -/

/-- Fillers that divide nothing leave the groups behind them as they are. -/
theorem tokenGroups_fillers {gap : List Piece} (hfillers : ∀ p ∈ gap, p.isFiller)
    (hdivide : ∀ p ∈ gap, p.kind ≠ .separator) (p : Position) (ys : List (Position × Piece)) :
    tokenGroups (placed p gap ++ ys) = tokenGroups ys := by
  induction gap generalizing p with
  | nil => rfl
  | cons piece gap ih =>
    obtain ⟨hfiller, hfillers⟩ := List.forall_mem_cons.mp hfillers
    obtain ⟨hkind, hdivide⟩ := List.forall_mem_cons.mp hdivide
    obtain ⟨group, groups, hgroups⟩ := List.exists_cons_of_ne_nil (tokenGroups_ne_nil ys)
    have htoken : token? (p, piece) = none := by
      obtain ⟨kind, text⟩ := piece
      cases kind <;> simp_all [isFiller, token?]
    rw [placed, List.cons_append, tokenGroups_cons, ih hfillers hdivide, if_neg hkind, htoken,
      hgroups]
    rfl

/-- The first group behind some pieces is the end of a group. -/
theorem exists_group_append (xs ys : List (Position × Piece)) :
    ∃ front, front ++ (tokenGroups ys).headD [] ∈ tokenGroups (xs ++ ys) := by
  induction xs with
  | nil =>
    obtain ⟨group, groups, hgroups⟩ := List.exists_cons_of_ne_nil (tokenGroups_ne_nil ys)
    exact ⟨[], by simp [hgroups]⟩
  | cons x xs ih =>
    obtain ⟨front, hfront⟩ := ih
    obtain ⟨group, groups, hgroups⟩ := List.exists_cons_of_ne_nil (tokenGroups_ne_nil (xs ++ ys))
    rw [List.cons_append, tokenGroups_cons]
    rw [hgroups] at hfront ⊢
    split
    · exact ⟨front, List.mem_cons_of_mem _ hfront⟩
    · rcases List.mem_cons.mp hfront with rfl | hfront
      · exact ⟨(token? x).toList ++ front, by simp⟩
      · exact ⟨front, List.mem_cons_of_mem _ hfront⟩

theorem exists_token_of_not_isFiller {piece : Piece} (h : ¬ piece.isFiller) :
    ∃ kind text, piece = ⟨.token kind, text⟩ := by
  obtain ⟨kind, text⟩ := piece
  cases kind with
  | token kind => exact ⟨kind, text, rfl⟩
  | _ => exact absurd rfl h

section Gap

variable {p : Position} {before gap after : List Piece}

/-- Pieces that end with a token end where it does. -/
theorem offset_after_before (hlast : ∀ piece ∈ before.getLast?, ¬ piece.isFiller) :
    (p.after (textOf before)).offset =
      ((((placed p before).filterMap token?).getLast?).map Token.stop).getD p.offset := by
  rcases List.eq_nil_or_concat' before with rfl | ⟨init, piece, rfl⟩
  · rfl
  · obtain ⟨kind, text, rfl⟩ := exists_token_of_not_isFiller (hlast piece (by simp))
    rw [placed_append, List.filterMap_append, textOf_append, Position.after_append]
    simp [placed, token?, stop_token]

/-- Pieces that start with a token start where it does. -/
theorem offset_before_after (hfirst : ∀ piece ∈ after.head?, ¬ piece.isFiller) :
    p.offset = (((placed p after).filterMap token?).head?.map Token.offset).getD
      (p.after (textOf after)).offset := by
  cases after with
  | nil => rfl
  | cons piece rest =>
    obtain ⟨kind, text, rfl⟩ := exists_token_of_not_isFiller (hfirst piece rfl)
    simp [placed, token?]

/-- The tokens on both sides of a gap are in one group exactly if no separator stands in it. -/
theorem mem_group_iff (hfillers : ∀ piece ∈ gap, piece.isFiller)
    (hlast : ∀ piece ∈ before.getLast?, ¬ piece.isFiller)
    (hfirst : ∀ piece ∈ after.head?, ¬ piece.isFiller) {front back : List Token}
    (hfront : (placed p before).filterMap token? = front)
    (hback : (placed (p.after (textOf (before ++ gap))) after).filterMap token? = back)
    (hdisjoint : front.Disjoint back) {t u : Token} (ht : t ∈ front.getLast?)
    (hu : u ∈ back.head?) :
    (∃ group ∈ tokenGroups (placed p (before ++ gap ++ after)), t ∈ group ∧ u ∈ group) ↔
      ∀ piece ∈ gap, piece.kind ≠ .separator := by
  constructor
  · rintro ⟨group, hgroup, htgroup, hugroup⟩ piece hpiece hkind
    obtain ⟨gap₁, gap₂, rfl⟩ := List.append_of_mem hpiece
    obtain ⟨hfillers₁, hfillers₂⟩ := List.forall_mem_append.mp hfillers
    have hbehind : ∀ p ∈ gap₂, p.isFiller := (List.forall_mem_cons.mp hfillers₂).2
    -- the groups before the separator hold the tokens in front of the gap, the others those behind
    have hsplit : before ++ (gap₁ ++ piece :: gap₂) ++ after =
        (before ++ gap₁) ++ piece :: (gap₂ ++ after) := by simp
    obtain ⟨kind, text⟩ := piece
    obtain rfl : kind = .separator := hkind
    rw [hsplit, placed_append, placed, tokenGroups_append_separator] at hgroup
    rcases List.mem_append.mp hgroup with hgroup | hgroup
    · have hmem := List.mem_flatten_of_mem hgroup hugroup
      rw [flatten_tokenGroups, placed_append, List.filterMap_append,
        filterMap_token?_fillers hfillers₁, List.append_nil, hfront] at hmem
      exact hdisjoint hmem (List.mem_of_mem_head? hu)
    · have hmem := List.mem_flatten_of_mem hgroup htgroup
      rw [flatten_tokenGroups, placed_append, List.filterMap_append,
        filterMap_token?_fillers hbehind, List.nil_append, ← Position.after_append,
        ← Position.after_append] at hmem
      have hplace : textOf (before ++ gap₁) ++ (text ++ textOf gap₂) =
          textOf (before ++ (gap₁ ++ ⟨.separator, text⟩ :: gap₂)) := by simp
      rw [hplace, hback] at hmem
      exact hdisjoint (List.mem_of_getLast? ht) hmem
  · intro hdivide
    -- nothing divides, so the group of the second token goes on with it behind the first one
    rcases List.eq_nil_or_concat' before with rfl | ⟨init, piece, rfl⟩
    · subst hfront
      cases ht
    cases after with
    | nil =>
      subst hback
      cases hu
    | cons next rest =>
      obtain ⟨kind, text, rfl⟩ := exists_token_of_not_isFiller (hlast piece (by simp))
      obtain ⟨kind', text', rfl⟩ := exists_token_of_not_isFiller (hfirst next rfl)
      subst hfront hback
      simp only [placed_append, List.filterMap_append, placed, token?, List.filterMap_cons,
        List.filterMap_nil, List.getLast?_concat, List.head?_cons, Option.mem_some_iff] at ht hu
      have hpieces : init ++ [⟨.token kind, text⟩] ++ gap ++ ⟨.token kind', text'⟩ :: rest =
          init ++ (⟨.token kind, text⟩ :: gap) ++ ⟨.token kind', text'⟩ :: rest := by simp
      rw [hpieces, List.append_assoc, placed_append]
      obtain ⟨start, hstart⟩ := exists_group_append (placed p init)
        (placed (p.after (textOf init))
          (⟨.token kind, text⟩ :: gap ++ ⟨.token kind', text'⟩ :: rest))
      refine ⟨_, hstart, ?_, ?_⟩ <;>
        rw [List.cons_append, placed, placed_append, tokenGroups_cons,
          tokenGroups_fillers hfillers hdivide, placed, tokenGroups_cons]
      · simp [token?, ht]
      · simp [token?, ← hu, Position.after_append]

end Gap

/-! ### Sources -/

theorem source_eq {source : String} {before middle after : List Piece}
    (h : pieces source.toList = before ++ middle ++ after) :
    source = String.ofList (textOf before) ++ String.ofList (textOf middle) ++
      String.ofList (textOf after) := by
  rw [← String.ofList_append, ← String.ofList_append, ← textOf_append, ← textOf_append, ← h,
    textOf_pieces, String.ofList_toList]

/-- The text of a token is not empty and stands in the source where the token says. -/
theorem token_stands {source : String} {t : Token} (ht : t ∈ flatTokens source) :
    t.offset < t.stop ∧ ∃ before after : String,
      source = before ++ t.text ++ after ∧ t.offset = before.utf8ByteSize ∧
      t.line = 1 + before.toList.count '\n' ∧
      t.column = 1 + (String.ofList (lastLine before.toList)).utf8ByteSize := by
  rw [flatTokens_eq] at ht
  obtain ⟨⟨q, piece⟩, hmem, hpiece⟩ := List.mem_filterMap.mp ht
  obtain ⟨kind, text, rfl, rfl⟩ := token?_eq_some hpiece
  obtain ⟨before, after, hsplit, rfl⟩ := exists_of_mem_placed hmem
  have hformed := formed_pieces source.toList
  rw [hsplit, formed_append] at hformed
  obtain ⟨c, text, rfl⟩ : ∃ c text', text = c :: text' := List.exists_cons_of_ne_nil hformed.2.1
  constructor
  · have hsize := c.utf8Size_pos
    have hstop := Position.offset_after (Position.start.after (textOf before)) (c :: text)
    rw [String.utf8Len_cons] at hstop
    rw [stop_token]
    show (Position.start.after (textOf before)).offset < _
    omega
  · refine ⟨String.ofList (textOf before), String.ofList (textOf after), ?_, ?_, ?_, ?_⟩
    · have hmiddle : pieces source.toList = before ++ [⟨.token kind, c :: text⟩] ++ after := by
        simpa using hsplit
      simpa using source_eq hmiddle
    · simp [Position.offset_after, Position.start, String.utf8ByteSize_ofList]
    · simp [Position.line_after, Position.start]
    · simp [Position.column_after_start, String.utf8ByteSize_ofList]

/-- The tokens of a source have texts that stand in it at their offsets, lines and columns, one
behind the other.  Before the first token, between two tokens and behind the last one there are only
blanks, separators, comments and continuations; two tokens that follow one another are in one
statement exactly if no separator is among these. -/
theorem tokens_tile_source (source : String) :
    (∀ t ∈ flatTokens source, t.offset < t.stop ∧ ∃ before after : String,
      source = before ++ t.text ++ after ∧ t.offset = before.utf8ByteSize ∧
      t.line = 1 + before.toList.count '\n' ∧
      t.column = 1 + (String.ofList (lastLine before.toList)).utf8ByteSize) ∧
    (flatTokens source).Pairwise (fun t u => t.stop ≤ u.offset) ∧
    ∀ front back, flatTokens source = front ++ back →
      ∃ (before : String) (gap : List Piece) (after : String),
        source = before ++ String.ofList (textOf gap) ++ after ∧
        before.utf8ByteSize = (front.getLast?.map Token.stop).getD 0 ∧
        (before ++ String.ofList (textOf gap)).utf8ByteSize =
          (back.head?.map Token.offset).getD source.utf8ByteSize ∧
        Fills gap after.toList ∧
        ∀ t ∈ front.getLast?, ∀ u ∈ back.head?,
          (∃ group ∈ tokenize source, t ∈ group ∧ u ∈ group) ↔
            ∀ piece ∈ gap, piece.kind ≠ .separator := by
  have hpairwise := (pairwise_tokens .start (pieces source.toList)).1
  rw [← flatTokens_eq] at hpairwise
  refine ⟨fun t ht => token_stands ht, hpairwise, fun front back hcut => ?_⟩
  have hdisjoint : front.Disjoint back := by
    intro t hfront hback
    rw [hcut] at hpairwise
    have hle := (List.pairwise_append.mp hpairwise).2.2 t hfront t hback
    have hmem : t ∈ flatTokens source := hcut ▸ List.mem_append_left _ hfront
    have hlt := (token_stands hmem).1
    omega
  rw [flatTokens_eq] at hcut
  obtain ⟨before, gap, after, hsplit, hfillers, hfront, hback, hlast, hfirst⟩ := exists_gap hcut
  have hsource := source_eq hsplit
  have hformed := formed_pieces source.toList
  rw [hsplit, formed_append, formed_append] at hformed
  refine ⟨String.ofList (textOf before), gap, String.ofList (textOf after), hsource, ?_, ?_,
    ⟨hfillers, by simpa using hformed.1.2⟩, fun t ht u hu => ?_⟩
  · rw [← hfront, String.utf8ByteSize_ofList]
    have hplace := offset_after_before (p := .start) hlast
    rw [Position.offset_after] at hplace
    simpa [Position.start] using hplace
  · have hplace := offset_before_after (p := Position.start.after (textOf (before ++ gap))) hfirst
    rw [hback, ← Position.after_append, ← textOf_append, ← hsplit, textOf_pieces] at hplace
    simpa [Position.offset_after, Position.start, String.utf8ByteSize_ofList] using hplace
  · rw [← mem_group_iff hfillers hlast hfirst hfront hback hdisjoint ht hu, ← hsplit]
    constructor
    · rintro ⟨group, hgroup, hmem⟩
      exact ⟨group, (List.mem_filter.mp hgroup).1, hmem⟩
    · rintro ⟨group, hgroup, htgroup, hugroup⟩
      refine ⟨group, List.mem_filter.mpr ⟨hgroup, ?_⟩, htgroup, hugroup⟩
      simpa using List.ne_nil_of_mem htgroup

end VectorScript
