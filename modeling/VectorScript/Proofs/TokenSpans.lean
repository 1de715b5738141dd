import Mathlib
import VectorScript.Proofs.MatchedBrackets
import VectorScript.Proofs.ParserForms

/-!
# Spans of what is read

Every node of a tree spans some of the tokens that it was read from: its parts stand within it, one
behind the other, and a number or a name is one token.  An error spans some of the tokens too.

Each function that reads expressions hands on an end of the tokens.  What it has read stands between
the place where it began and the place where these tokens begin, and a list of items is a row of
trees between two places.

* `Span.Fits`: a span of at least one token, among so many.
* `Expr.Spanned`: how the span of a node lies to its tokens and to the spans of its parts.
* `Expr.Stands`, `Expr.Row`: trees between two places.
* `Expr.SpannedAt`: what the functions read from so many tokens, and where they fail.
* `Statement.spans_fit`: spans of all nodes and errors of a statement.
-/

namespace VectorScript

/-- A span of at least one of `n` tokens. -/
structure Span.Fits (s : Span) (n : Nat) : Prop where
  filled : s.start < s.stop
  within : s.stop ≤ n

namespace Expr

/-- A number and a name are read from one token. -/
def IsToken (ts : List Token) : Expr → Prop
  | constant x span =>
    ∃ i, span = .single i ∧ ∃ t ∈ ts[i]?, t.kind = .number ∧ Scalar.read? t.text = some x
  | identifier name span =>
    ∃ i, span = .single i ∧ ∃ t ∈ ts[i]?, t.kind = .identifier ∧ t.text = name
  | _ => True

/-- A node spans some of the tokens, and its parts span some of these, one behind the other. -/
structure Spanned (ts : List Token) (e : Expr) : Prop where
  fits : e.span.Fits ts.length
  around : ∀ c ∈ e.children, e.span.start ≤ c.span.start ∧ c.span.stop ≤ e.span.stop
  ordered : e.children.Pairwise fun c d => c.span.stop ≤ d.span.start
  isToken : e.IsToken ts

/-- A tree whose nodes span tokens, between two places. -/
structure Stands (ts : List Token) (low high : Nat) (e : Expr) : Prop where
  low : low ≤ e.span.start
  filled : e.span.start < e.span.stop
  high : e.span.stop ≤ high
  nodes : ∀ node ∈ e.nodes, node.Spanned ts

/-- Trees one behind the other, between two places. -/
def Row (ts : List Token) (low high : Nat) : List Expr → Prop
  | [] => low ≤ high
  | e :: rest => ∃ mid, e.Stands ts low mid ∧ Row ts mid high rest

section

variable {ts : List Token} {low low' mid high high' : Nat} {e : Expr} {es : List Expr}

/-! ### Trees between two places -/

theorem Stands.mono (h : e.Stands ts low high) (hlow : low' ≤ low) (hhigh : high ≤ high') :
    e.Stands ts low' high' :=
  ⟨Nat.le_trans hlow h.low, h.filled, Nat.le_trans h.high hhigh, h.nodes⟩

theorem Stands.self (h : e.Stands ts low high) : e.Stands ts e.span.start e.span.stop :=
  ⟨Nat.le_refl _, h.filled, Nat.le_refl _, h.nodes⟩

theorem Row.le (h : Row ts low high es) : low ≤ high := by
  induction es generalizing low with
  | nil => exact h
  | cons e rest ih =>
    obtain ⟨mid, hstands, hrest⟩ := h
    have hmid := ih hrest
    have := hstands.low
    have := hstands.filled
    have := hstands.high
    omega

theorem Row.mono (h : Row ts low high es) (hlow : low' ≤ low) (hhigh : high ≤ high') :
    Row ts low' high' es := by
  induction es generalizing low low' with
  | nil => exact Nat.le_trans hlow (Nat.le_trans (Row.le h) hhigh)
  | cons e rest ih =>
    obtain ⟨mid, hstands, hrest⟩ := h
    exact ⟨mid, hstands.mono hlow (Nat.le_refl _), ih hrest (Nat.le_refl _)⟩

theorem Row.stands (h : Row ts low high es) : ∀ e ∈ es, e.Stands ts low high := by
  induction es generalizing low with
  | nil => simp
  | cons e rest ih =>
    obtain ⟨mid, hstands, hrest⟩ := h
    have hlow : low ≤ mid := by
      have := hstands.low
      have := hstands.filled
      have := hstands.high
      omega
    exact List.forall_mem_cons.mpr
      ⟨hstands.mono (Nat.le_refl _) hrest.le, fun c hc => (ih hrest c hc).mono hlow (Nat.le_refl _)⟩

theorem Row.pairwise (h : Row ts low high es) :
    es.Pairwise fun c d => c.span.stop ≤ d.span.start := by
  induction es generalizing low with
  | nil => exact .nil
  | cons e rest ih =>
    obtain ⟨mid, hstands, hrest⟩ := h
    exact .cons (fun c hc => Nat.le_trans hstands.high (hrest.stands c hc).low) (ih hrest)

/-- A node stands where its span says if its parts make a row within its span. -/
theorem Stands.node (hlow : low ≤ e.span.start) (hfilled : e.span.start < e.span.stop)
    (hhigh : e.span.stop ≤ high) (hend : high ≤ ts.length)
    (hrow : Row ts e.span.start e.span.stop e.children) (htoken : e.IsToken ts) :
    e.Stands ts low high := by
  refine ⟨hlow, hfilled, hhigh, fun node hnode => ?_⟩
  rcases mem_nodes_iff.mp hnode with rfl | ⟨c, hc, hnode⟩
  · exact ⟨⟨hfilled, Nat.le_trans hhigh hend⟩,
      fun c hc => ⟨(hrow.stands c hc).low, (hrow.stands c hc).high⟩, hrow.pairwise, htoken⟩
  · exact (hrow.stands c hc).nodes node hnode

/-- A node that spans brackets and a row of parts between them. -/
theorem Stands.bracketed (hspan : e.span = ⟨low, high⟩) (hrow : Row ts mid high e.children)
    (hlow : low < mid) (hend : high ≤ ts.length) (htoken : e.IsToken ts) :
    e.Stands ts low high := by
  have hle := hrow.le
  have hstart : e.span.start = low := by rw [hspan]
  have hstop : e.span.stop = high := by rw [hspan]
  refine .node (Nat.le_of_eq hstart.symm) ?_ (Nat.le_of_eq hstop) hend ?_ htoken
  · omega
  · rw [hstart, hstop]
    exact hrow.mono (Nat.le_of_lt hlow) (Nat.le_refl _)

/-- A node that goes from its first part over a row of others to the end of a span. -/
theorem Stands.extended {first : Expr} {s : Span} (hfirst : first.Stands ts low mid)
    (hspan : e.span = first.span.join s) (hchildren : e.children = first :: es)
    (hs : mid ≤ s.start) (hrow : Row ts mid s.stop es) (hstop : s.stop ≤ high)
    (hend : high ≤ ts.length) (htoken : e.IsToken ts) : e.Stands ts low high := by
  have hfilled := hfirst.filled
  have hhigh := hfirst.high
  have hle := hrow.le
  obtain ⟨hstart', hstop'⟩ : e.span.start = first.span.start ∧ e.span.stop = s.stop := by
    simp only [hspan, Span.join]
    omega
  refine .node ?_ ?_ ?_ hend ?_ htoken
  · rw [hstart']
    exact hfirst.low
  · omega
  · omega
  · rw [hchildren, hstart', hstop']
    exact ⟨mid, hfirst.self.mono (Nat.le_refl _) hhigh, hrow⟩

/-- A node that goes from a token to the end of the part behind it. -/
theorem Stands.prefixed {operand : Expr} {i : Nat} (h : operand.Stands ts mid high) (hi : i < mid)
    (hspan : e.span = (Span.single i).join operand.span) (hchildren : e.children = [operand])
    (hend : high ≤ ts.length) (htoken : e.IsToken ts) : e.Stands ts i high := by
  have hlow := h.low
  have hfilled := h.filled
  have hhigh := h.high
  obtain ⟨hstart, hstop⟩ : e.span.start = i ∧ e.span.stop = operand.span.stop := by
    simp only [hspan, Span.join, Span.single]
    omega
  refine .node ?_ ?_ ?_ hend ?_ htoken
  · omega
  · omega
  · omega
  · rw [hchildren, hstart, hstop]
    exact ⟨_, h.self.mono (by omega) (Nat.le_refl _), Nat.le_refl _⟩

/-- A span from a tree to a token behind it. -/
theorem Stands.fits_join {i : Nat} (h : e.Stands ts low mid) (hmid : mid ≤ i)
    (hi : i < ts.length) : (e.span.join (.single i)).Fits ts.length := by
  have hfilled := h.filled
  have hhigh := h.high
  constructor
  · simp only [Span.join, Span.single]
    omega
  · simp only [Span.join, Span.single]
    omega

end

/-! ### Places of tokens -/

section

variable {ts rest : List Token} {t : Token} {e : Expr}

theorem length_lt_of_suffix (h : t :: rest <:+ ts) : rest.length < ts.length := by
  have hlength := h.length_le
  rwa [List.length_cons] at hlength

/-- An end of the tokens begins with the token at its place. -/
theorem getElem?_of_suffix (h : t :: rest <:+ ts) :
    ts[ts.length - (rest.length + 1)]? = some t := by
  obtain ⟨front, rfl⟩ := h
  have hplace : (front ++ t :: rest).length - (rest.length + 1) = front.length := by
    simp
  rw [hplace]
  simp

/-- A number or a name is the token at its place. -/
theorem Stands.leaf (h : t :: rest <:+ ts)
    (hspan : e.span = .single (ts.length - (rest.length + 1)))
    (hchildren : e.children = []) (htoken : e.IsToken ts) :
    e.Stands ts (ts.length - (rest.length + 1)) (ts.length - rest.length) := by
  have hlength := length_lt_of_suffix h
  refine .node ?_ ?_ ?_ (Nat.sub_le _ _) ?_ htoken
  · rw [hspan]
    exact Nat.le_refl _
  · rw [hspan]
    exact Nat.lt_succ_self _
  · simp only [hspan, Span.single]
    omega
  · rw [hspan, hchildren]
    exact Nat.le_succ _

theorem stands_identifier (h : t :: rest <:+ ts) (ht : t.kind = .identifier) :
    (identifier t.text (.single (ts.length - (rest.length + 1)))).Stands ts
      (ts.length - (rest.length + 1)) (ts.length - rest.length) :=
  .leaf h rfl rfl ⟨_, rfl, t, getElem?_of_suffix h, ht, rfl⟩

theorem stands_constant (h : t :: rest <:+ ts) (ht : t.kind = .number) {x : Float32}
    (hx : Scalar.read? t.text = some x) :
    (constant x (.single (ts.length - (rest.length + 1)))).Stands ts
      (ts.length - (rest.length + 1)) (ts.length - rest.length) :=
  .leaf h rfl rfl ⟨_, rfl, t, getElem?_of_suffix h, ht, hx⟩

theorem fits_single {i : Nat} (h : i < ts.length) : (Span.single i).Fits ts.length :=
  ⟨Nat.lt_succ_self i, h⟩

theorem fits_front (h : t :: rest <:+ ts) :
    (Span.single (ts.length - (rest.length + 1))).Fits ts.length :=
  fits_single (by have := length_lt_of_suffix h; omega)

theorem fits_missingAtEnd (hts : ts ≠ []) : (missingAtEnd ts.length).span.Fits ts.length :=
  fits_single (by have := List.length_pos_iff.mpr hts; omega)

theorem fits_unexpected {us : List Token} (hts : ts ≠ []) (hus : us <:+ ts) :
    (unexpected ts.length us).span.Fits ts.length := by
  cases us with
  | nil => exact fits_missingAtEnd hts
  | cons t rest => exact fits_front hus

end

/-! ### What readers promise -/

/-- What is given has a property; if nothing is given, the error spans tokens. -/
structure Spanning {α : Type} (ts : List Token) (x : Except SyntaxError α) (P : α → Prop) :
    Prop where
  ok : ∀ a, x = .ok a → P a
  error : ∀ e, x = .error e → e.span.Fits ts.length

namespace Spanning

variable {α β : Type} {ts : List Token} {P : α → Prop} {Q : β → Prop}

theorem give {a : α} (h : P a) : Spanning ts (.ok a) P := by
  refine ⟨fun a' ha' => ?_, nofun⟩
  cases ha'
  exact h

theorem fail {e : SyntaxError} (h : e.span.Fits ts.length) :
    Spanning ts (.error e : Except SyntaxError α) P := by
  refine ⟨nofun, fun e' he' => ?_⟩
  cases he'
  exact h

theorem bind {x : Except SyntaxError β} {f : β → Except SyntaxError α} (hx : Spanning ts x Q)
    (hf : ∀ b, Q b → Spanning ts (f b) P) : Spanning ts (x >>= f) P := by
  cases x with
  | ok b => exact hf b (hx.ok b rfl)
  | error e => exact fail (hx.error e rfl)

end Spanning

/-- What is read leaves an end of the tokens and has a property of the place where this begins. -/
def Spans {α : Type} {n : Nat} (ts : List Token) (x : Except SyntaxError (Reading α n))
    (P : α → Nat → Prop) : Prop :=
  Spanning ts x fun r => r.rest <:+ ts ∧ P r.value (ts.length - r.rest.length)

namespace Spans

variable {α β : Type} {n k : Nat} {ts : List Token} {P : α → Nat → Prop} {Q : β → Nat → Prop}

theorem value {a : α} {rest : List Token} {hshort : rest.length < n} (hrest : rest <:+ ts)
    (h : P a (ts.length - rest.length)) : Spans ts (.ok ⟨a, rest, hshort⟩) P :=
  .give ⟨hrest, h⟩

theorem fail {e : SyntaxError} (h : e.span.Fits ts.length) :
    Spans ts (.error e : Except SyntaxError (Reading α n)) P :=
  Spanning.fail h

theorem bind {x : Except SyntaxError (Reading β k)}
    {f : Reading β k → Except SyntaxError (Reading α n)} (hx : Spans ts x Q)
    (hf : ∀ r : Reading β k, r.rest <:+ ts → Q r.value (ts.length - r.rest.length) →
      Spans ts (f r) P) : Spans ts (x >>= f) P :=
  Spanning.bind hx fun r hr => hf r hr.1 hr.2

/-- A check of what was read. -/
theorem check {x : Except SyntaxError β} {f : β → Except SyntaxError (Reading α n)}
    {R : β → Prop} (hx : Spanning ts x R) (hf : ∀ b, R b → Spans ts (f b) P) :
    Spans ts (x >>= f) P :=
  Spanning.bind hx hf

/-- What was read is handed on. -/
theorem give {x : Except SyntaxError (Reading α k)} {f : Reading α k → Reading α n}
    (hx : Spans ts x P) (hf : ∀ r, (f r).value = r.value ∧ (f r).rest = r.rest) :
    Spans ts (x >>= fun r => pure (f r)) P := by
  refine hx.bind fun r hrest hr => Spanning.give ?_
  obtain ⟨hvalue, hleft⟩ := hf r
  rw [hvalue, hleft]
  exact ⟨hrest, hr⟩

end Spans

/-- What is read from the last `n` tokens, behind what was read before them. -/
structure SpannedAt (ts : List Token) (n : Nat) : Prop where
  read : ∀ inArray us, us.length = n → us <:+ ts →
    Spans ts (read ts.length inArray us) fun e stop => e.Stands ts (ts.length - n) stop
  readClauses : ∀ inArray body us low, us.length = n → us <:+ ts →
    body.Stands ts low (ts.length - n) →
      Spans ts (readClauses ts.length inArray body us) fun e stop => e.Stands ts low stop
  readRange : ∀ inArray us, us.length = n → us <:+ ts →
    Spans ts (readRange ts.length inArray us) fun e stop => e.Stands ts (ts.length - n) stop
  readConditional : ∀ us, us.length = n → us <:+ ts →
    Spans ts (readConditional ts.length us) fun e stop => e.Stands ts (ts.length - n) stop
  readBinary : ∀ least us, us.length = n → us <:+ ts →
    Spans ts (readBinary ts.length least us) fun e stop => e.Stands ts (ts.length - n) stop
  readOperators : ∀ least left us low, us.length = n → us <:+ ts →
    left.Stands ts low (ts.length - n) →
      Spans ts (readOperators ts.length least left us) fun e stop => e.Stands ts low stop
  readSelectors : ∀ target us low, us.length = n → us <:+ ts →
    target.Stands ts low (ts.length - n) →
      Spans ts (readSelectors ts.length target us) fun e stop => e.Stands ts low stop
  readDotted : ∀ dot us, us.length = n → us <:+ ts → dot < ts.length →
    Spans ts (readDotted ts.length dot us) fun e stop => e.Stands ts (ts.length - n) stop
  readList : ∀ inArray closer us, us.length = n → us <:+ ts →
    Spans ts (readList ts.length inArray closer us) fun es stop => Row ts (ts.length - n) stop es
  readItems : ∀ inArray closer us, us.length = n → us <:+ ts →
    Spans ts (readItems ts.length inArray closer us) fun es stop => Row ts (ts.length - n) stop es

/-! ### Parts of expressions -/

section

variable {ts : List Token} {low mid start stop : Nat}

theorem checkTarget_spans {target : Expr} {position : Nat} (h : target.Stands ts low mid)
    (hmid : mid ≤ position) (hposition : position < ts.length) :
    Spanning ts (checkTarget target position) fun _ => True := by
  cases target with
  | constant x span => exact .fail (h.fits_join hmid hposition)
  | _ => exact .give trivial

theorem parenthesized_spans {items : List Expr} (hrow : Row ts mid stop items) (hlow : start < mid)
    (hend : stop ≤ ts.length) :
    Spanning ts (parenthesized items ⟨start, stop⟩) fun e => e.Stands ts start stop := by
  have hfits : Span.Fits ⟨start, stop⟩ ts.length := ⟨Nat.lt_of_lt_of_le hlow hrow.le, hend⟩
  unfold parenthesized
  split
  · exact .fail hfits
  · rename_i item
    exact .give ((hrow.stands item List.mem_cons_self).mono (Nat.le_of_lt hlow) (Nat.le_refl _))
  · split_ifs
    · exact .give (.bracketed rfl hrow hlow hend trivial)
    · exact .fail hfits

theorem select_spans {target position : Expr} {s : Span} (htarget : target.Stands ts low mid)
    (hposition : position.Stands ts mid s.stop) (hs : mid ≤ s.start) (hstop : s.stop ≤ stop)
    (hend : stop ≤ ts.length) :
    Spanning ts (select target position (target.span.join s)) fun e => e.Stands ts low stop := by
  have hrow : Row ts mid s.stop [position] := ⟨_, hposition, Nat.le_refl _⟩
  unfold select
  split
  · split_ifs
    · exact .give (htarget.extended rfl rfl hs hrow.le hstop hend trivial)
    · exact .give (htarget.extended rfl rfl hs hrow hstop hend trivial)
  · exact .fail ⟨hposition.filled, Nat.le_trans hposition.high (Nat.le_trans hstop hend)⟩
  · exact .give (htarget.extended rfl rfl hs hrow hstop hend trivial)

theorem readBinder_spans {t : Token} {us : List Token} (h : t :: us <:+ ts) :
    Spans ts (readBinder (ts.length - (us.length + 1)) us) fun _ _ => True := by
  have hshort := length_lt_of_suffix h
  have hfront : (Span.single (ts.length - (us.length + 1))).Fits ts.length := fits_front h
  have hus : us <:+ ts := (List.suffix_cons t us).trans h
  unfold readBinder
  split
  · exact .fail hfront
  · split_ifs
    · refine .fail ⟨by dsimp only; omega, ?_⟩
      simp only [List.length_singleton] at hshort ⊢
      omega
    · exact .fail hfront
  · rename_i name sign rest
    split_ifs
    · exact .fail hfront
    · refine .fail ⟨by dsimp only; omega, ?_⟩
      simp only [List.length_cons] at hshort ⊢
      omega
    · exact .value (((List.suffix_cons _ _).trans (List.suffix_cons _ _)).trans hus) trivial

end

/-! ### Reading -/

section

variable {n : Nat} {inArray : Bool} {ts us : List Token}

theorem readOperand_spans (hts : ts ≠ []) (ih : ∀ k < n, SpannedAt ts k) (hn : us.length = n)
    (hus : us <:+ ts) :
    Spans ts (readOperand ts.length us) fun e stop => e.Stands ts (ts.length - n) stop := by
  subst hn
  rw [readOperand.eq_def]
  cases us with
  | nil => exact .fail (fits_missingAtEnd hts)
  | cons t rest =>
    have hlength := length_lt_of_suffix hus
    have hrest : rest <:+ ts := (List.suffix_cons t rest).trans hus
    show Spans ts _ fun (e : Expr) stop => e.Stands ts (ts.length - (rest.length + 1)) stop
    dsimp only
    split
    · rename_i hkind
      split
      · rename_i x hx
        exact .value hrest (stands_constant hus hkind hx)
      · exact .fail (fits_front hus)
    · rename_i hkind
      split
      · exact .value hrest (stands_identifier hus hkind)
      · rename_i p rest'
        split_ifs
        · have hargs := (ih rest'.length (by simp only [List.length_cons]; omega)).readList false
            .closeParen rest' rfl ((List.suffix_cons p rest').trans hrest)
          refine hargs.bind fun args hleft hrow => .value hleft ?_
          rw [List.length_cons] at hlength ⊢
          exact .bracketed rfl hrow (by omega) (Nat.sub_le _ _) trivial
        · exact .value hrest (stands_identifier hus hkind)
    · have hitems := (ih rest.length (by simp)).readList false .closeParen rest rfl hrest
      refine hitems.bind fun items hleft hrow => ?_
      exact .check (parenthesized_spans hrow (by omega) (Nat.sub_le _ _)) fun e he =>
        .value hleft he
    · have hitems := (ih rest.length (by simp)).readList true .closeSquare rest rfl hrest
      refine hitems.bind fun items hleft hrow => ?_
      have hle := hrow.le
      split_ifs
      · exact .fail ⟨by dsimp only; omega, Nat.sub_le _ _⟩
      · exact .value hleft (.bracketed rfl hrow (by omega) (Nat.sub_le _ _) trivial)
    · exact .fail (fits_front hus)
    · exact .fail (fits_front hus)

theorem readOperators_spans (ih : ∀ k < n, SpannedAt ts k) (hn : us.length = n) (hus : us <:+ ts)
    {least low : Nat} {left : Expr} (hleft : left.Stands ts low (ts.length - n)) :
    Spans ts (readOperators ts.length least left us) fun e stop => e.Stands ts low stop := by
  subst hn
  rw [readOperators.eq_def]
  cases us with
  | nil => exact .value hus hleft
  | cons t rest =>
    have hlength := length_lt_of_suffix hus
    rw [List.length_cons] at hleft
    dsimp only
    split
    · exact .value hus hleft
    · rename_i op hop
      split_ifs
      · exact .value hus hleft
      · have hoperand := (ih rest.length (by simp)).readBinary (op.precedence + 1) rest rfl
          ((List.suffix_cons t rest).trans hus)
        refine hoperand.bind fun right hrest hright => ?_
        have hshort := right.shorter
        have hrow : Row ts (ts.length - (rest.length + 1)) right.value.span.stop [right.value] :=
          ⟨_, hright.self.mono (by have := hright.low; omega) (Nat.le_refl _), Nat.le_refl _⟩
        have hbinary : (binary op left right.value (left.span.join right.value.span)).Stands ts low
            (ts.length - right.rest.length) :=
          hleft.extended rfl rfl (by have := hright.low; omega) hrow hright.high (Nat.sub_le _ _)
            trivial
        exact ((ih right.rest.length (by simp only [List.length_cons]; omega)).readOperators
          least _ right.rest low rfl hrest hbinary).give fun _ => ⟨rfl, rfl⟩

theorem readDotted_spans (hts : ts ≠ []) (ih : ∀ k < n, SpannedAt ts k) (hn : us.length = n)
    (hus : us <:+ ts) {dot : Nat} (hdot : dot < ts.length) :
    Spans ts (readDotted ts.length dot us) fun e stop => e.Stands ts (ts.length - n) stop := by
  rw [readDotted.eq_def]
  split
  · exact .fail (fits_single hdot)
  · rename_i t rest
    have hn' := hn
    rw [List.length_cons] at hn'
    dsimp only
    split
    · rename_i hkind
      rw [← hn']
      exact .value ((List.suffix_cons t rest).trans hus) (stands_identifier hus hkind)
    · exact .fail (fits_front hus)
    · exact readOperand_spans hts ih hn hus
    · exact .fail (fits_single hdot)

theorem readSelectors_spans (hts : ts ≠ []) (ih : ∀ k < n, SpannedAt ts k) (hn : us.length = n)
    (hus : us <:+ ts) {low : Nat} {target : Expr}
    (htarget : target.Stands ts low (ts.length - n)) :
    Spans ts (readSelectors ts.length target us) fun e stop => e.Stands ts low stop := by
  subst hn
  rw [readSelectors.eq_def]
  cases us with
  | nil => exact .value hus htarget
  | cons t rest =>
    have hlength := length_lt_of_suffix hus
    have hrest : rest <:+ ts := (List.suffix_cons t rest).trans hus
    rw [List.length_cons] at htarget
    dsimp only
    split
    · refine .check (checkTarget_spans htarget (Nat.le_refl _) (by omega)) fun _ _ => ?_
      split_ifs with hempty
      · refine .fail ⟨by dsimp only; omega, ?_⟩
        cases rest with
        | nil => cases hempty
        | cons c rest =>
          simp only [List.length_cons] at hlength ⊢
          omega
      · refine ((ih rest.length (by simp)).read true rest rfl hrest).bind
          fun index hleft hindex => ?_
        split
        · exact .fail (fits_missingAtEnd hts)
        · rename_i c rest' hc
          rw [hc] at hleft hindex
          have hshort := Reading.length_lt hc
          have hlength' := length_lt_of_suffix hleft
          have hrest' : rest' <:+ ts := (List.suffix_cons c rest').trans hleft
          split_ifs
          · exact .fail (fits_unexpected hts hleft)
          · have hposition : index.value.Stands ts (ts.length - (rest.length + 1))
                (ts.length - rest'.length) :=
              hindex.mono (by omega) (by rw [List.length_cons]; omega)
            refine .check (select_spans htarget hposition (Nat.le_refl _) (Nat.le_refl _)
              (Nat.sub_le _ _)) fun chosen hchosen => ?_
            exact ((ih rest'.length (by simp only [List.length_cons]; omega)).readSelectors
              chosen rest' low rfl hrest' hchosen).give fun _ => ⟨rfl, rfl⟩
    · refine .check (checkTarget_spans htarget (Nat.le_refl _) (by omega)) fun _ _ => ?_
      refine ((ih rest.length (by simp)).readDotted _ rest rfl hrest (by omega)).bind
        fun index hleft hindex => ?_
      have hshort := index.shorter
      have hposition : index.value.Stands ts (ts.length - (rest.length + 1))
          index.value.span.stop := hindex.self.mono (by have := hindex.low; omega) (Nat.le_refl _)
      refine .check (select_spans htarget hposition hposition.low hindex.high
        (Nat.sub_le _ _)) fun chosen hchosen => ?_
      exact ((ih index.rest.length (by simp only [List.length_cons]; omega)).readSelectors
        chosen index.rest low rfl hleft hchosen).give fun _ => ⟨rfl, rfl⟩
    · have hfactorial : (unary .factorial target (target.span.join
          (.single (ts.length - (rest.length + 1))))).Stands ts low (ts.length - rest.length) :=
        htarget.extended rfl rfl (Nat.le_refl _) (Nat.le_succ _)
          (by simp only [Span.single]; omega) (Nat.sub_le _ _) trivial
      exact ((ih rest.length (by simp)).readSelectors _ rest low rfl hrest
        hfactorial).give fun _ => ⟨rfl, rfl⟩
    · exact .fail (htarget.fits_join (Nat.le_refl _) (by omega))
    · exact .value hus htarget

theorem readSelection_spans (hts : ts ≠ []) (ih : ∀ k < n, SpannedAt ts k) (hn : us.length = n)
    (hus : us <:+ ts) :
    Spans ts (readSelection ts.length us) fun e stop => e.Stands ts (ts.length - n) stop := by
  have hoperand := readOperand_spans hts ih hn hus
  subst hn
  rw [readSelection.eq_def]
  exact hoperand.bind fun target hrest htarget =>
    ((ih _ target.shorter).readSelectors _ _ _ rfl hrest htarget).give fun _ => ⟨rfl, rfl⟩

theorem readUnary_spans (hts : ts ≠ []) (ih : ∀ k < n, SpannedAt ts k) (hn : us.length = n)
    (hus : us <:+ ts) :
    Spans ts (readUnary ts.length us) fun e stop => e.Stands ts (ts.length - n) stop := by
  have hselection := readSelection_spans hts ih hn hus
  subst hn
  rw [readUnary.eq_def]
  cases us with
  | nil => exact .fail (fits_missingAtEnd hts)
  | cons t rest =>
    have hlength := length_lt_of_suffix hus
    dsimp only
    split
    · exact hselection
    · refine ((ih rest.length (by simp)).readBinary _ rest rfl
        ((List.suffix_cons t rest).trans hus)).bind fun operand hrest hoperand =>
          .value hrest ?_
      exact hoperand.prefixed (by simp only [List.length_cons]; omega) rfl rfl (Nat.sub_le _ _)
        trivial

theorem readBinary_spans (hts : ts ≠ []) (ih : ∀ k < n, SpannedAt ts k) (hn : us.length = n)
    (hus : us <:+ ts) (least : Nat) :
    Spans ts (readBinary ts.length least us) fun e stop => e.Stands ts (ts.length - n) stop := by
  have hoperand := readUnary_spans hts ih hn hus
  subst hn
  rw [readBinary.eq_def]
  exact hoperand.bind fun left hrest hleft =>
    ((ih _ left.shorter).readOperators _ _ _ _ rfl hrest hleft).give fun _ => ⟨rfl, rfl⟩

theorem readConditional_spans (hts : ts ≠ []) (ih : ∀ k < n, SpannedAt ts k) (hn : us.length = n)
    (hus : us <:+ ts) :
    Spans ts (readConditional ts.length us) fun e stop => e.Stands ts (ts.length - n) stop := by
  have hfirst := readBinary_spans hts ih hn hus 1
  subst hn
  rw [readConditional.eq_def]
  refine hfirst.bind fun consequent hleft hconsequent => ?_
  split
  · exact .value hleft hconsequent
  · rename_i t rest hrest
    have hshort := Reading.length_lt hrest
    split_ifs
    · rw [hrest] at hleft hconsequent
      have hlength := length_lt_of_suffix hleft
      refine ((ih rest.length hshort).readBinary 1 rest rfl
        ((List.suffix_cons t rest).trans hleft)).bind fun condition hleft' hcondition => ?_
      split
      · exact .fail (fits_front hleft)
      · rename_i t' rest' hrest'
        have hshort' := Reading.length_lt hrest'
        rw [hrest'] at hleft' hcondition
        have hlength' := length_lt_of_suffix hleft'
        split_ifs
        · refine ((ih rest'.length (by omega)).readConditional rest' rfl
            ((List.suffix_cons t' rest').trans hleft')).bind
              fun alternative hleft'' halternative => .value hleft'' ?_
          have hlow := halternative.low
          rw [List.length_cons] at hconsequent hcondition
          have hrow : Row ts (ts.length - (rest.length + 1)) alternative.value.span.stop
              [condition.value, alternative.value] :=
            ⟨_, hcondition.mono (by omega) (Nat.le_refl _), _,
              halternative.self.mono (by omega) (Nat.le_refl _), Nat.le_refl _⟩
          have hcond := hcondition.low
          have hcond' := hcondition.filled
          have hcond'' := hcondition.high
          exact hconsequent.extended rfl rfl (by omega) hrow halternative.high (Nat.sub_le _ _)
            trivial
        · exact .fail (fits_front hleft)
    · exact .value hleft hconsequent

theorem readRange_spans (hts : ts ≠ []) (ih : ∀ k < n, SpannedAt ts k) (hn : us.length = n)
    (hus : us <:+ ts) (inArray : Bool) :
    Spans ts (readRange ts.length inArray us) fun e stop => e.Stands ts (ts.length - n) stop := by
  have hfirst := readConditional_spans hts ih hn hus
  subst hn
  rw [readRange.eq_def]
  refine hfirst.bind fun lower hleft hlower => ?_
  split
  · exact .value hleft hlower
  · rename_i t rest hrest
    have hshort := Reading.length_lt hrest
    split_ifs
    · rw [hrest] at hleft
      exact .fail (fits_front hleft)
    · rw [hrest] at hleft hlower
      have hlength := length_lt_of_suffix hleft
      refine ((ih rest.length hshort).readConditional rest rfl
        ((List.suffix_cons t rest).trans hleft)).bind fun upper hleft' hupper => ?_
      have hlow := hupper.low
      have hfilled := hupper.filled
      have hhigh := hupper.high
      split_ifs with hmore
      · refine .fail (fits_single ?_)
        cases hend : upper.rest with
        | nil => simp [hend] at hmore
        | cons t' rest' =>
          rw [List.length_cons]
          omega
      · refine .value hleft' ?_
        rw [List.length_cons] at hlower
        have hrow : Row ts (ts.length - (rest.length + 1)) upper.value.span.stop [upper.value] :=
          ⟨_, hupper.self.mono (by omega) (Nat.le_refl _), Nat.le_refl _⟩
        exact hlower.extended rfl rfl (by omega) hrow hhigh (Nat.sub_le _ _) trivial
    · exact .value hleft hlower

theorem readClauses_spans (ih : ∀ k < n, SpannedAt ts k) (hn : us.length = n) (hus : us <:+ ts)
    {low : Nat} {body : Expr} (hbody : body.Stands ts low (ts.length - n)) :
    Spans ts (readClauses ts.length inArray body us) fun e stop => e.Stands ts low stop := by
  subst hn
  rw [readClauses.eq_def]
  cases us with
  | nil => exact .value hus hbody
  | cons t rest =>
    have hlength := length_lt_of_suffix hus
    rw [List.length_cons] at hbody
    dsimp only
    split_ifs
    · exact .fail (fits_front hus)
    · refine (readBinder_spans hus).bind fun binder hleft _ => ?_
      have hbinder := binder.shorter
      refine ((ih binder.rest.length (by simp only [List.length_cons]; omega)).readRange inArray
        binder.rest rfl hleft).bind fun source hleft' hsource => ?_
      have hshort := source.shorter
      have hsource' : source.value.Stands ts (ts.length - (rest.length + 1))
          (ts.length - source.rest.length) := hsource.mono (by omega) (Nat.le_refl _)
      have hrow : Row ts (ts.length - (rest.length + 1)) (ts.length - source.rest.length)
          [source.value] := ⟨_, hsource', Nat.le_refl _⟩
      have hcomprehension : (comprehension body binder.value source.value (body.span.join
          ⟨ts.length - (rest.length + 1), ts.length - source.rest.length⟩)).Stands ts low
          (ts.length - source.rest.length) :=
        hbody.extended rfl rfl (Nat.le_refl _) hrow (Nat.le_refl _) (Nat.sub_le _ _) trivial
      split
      · rename_i w rest' hrest
        have hshort' := Reading.length_lt hrest
        split_ifs
        · rw [hrest] at hleft' hsource'
          have hlength' := length_lt_of_suffix hleft'
          refine ((ih rest'.length (by simp only [List.length_cons]; omega)).readConditional rest'
            rfl ((List.suffix_cons w rest').trans hleft')).bind
              fun condition hleft'' hcondition => ?_
          have hshort'' := condition.shorter
          have hrow : Row ts (ts.length - (rest.length + 1)) (ts.length - condition.rest.length)
              [source.value, condition.value] :=
            ⟨_, hsource'.mono (Nat.le_refl _) (by rw [List.length_cons]; omega), _, hcondition,
              Nat.le_refl _⟩
          have hfiltered : (filtered body binder.value source.value condition.value (body.span.join
              ⟨ts.length - (rest.length + 1), ts.length - condition.rest.length⟩)).Stands ts low
              (ts.length - condition.rest.length) :=
            hbody.extended rfl rfl (Nat.le_refl _) hrow (Nat.le_refl _) (Nat.sub_le _ _) trivial
          exact ((ih condition.rest.length (by simp only [List.length_cons]; omega)).readClauses
            inArray _ condition.rest low rfl hleft'' hfiltered).give fun _ => ⟨rfl, rfl⟩
        · exact ((ih source.rest.length (by simp only [List.length_cons]; omega)).readClauses
            inArray _ source.rest low rfl hleft' hcomprehension).give fun _ => ⟨rfl, rfl⟩
      · rename_i hrest
        rw [hrest] at hcomprehension
        exact .value List.nil_suffix hcomprehension
    · exact .value hus hbody

theorem read_spans (hts : ts ≠ []) (ih : ∀ k < n, SpannedAt ts k) (hn : us.length = n)
    (hus : us <:+ ts) (inArray : Bool) :
    Spans ts (read ts.length inArray us) fun e stop => e.Stands ts (ts.length - n) stop := by
  have hfirst := readRange_spans hts ih hn hus inArray
  subst hn
  rw [read.eq_def]
  exact hfirst.bind fun body hrest hbody =>
    ((ih _ body.shorter).readClauses _ _ _ _ rfl hrest hbody).give fun _ => ⟨rfl, rfl⟩

theorem readItems_spans (hts : ts ≠ []) (ih : ∀ k < n, SpannedAt ts k) (hn : us.length = n)
    (hus : us <:+ ts) (inArray : Bool) (closer : Bracket) :
    Spans ts (readItems ts.length inArray closer us) fun es stop =>
      Row ts (ts.length - n) stop es := by
  have hfirst := read_spans hts ih hn hus inArray
  subst hn
  rw [readItems.eq_def]
  refine hfirst.bind fun item hleft hitem => ?_
  split
  · exact .fail (fits_missingAtEnd hts)
  · rename_i t rest hrest
    have hshort := Reading.length_lt hrest
    rw [hrest] at hleft hitem
    have hlength := length_lt_of_suffix hleft
    have hrest' : rest <:+ ts := (List.suffix_cons t rest).trans hleft
    have hitem' : item.value.Stands ts (ts.length - us.length) (ts.length - rest.length) :=
      hitem.mono (Nat.le_refl _) (by rw [List.length_cons]; omega)
    split_ifs
    · refine ((ih rest.length hshort).readItems inArray closer rest rfl hrest').bind
        fun items hleft' hrow => .value hleft' ?_
      exact ⟨_, hitem', hrow⟩
    · exact .value hrest' ⟨_, hitem', Nat.le_refl _⟩
    · exact .fail (fits_unexpected hts hleft)

theorem readList_spans (hts : ts ≠ []) (ih : ∀ k < n, SpannedAt ts k) (hn : us.length = n)
    (hus : us <:+ ts) (inArray : Bool) (closer : Bracket) :
    Spans ts (readList ts.length inArray closer us) fun es stop =>
      Row ts (ts.length - n) stop es := by
  have hitems := readItems_spans hts ih hn hus inArray closer
  rw [readList.eq_def]
  split
  · exact hitems
  · rename_i t rest
    split_ifs
    · refine .value ((List.suffix_cons t rest).trans hus) ?_
      rw [List.length_cons] at hn
      show ts.length - n ≤ ts.length - rest.length
      omega
    · exact hitems

end

/-- Whatever is read spans its tokens. -/
theorem spannedAt {ts : List Token} (hts : ts ≠ []) (n : Nat) : SpannedAt ts n := by
  -- on the number of tokens: every reader hands on fewer than it was given
  induction n using Nat.strongRecOn with
  | ind n ih =>
    exact {
      read := fun _ _ hn hus => read_spans hts ih hn hus _
      readClauses := fun _ _ _ _ hn hus hbody => readClauses_spans ih hn hus hbody
      readRange := fun _ _ hn hus => readRange_spans hts ih hn hus _
      readConditional := fun _ hn hus => readConditional_spans hts ih hn hus
      readBinary := fun _ _ hn hus => readBinary_spans hts ih hn hus _
      readOperators := fun _ _ _ _ hn hus hleft => readOperators_spans ih hn hus hleft
      readSelectors := fun _ _ _ hn hus htarget => readSelectors_spans hts ih hn hus htarget
      readDotted := fun _ _ hn hus hdot => readDotted_spans hts ih hn hus hdot
      readList := fun _ _ _ hn hus => readList_spans hts ih hn hus _ _
      readItems := fun _ _ _ hn hus => readItems_spans hts ih hn hus _ _ }

end Expr

/-! ### Statements -/

theorem Defect.fits {ts : List Token} {e : SyntaxError} (h : Defect ts e) :
    e.span.Fits ts.length := by
  cases h with
  | unknown hi =>
    obtain ⟨t, ht, -⟩ := hi.1
    exact Expr.fits_single (List.getElem?_eq_some_iff.mp ht).1
  | unmatched _ hi => exact Expr.fits_single hi.1.1
  | unclosed _ _ hi =>
    obtain ⟨⟨t, ht, -⟩, -⟩ := hi.1
    exact Expr.fits_single (List.getElem?_eq_some_iff.mp ht).1

namespace Statement

variable {ts : List Token}

theorem readBody_spans (hts : ts ≠ []) (start : Nat) :
    Expr.Spanning ts (readBody ts start) fun body => ∀ node ∈ body.nodes, node.Spanned ts := by
  unfold readBody
  split_ifs
  · exact .fail (Expr.fits_missingAtEnd hts)
  · refine Expr.Spanning.bind ((Expr.spannedAt hts _).read true _ rfl (List.drop_suffix start ts))
      fun body hbody => ?_
    split_ifs
    · exact .give hbody.2.nodes
    · exact .fail (Expr.fits_unexpected hts hbody.1)

theorem readParams_spans {position : Nat} {seen : List String} {us : List Token}
    (h : position + us.length ≤ ts.length) :
    Expr.Spanning ts (readParams position seen us) fun _ => True := by
  fun_induction readParams position seen us with
  | case1 | case3 => exact .give trivial
  | case2 =>
    rw [List.length_cons] at h
    exact .fail (Expr.fits_single (by omega))
  | case4 | case5 =>
    simp only [List.length_cons] at h
    exact .fail (Expr.fits_single (by omega))
  | case6 position seen name hname comma rest _ _ ih =>
    simp only [List.length_cons] at h
    exact ih (by omega)

/-- What is read has a body, whose nodes span tokens. -/
def KindSpanned (ts : List Token) (kind : Kind) : Prop :=
  ∃ body, (Statement.mk kind ts).body? = some body ∧ ∀ node ∈ body.nodes, node.Spanned ts

theorem readFunction_spans (hts : ts ≠ []) {name : String} {close : Nat}
    (hclose : close < ts.length) :
    Expr.Spanning ts (readFunction ts name close) (KindSpanned ts) := by
  unfold readFunction
  split_ifs with hassign
  · obtain ⟨t, ht, -⟩ := (Option.any_eq_true _ _).mp hassign
    have hlength := (List.getElem?_eq_some_iff.mp ht).1
    refine (readParams_spans ?_).bind fun params _ => ?_
    · simp only [List.length_drop, List.length_take]
      omega
    · exact (readBody_spans hts _).bind fun body hbody => .give ⟨body, rfl, hbody⟩
  · exact .fail ⟨Nat.succ_pos _, hclose⟩
  · exact .fail ⟨List.length_pos_iff.mpr hts, Nat.le_refl _⟩

theorem readKind_spans (hts : ts ≠ []) : Expr.Spanning ts (readKind ts) (KindSpanned ts) := by
  have hwhole : Span.Fits ⟨0, ts.length⟩ ts.length := ⟨List.length_pos_iff.mpr hts, Nat.le_refl _⟩
  have hpairs : Expr.Spanning ts (BracketPair.ofTokens ts) fun pairs =>
      ∀ i j, BracketPair.partner? pairs i = some j → j < ts.length := by
    refine ⟨fun pairs h i j hj => ?_, fun e he => (BracketPair.defect_of_ofTokens he).fits⟩
    rcases (BracketPair.partner?_iff_matched h).mp hj with hmatched | hmatched
    · exact hmatched.lt_length
    · exact (List.getElem?_eq_some_iff.mp hmatched.opensAt.choose_spec.1).1
  unfold readKind
  refine hpairs.bind fun pairs hpartner => ?_
  split
  · rename_i hhead
    exact absurd (List.head?_eq_none_iff.mp hhead) hts
  · split
    · refine readFunction_spans hts ?_
      cases hclose : BracketPair.partner? pairs 1 with
      | some close => exact hpartner 1 close hclose
      | none =>
        have hlength := List.length_pos_iff.mpr hts
        simp only [Option.getD_none]
        omega
    · exact (readBody_spans hts 2).bind fun body hbody => .give ⟨body, rfl, hbody⟩
    · exact (readBody_spans hts 1).bind fun body hbody => .give ⟨body, rfl, hbody⟩
    · split
      · rename_i i hi
        exact .fail ⟨Nat.succ_pos _, (List.findIdx?_eq_some_iff_getElem.mp hi).1⟩
      · exact .fail hwhole
    · exact .fail hwhole

/-- The error of a statement that cannot be read spans at least one of its tokens.  So does every
node of the body of one that can be read: its parts span tokens within its own, one behind the
other, and a number or a name spans the one token that it was read from. -/
theorem spans_fit (hts : ts ≠ []) :
    (∀ e, (ofTokens ts).error? = some e → e.span.Fits ts.length) ∧
    ∀ body, (ofTokens ts).body? = some body → ∀ node ∈ body.nodes, node.Spanned ts := by
  have hspans := readKind_spans hts
  unfold ofTokens
  split
  · rename_i kind hkind
    obtain ⟨body, hbody, hnodes⟩ := hspans.ok kind hkind
    refine ⟨fun e he => ?_, fun body' hbody' => ?_⟩
    · cases kind with
      | invalid e => cases hbody
      | _ => cases he
    · obtain rfl : body = body' := Option.some.inj (hbody.symm.trans hbody')
      exact hnodes
  · rename_i e he
    refine ⟨fun e' he' => ?_, nofun⟩
    obtain rfl : e = e' := Option.some.inj he'
    exact hspans.error e he

set_option maxRecDepth 4000 in
/-- A statement with a call, a name and a sum, and one whose second operand is missing. -/
theorem spans_fit_sum :
    (∃ body, (ofTokens (flatTokens "a = f(b) + c")).body? = some body ∧ body.nodes.length = 4 ∧
      ∀ node ∈ body.nodes, node.Spanned (flatTokens "a = f(b) + c")) ∧
    ∃ e, (ofTokens (flatTokens "a = f(b) +")).error? = some e ∧ e.span.Fits 7 := by
  have hread : (ofTokens (flatTokens "a = f(b) + c")).body?.map (·.nodes.length) = some 4 := by cbv
  have hfail : (ofTokens (flatTokens "a = f(b) +")).error?.isSome := by cbv
  have hlength : (flatTokens "a = f(b) +").length = 7 := by cbv
  have hreadable : flatTokens "a = f(b) + c" ≠ [] := List.length_pos_iff.mp (by cbv)
  have hunreadable : flatTokens "a = f(b) +" ≠ [] := List.length_pos_iff.mp (by cbv)
  obtain ⟨body, hbody, hnodes⟩ := Option.map_eq_some_iff.mp hread
  obtain ⟨e, he⟩ := Option.isSome_iff_exists.mp hfail
  refine ⟨⟨body, hbody, hnodes, (spans_fit hreadable).2 body hbody⟩, e, he, ?_⟩
  rw [← hlength]
  exact (spans_fit hunreadable).1 e he

end Statement

end VectorScript
