import VectorScript.Expr.Parser
import VectorScript.Proofs.Failing

/-!
# Rules for reading

What the functions that read expressions do with the front of some tokens, one rule for each way
through each of them.  A rule takes what was read of the parts and says what is read of the whole;
so a text is read by putting rules together, and no proof looks into the functions again.

Every token binds to what stands before it more or less tightly.  A function goes on only for tokens
that bind tightly enough, and leaves the others.

* `Yields`: a value and the tokens behind it are read.
* `Token.Kind.bond`, `bond`: how tightly tokens bind to what stands before them.
* `NoCall`: the tokens do not make a call of a name before them.
-/

namespace VectorScript

/-- The value `v` is read, and the tokens `rest` are left. -/
def Yields {α : Type} {n : Nat} (x : Except SyntaxError (Reading α n)) (v : α)
    (rest : List Token) : Prop :=
  ∃ h, x = .ok ⟨v, rest, h⟩

/-! ### How tightly tokens bind -/

/-- How tightly a token binds to the expression before it; 0 if it does not continue it. -/
def Token.Kind.bond : Token.Kind → Nat
  | .operator .forWord => 1
  | .operator .whenWord => 2
  | .operator .ellipsis => 3
  | .operator .ifWord => 4
  | .operator .dot | .operator .bang | .bracket .openSquare | .bracket .openParen => 10
  | .operator op =>
    match BinaryOp.ofOperator? op with
    | some op => op.precedence + 4
    | none => 0
  | _ => 0

/-- How tightly the first of some tokens binds to the expression before it. -/
def bond : List Token → Nat
  | [] => 0
  | t :: _ => t.kind.bond

/-- The tokens do not make a call of a name before them. -/
def NoCall (ts : List Token) : Prop := ∀ t ∈ ts.head?, t.kind ≠ .bracket .openParen

theorem noCall_of_bond {ts : List Token} (h : bond ts < 10) : NoCall ts := by
  cases ts with
  | nil => simp [NoCall]
  | cons t ts =>
    rintro _ ⟨⟩ hparen
    simp [bond, hparen, Token.Kind.bond] at h

theorem bond_binaryOp {k : Token.Kind} {op : BinaryOp} (h : Expr.binaryOp? k = some op) :
    k.bond = op.precedence + 4 := by
  cases k with
  | operator sign => cases sign <;> cases h <;> rfl
  | _ => cases h

namespace Expr

variable {total least : Nat} {inArray : Bool} {t : Token} {ts rest rest' : List Token}
  {e left right target body source : Expr} {v : Expr}

/-! ### Operands -/

theorem yields_number {x : Float32} (hkind : t.kind = .number)
    (hread : Scalar.read? t.text = some x) :
    Yields (readOperand total (t :: rest))
      (constant x (.single (total - (rest.length + 1)))) rest := by
  refine ⟨by simp, ?_⟩
  rw [readOperand.eq_def]
  simp only [hkind, hread]

theorem yields_identifier (hkind : t.kind = .identifier) (hrest : NoCall rest) :
    Yields (readOperand total (t :: rest))
      (identifier t.text (.single (total - (rest.length + 1)))) rest := by
  refine ⟨by simp, ?_⟩
  rw [readOperand.eq_def]
  simp only [hkind]
  cases rest with
  | nil => rfl
  | cons p rest => exact if_neg (hrest p rfl)

theorem yields_call {p : Token} {args : List Expr} (hkind : t.kind = .identifier)
    (hp : p.kind = .bracket .openParen)
    (h : Yields (readList total false .closeParen ts) args rest) :
    Yields (readOperand total (t :: p :: ts))
      (call t.text args ⟨total - (ts.length + 2), total - rest.length⟩) rest := by
  obtain ⟨hlt, h⟩ := h
  refine ⟨by simp; omega, ?_⟩
  rw [readOperand.eq_def]
  simp only [hkind, hp, if_true, h, ok_bind]
  rfl

theorem yields_parenthesized {items : List Expr} (hkind : t.kind = .bracket .openParen)
    (h : Yields (readList total false .closeParen ts) items rest)
    (he : parenthesized items ⟨total - (ts.length + 1), total - rest.length⟩ = .ok e) :
    Yields (readOperand total (t :: ts)) e rest := by
  obtain ⟨hlt, h⟩ := h
  refine ⟨by simp; omega, ?_⟩
  rw [readOperand.eq_def]
  simp only [hkind, h, ok_bind, he]
  rfl

theorem yields_array {items : List Expr} (hkind : t.kind = .bracket .openSquare)
    (h : Yields (readList total true .closeSquare ts) items rest) (hitems : items ≠ []) :
    Yields (readOperand total (t :: ts))
      (array items ⟨total - (ts.length + 1), total - rest.length⟩) rest := by
  obtain ⟨hlt, h⟩ := h
  refine ⟨by simp; omega, ?_⟩
  rw [readOperand.eq_def]
  simp only [hkind, h, ok_bind]
  rw [if_neg (by simpa using hitems)]
  rfl

/-! ### Lists -/

theorem yields_list_nil {closer : Bracket} (hkind : t.kind = .bracket closer) :
    Yields (readList total inArray closer (t :: rest)) [] rest := by
  refine ⟨by simp, ?_⟩
  rw [readList.eq_def]
  exact if_pos hkind

/-- Nothing that is read starts with a closing bracket. -/
theorem kind_ne_of_yields {b : Bracket} (hb : b.isOpen = false)
    (h : Yields (read total inArray (t :: ts)) e rest) : t.kind ≠ .bracket b := by
  obtain ⟨hlt, h⟩ := h
  intro ht
  rw [read.eq_def, readRange.eq_def, readConditional.eq_def, readBinary.eq_def,
    readUnary.eq_def] at h
  simp only [ht, prefixOp?] at h
  rw [readSelection.eq_def, readOperand.eq_def] at h
  cases b with
  | openParen | openSquare => cases hb
  | closeParen | closeSquare =>
    simp only [ht] at h
    cases h

theorem yields_list {closer : Bracket} {items : List Expr} (hcloser : closer.isOpen = false)
    (h : Yields (readItems total inArray closer ts) items rest) :
    Yields (readList total inArray closer ts) items rest := by
  obtain ⟨hlt, h⟩ := h
  refine ⟨hlt, ?_⟩
  rw [readList.eq_def]
  cases ts with
  | nil => exact h
  | cons t ts =>
    have hfirst := h
    rw [readItems.eq_def] at hfirst
    obtain ⟨item, hitem, -⟩ := bind_eq_ok.mp hfirst
    exact (if_neg (kind_ne_of_yields hcloser ⟨item.shorter, hitem⟩)).trans h

theorem yields_item {closer : Bracket} (h : Yields (read total inArray ts) e (t :: rest))
    (hkind : t.kind = .bracket closer) :
    Yields (readItems total inArray closer ts) [e] rest := by
  obtain ⟨hlt, h⟩ := h
  refine ⟨by simp at hlt; omega, ?_⟩
  rw [readItems.eq_def]
  simp only [h, ok_bind, hkind]
  rfl

theorem yields_items {closer : Bracket} {items : List Expr}
    (h : Yields (read total inArray ts) e (t :: rest)) (hkind : t.kind = .comma)
    (hitems : Yields (readItems total inArray closer rest) items rest') :
    Yields (readItems total inArray closer ts) (e :: items) rest' := by
  obtain ⟨hlt, h⟩ := h
  obtain ⟨hlt', hitems⟩ := hitems
  refine ⟨by simp at hlt; omega, ?_⟩
  rw [readItems.eq_def]
  simp only [h, ok_bind, hkind, if_true, hitems]
  rfl

/-! ### Operators behind an operand -/

theorem yields_selectors_stop (h : bond ts < 10) :
    Yields (readSelectors total target ts) target ts := by
  refine ⟨by simp, ?_⟩
  rw [readSelectors.eq_def]
  cases ts with
  | nil => rfl
  | cons t rest =>
    dsimp only
    split
    case h_5 => rfl
    all_goals simp_all [bond, Token.Kind.bond]

theorem yields_index {c : Token} {position : Expr} (hkind : t.kind = .bracket .openSquare)
    (htarget : checkTarget target (total - (ts.length + 1)) = .ok ())
    (hposition : Yields (read total true ts) position (c :: rest))
    (hc : c.kind = .bracket .closeSquare)
    (he : select target position
      (target.span.join ⟨total - (ts.length + 1), total - rest.length⟩) = .ok e)
    (h : Yields (readSelectors total e rest) v rest') :
    Yields (readSelectors total target (t :: ts)) v rest' := by
  have hhead : ts.head?.any (·.kind = .bracket .closeSquare) = false := by
    cases ts with
    | nil => rfl
    | cons c ts => exact decide_eq_false (kind_ne_of_yields rfl hposition)
  obtain ⟨hlt, hposition⟩ := hposition
  obtain ⟨hlt', h⟩ := h
  refine ⟨by simp at hlt ⊢; omega, ?_⟩
  rw [readSelectors.eq_def]
  simp only [hkind, htarget, hhead, hposition, hc, he, h, ok_bind, ne_eq, not_true_eq_false,
    if_false, Bool.false_eq_true]
  rfl

theorem yields_swizzle {c : Token} (hkind : t.kind = .operator .dot)
    (htarget : checkTarget target (total - (rest.length + 2)) = .ok ())
    (hc : c.kind = .identifier) (hname : isSwizzle c.text)
    (h : Yields (readSelectors total (swizzle target c.text
      (target.span.join (.single (total - (rest.length + 1))))) rest) v rest') :
    Yields (readSelectors total target (t :: c :: rest)) v rest' := by
  obtain ⟨hlt, h⟩ := h
  refine ⟨by simp; omega, ?_⟩
  rw [readSelectors.eq_def]
  simp only [hkind, List.length_cons, htarget, readDotted, hc, select, hname, ok_bind, if_true]
  exact congrArg (· >>= _) h

theorem yields_factorial (hkind : t.kind = .operator .bang)
    (h : Yields (readSelectors total
      (unary .factorial target (target.span.join (.single (total - (rest.length + 1))))) rest)
      v rest') :
    Yields (readSelectors total target (t :: rest)) v rest' := by
  obtain ⟨hlt, h⟩ := h
  refine ⟨by simp; omega, ?_⟩
  rw [readSelectors.eq_def]
  simp only [hkind, h, ok_bind]
  rfl

/-! ### Operators before an operand -/

theorem yields_operand (ht : ∀ t ∈ ts.head?, prefixOp? t.kind = none)
    (htarget : Yields (readOperand total ts) target rest)
    (h : Yields (readSelectors total target rest) v rest') :
    Yields (readUnary total ts) v rest' := by
  obtain ⟨hlt, htarget⟩ := htarget
  obtain ⟨hlt', h⟩ := h
  refine ⟨by omega, ?_⟩
  cases ts with
  | nil => cases hlt
  | cons t ts =>
    rw [readUnary.eq_def]
    simp only [ht t rfl]
    rw [readSelection.eq_def]
    simp only [htarget, h, ok_bind]
    rfl

theorem yields_prefixed {op : UnaryOp} (ht : prefixOp? t.kind = some op)
    (h : Yields (readBinary total UnaryOp.precedence ts) e rest) :
    Yields (readUnary total (t :: ts))
      (unary op e ((Span.single (total - (ts.length + 1))).join e.span)) rest := by
  obtain ⟨hlt, h⟩ := h
  refine ⟨by simp; omega, ?_⟩
  rw [readUnary.eq_def]
  simp only [ht, h, ok_bind]
  rfl

/-! ### Binary operators -/

theorem yields_operators_stop (h : bond ts < least + 4) :
    Yields (readOperators total least left ts) left ts := by
  refine ⟨by simp, ?_⟩
  rw [readOperators.eq_def]
  cases ts with
  | nil => rfl
  | cons t rest =>
    dsimp only
    split
    · rfl
    · rename_i op hop
      have hbond : op.precedence + 4 < least + 4 := bond_binaryOp hop ▸ h
      exact if_pos (by omega)

theorem yields_operators {op : BinaryOp} (hop : binaryOp? t.kind = some op)
    (hleast : least ≤ op.precedence)
    (hright : Yields (readBinary total (op.precedence + 1) ts) right rest)
    (h : Yields (readOperators total least (binary op left right (left.span.join right.span)) rest)
      v rest') :
    Yields (readOperators total least left (t :: ts)) v rest' := by
  obtain ⟨hlt, hright⟩ := hright
  obtain ⟨hlt', h⟩ := h
  refine ⟨by simp; omega, ?_⟩
  rw [readOperators.eq_def]
  simp only [hop, if_neg (Nat.not_lt.mpr hleast), hright, h, ok_bind]
  rfl

theorem yields_binary (hleft : Yields (readUnary total ts) left rest)
    (h : Yields (readOperators total least left rest) v rest') :
    Yields (readBinary total least ts) v rest' := by
  obtain ⟨hlt, hleft⟩ := hleft
  obtain ⟨hlt', h⟩ := h
  refine ⟨by omega, ?_⟩
  rw [readBinary.eq_def]
  simp only [hleft, h, ok_bind]
  rfl

/-! ### Conditionals, ranges and comprehensions -/

theorem yields_unconditional (h : Yields (readBinary total 1 ts) v rest) (hrest : bond rest < 4) :
    Yields (readConditional total ts) v rest := by
  obtain ⟨hlt, h⟩ := h
  refine ⟨hlt, ?_⟩
  rw [readConditional.eq_def]
  simp only [h, ok_bind]
  cases rest with
  | nil => rfl
  | cons t rest =>
    refine if_neg fun hif => ?_
    simp [bond, hif, Token.Kind.bond] at hrest

theorem yields_conditional {t' : Token} {ts' : List Token} {condition : Expr}
    (hconsequent : Yields (readBinary total 1 ts) left (t :: ts'))
    (ht : t.kind = .operator .ifWord)
    (hcondition : Yields (readBinary total 1 ts') condition (t' :: rest))
    (ht' : t'.kind = .operator .elseWord)
    (halternative : Yields (readConditional total rest) right rest') :
    Yields (readConditional total ts)
      (conditional left condition right (left.span.join right.span)) rest' := by
  obtain ⟨hlt, hconsequent⟩ := hconsequent
  obtain ⟨hlt', hcondition⟩ := hcondition
  obtain ⟨hlt'', halternative⟩ := halternative
  refine ⟨by simp at hlt hlt'; omega, ?_⟩
  rw [readConditional.eq_def]
  simp only [hconsequent, ht, hcondition, ht', halternative, ok_bind, if_true]
  rfl

theorem yields_single (h : Yields (readConditional total ts) v rest) (hrest : bond rest < 3) :
    Yields (readRange total inArray ts) v rest := by
  obtain ⟨hlt, h⟩ := h
  refine ⟨hlt, ?_⟩
  rw [readRange.eq_def]
  simp only [h, ok_bind]
  cases rest with
  | nil => rfl
  | cons t rest =>
    refine if_neg fun hellipsis => ?_
    simp [bond, hellipsis, Token.Kind.bond] at hrest

theorem yields_range {ts' : List Token} (hlower : Yields (readConditional total ts) left (t :: ts'))
    (ht : t.kind = .operator .ellipsis)
    (hupper : Yields (readConditional total ts') right rest) (hrest : bond rest < 3) :
    Yields (readRange total true ts) (range left right (left.span.join right.span)) rest := by
  obtain ⟨hlt, hlower⟩ := hlower
  obtain ⟨hlt', hupper⟩ := hupper
  refine ⟨by simp at hlt; omega, ?_⟩
  have hhead : rest.head?.any (·.kind = .operator .ellipsis) = false := by
    cases rest with
    | nil => rfl
    | cons t rest =>
      refine decide_eq_false fun hellipsis => ?_
      simp [bond, hellipsis, Token.Kind.bond] at hrest
  rw [readRange.eq_def]
  simp only [hlower, ht, hupper, hhead, ok_bind, if_true, Bool.not_true, Bool.false_eq_true,
    if_false]
  rfl

theorem yields_clauses_stop (h : bond ts < 1) :
    Yields (readClauses total inArray body ts) body ts := by
  refine ⟨by simp, ?_⟩
  rw [readClauses.eq_def]
  cases ts with
  | nil => rfl
  | cons t rest =>
    refine if_neg fun hfor => ?_
    simp [bond, hfor, Token.Kind.bond] at h

theorem yields_comprehension {binder sign : Token} (ht : t.kind = .operator .forWord)
    (hbinder : binder.kind = .identifier) (hsign : sign.kind = .operator .assign)
    (hsource : Yields (readRange total true ts) source rest) (hrest : bond rest < 2)
    (h : Yields (readClauses total true (comprehension body binder.text source
      (body.span.join ⟨total - (ts.length + 3), total - rest.length⟩)) rest) v rest') :
    Yields (readClauses total true body (t :: binder :: sign :: ts)) v rest' := by
  obtain ⟨hlt, hsource⟩ := hsource
  obtain ⟨hlt', h⟩ := h
  refine ⟨by simp; omega, ?_⟩
  rw [readClauses.eq_def]
  simp only [ht, if_true, readBinder, hbinder, hsign, ok_bind, hsource, Bool.not_true,
    Bool.false_eq_true, if_false, ne_eq, not_true_eq_false]
  cases rest with
  | nil =>
    rw [readClauses.eq_def] at h
    cases h
    rfl
  | cons w rest =>
    dsimp only
    rw [if_neg]
    · simp only [List.length_cons] at h ⊢
      rw [h]
      rfl
    · intro hwhen
      simp [bond, hwhen, Token.Kind.bond] at hrest

theorem yields_filtered {binder sign w : Token} {ts' : List Token} {condition : Expr}
    (ht : t.kind = .operator .forWord) (hbinder : binder.kind = .identifier)
    (hsign : sign.kind = .operator .assign)
    (hsource : Yields (readRange total true ts) source (w :: ts'))
    (hw : w.kind = .operator .whenWord)
    (hcondition : Yields (readConditional total ts') condition rest)
    (h : Yields (readClauses total true (filtered body binder.text source condition
      (body.span.join ⟨total - (ts.length + 3), total - rest.length⟩)) rest) v rest') :
    Yields (readClauses total true body (t :: binder :: sign :: ts)) v rest' := by
  obtain ⟨hlt, hsource⟩ := hsource
  obtain ⟨hlt', hcondition⟩ := hcondition
  obtain ⟨hlt'', h⟩ := h
  refine ⟨by simp at hlt ⊢; omega, ?_⟩
  rw [readClauses.eq_def]
  simp only [ht, if_true, readBinder, hbinder, hsign, ok_bind, hsource, Bool.not_true,
    Bool.false_eq_true, if_false, ne_eq, not_true_eq_false, hw, hcondition]
  simp only [List.length_cons] at h ⊢
  rw [h]
  rfl

theorem yields_whole (hbody : Yields (readRange total inArray ts) body rest)
    (h : Yields (readClauses total inArray body rest) v rest') :
    Yields (read total inArray ts) v rest' := by
  obtain ⟨hlt, hbody⟩ := hbody
  obtain ⟨hlt', h⟩ := h
  refine ⟨by omega, ?_⟩
  rw [read.eq_def]
  simp only [hbody, h, ok_bind]
  rfl

end Expr

end VectorScript
