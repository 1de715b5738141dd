import VectorScript.Proofs.Printing
import VectorScript.Proofs.ReadingRules

/-!
# Reading printed expressions

Whatever is printed is read back, up to spans.  An expression is read on several levels, so it is
said for each level what tokens are read as there, whatever follows them as long as it does not bind
to them: where operands are due reading goes on with the operators behind them, and in an array with
the clauses.

* `TightAs`, `OperandAs`, `ConditionalAs`, `RangeAs`, `WholeAs`: tokens are read as an expression.
* `Expr.ReadsBack`: printed tokens are read as the printed expression on all levels it can stand on.
* `Expr.readsBack`: so are all well-formed expressions.
-/

namespace VectorScript

open VectorScript.Expr

variable {e : Expr} {ts : List Token} {least hold : Nat} {inArray : Bool}

/-! ### Levels -/

/-- Read as `e` where an operand is due, and what follows selects from it. -/
def TightAs (ts : List Token) (e : Expr) : Prop :=
  ∀ total rest, NoCall rest → ∃ e' : Expr, e'.plain = e.plain ∧
    ∀ {v r}, Yields (readSelectors total e' rest) v r → Yields (readUnary total (ts ++ rest)) v r

/-- Read as `e` where operands joined by operators of at least a precedence are due, if what follows
binds less than `hold`. -/
def OperandAs (least hold : Nat) (ts : List Token) (e : Expr) : Prop :=
  ∀ total rest, bond rest < hold → ∃ e' : Expr, e'.plain = e.plain ∧
    ∀ {v r}, Yields (readOperators total least e' rest) v r →
      Yields (readBinary total least (ts ++ rest)) v r

/-- Read as `e` where a conditional may stand. -/
def ConditionalAs (ts : List Token) (e : Expr) : Prop :=
  ∀ total rest, bond rest < 4 → ∃ e' : Expr, e'.plain = e.plain ∧
    Yields (readConditional total (ts ++ rest)) e' rest

/-- Read as `e` where a range may stand. -/
def RangeAs (inArray : Bool) (ts : List Token) (e : Expr) : Prop :=
  ∀ total rest, bond rest < 3 → ∃ e' : Expr, e'.plain = e.plain ∧
    Yields (readRange total inArray (ts ++ rest)) e' rest

/-- Read as `e` where a comprehension may stand, and what follows may be one more clause. -/
def WholeAs (inArray : Bool) (ts : List Token) (e : Expr) : Prop :=
  ∀ total rest, bond rest < 2 → ∃ e' : Expr, e'.plain = e.plain ∧
    ∀ {v r}, Yields (readClauses total inArray e' rest) v r →
      Yields (read total inArray (ts ++ rest)) v r

theorem TightAs.operandAs (h : TightAs ts e) : OperandAs least 10 ts e := by
  intro total rest hrest
  obtain ⟨e', he', hread⟩ := h total rest (noCall_of_bond hrest)
  exact ⟨e', he', fun hv => yields_binary (hread (yields_selectors_stop hrest)) hv⟩

theorem OperandAs.mono {hold' : Nat} (h : OperandAs least hold ts e) (hle : hold' ≤ hold) :
    OperandAs least hold' ts e :=
  fun total rest hrest => h total rest (Nat.lt_of_lt_of_le hrest hle)

/-- What follows an operand ends it. -/
theorem OperandAs.yields (h : OperandAs least hold ts e) (total : Nat) (rest : List Token)
    (hhold : bond rest < hold) (hleast : bond rest < least + 4) :
    ∃ e' : Expr, e'.plain = e.plain ∧ Yields (readBinary total least (ts ++ rest)) e' rest := by
  obtain ⟨e', he', hread⟩ := h total rest hhold
  exact ⟨e', he', hread (yields_operators_stop hleast)⟩

theorem OperandAs.conditionalAs (h : OperandAs 1 hold ts e) (hhold : 4 ≤ hold) :
    ConditionalAs ts e := by
  intro total rest hrest
  obtain ⟨e', he', hread⟩ :=
    h.yields total rest (Nat.lt_of_lt_of_le hrest hhold) (Nat.lt_succ_of_lt hrest)
  exact ⟨e', he', yields_unconditional hread hrest⟩

theorem ConditionalAs.rangeAs (h : ConditionalAs ts e) : RangeAs inArray ts e := by
  intro total rest hrest
  obtain ⟨e', he', hread⟩ := h total rest (Nat.lt_succ_of_lt hrest)
  exact ⟨e', he', yields_single hread hrest⟩

theorem RangeAs.wholeAs (h : RangeAs inArray ts e) : WholeAs inArray ts e := by
  intro total rest hrest
  obtain ⟨e', he', hread⟩ := h total rest (Nat.lt_succ_of_lt hrest)
  exact ⟨e', he', fun hv => yields_whole hread hv⟩

/-- What follows an expression ends it. -/
theorem WholeAs.yields (h : WholeAs inArray ts e) (total : Nat) (rest : List Token)
    (hrest : bond rest < 1) :
    ∃ e' : Expr, e'.plain = e.plain ∧ Yields (read total inArray (ts ++ rest)) e' rest := by
  obtain ⟨e', he', hread⟩ := h total rest (Nat.lt_succ_of_lt hrest)
  exact ⟨e', he', hread (yields_clauses_stop hrest)⟩

theorem inParens_append (ts rest : List Token) : inParens ts ++ rest =
    .word (.bracket .openParen) "(" :: (ts ++ .word (.bracket .closeParen) ")" :: rest) := by
  simp [inParens]

theorem inSquares_append (ts rest : List Token) : inSquares ts ++ rest =
    .word (.bracket .openSquare) "[" :: (ts ++ .word (.bracket .closeSquare) "]" :: rest) := by
  simp [inSquares]

theorem bond_word_lt {kind : Token.Kind} {text : String} {rest : List Token} {n : Nat}
    (h : kind.bond < n) : bond (.word kind text :: rest) < n := h

theorem bond_closer_lt {c : Token} {b : Bracket} {rest : List Token} (hc : c.kind = .bracket b)
    (hb : b.isOpen = false) : bond (c :: rest) < 1 := by
  cases b with
  | openParen | openSquare => cases hb
  | closeParen | closeSquare => simp [bond, hc, Token.Kind.bond]

/-- Whatever follows an operand selects from it. -/
theorem TightAs.of_operand {t : Token} (ht : prefixOp? t.kind = none)
    (h : ∀ total rest, NoCall rest → ∃ e' : Expr, e'.plain = e.plain ∧
      Yields (readOperand total (t :: ts ++ rest)) e' rest) : TightAs (t :: ts) e := by
  intro total rest hrest
  obtain ⟨e', he', hread⟩ := h total rest hrest
  refine ⟨e', he', fun hv => yields_operand ?_ hread hv⟩
  rintro _ ⟨⟩
  exact ht

/-- Tokens in parentheses are an operand. -/
theorem WholeAs.tightAs_inParens (h : WholeAs false ts e) : TightAs (inParens ts) e := by
  refine .of_operand rfl fun total rest _ => ?_
  obtain ⟨e', he', hread⟩ :=
    h.yields total (.word (.bracket .closeParen) ")" :: rest) (bond_word_lt (by decide))
  refine ⟨e', he', ?_⟩
  rw [List.cons_append, List.append_assoc]
  exact yields_parenthesized rfl (yields_list rfl (yields_item hread rfl)) rfl

theorem BinaryOp.precedence_bounds (op : BinaryOp) : 1 ≤ op.precedence ∧ op.precedence ≤ 5 := by
  cases op <;> decide

namespace Expr

/-! ### Printed expressions -/

/-- How tightly a token must bind to take away the last operand of an expression. -/
def grasp : Expr → Nat
  | binary op .. => op.precedence + 5
  | e => if e.isPrefixed then UnaryOp.precedence + 4 else 10

/-- Printed tokens are read as the printed expression, on all levels that it can stand on. -/
structure ReadsBack (numeral : Float32 → String) (e : Expr) : Prop where
  tight : e.isOperation = false → e.makesRun = false → TightAs (print numeral e) e
  operand : ∀ least, e.isLooser least = false → e.makesRun = false →
    OperandAs least e.grasp (print numeral e) e
  conditional : e.makesRun = false → ConditionalAs (print numeral e) e
  range : ∀ inArray, e.isComprehension = false → (e.makesRun → inArray = true) →
    RangeAs inArray (print numeral e) e
  whole : ∀ inArray, (e.makesRun → inArray = true) → WholeAs inArray (print numeral e) e

section

variable {numeral : Float32 → String}

theorem grasp_bounds (e : Expr) : 6 ≤ e.grasp ∧ e.grasp ≤ 10 := by
  unfold grasp
  split
  · rename_i op _ _ _
    have := op.precedence_bounds
    omega
  · split <;> decide

theorem isLooser_one (h : e.isConditional = false) : e.isLooser 1 = false := by
  cases e with
  | binary op => exact decide_eq_false (Nat.not_lt.mpr op.precedence_bounds.1)
  | conditional => cases h
  | _ => rfl

theorem isLooser_of_le {least' : Nat} (hle : least' ≤ least) (h : e.isLooser least = false) :
    e.isLooser least' = false := by
  cases e with
  | binary op =>
    simp only [isLooser, decide_eq_false_iff_not] at h ⊢
    omega
  | conditional => cases h
  | _ => rfl

/-- Operators do not reach into an operand that is not looser. -/
theorem le_grasp (h : e.isLooser least = false) (hleast : hold ≤ least + 5)
    (hhold : hold ≤ if e.isPrefixed then UnaryOp.precedence + 4 else 10) : hold ≤ e.grasp := by
  cases e with
  | binary op =>
    simp only [isLooser, decide_eq_false_iff_not] at h
    simp only [grasp]
    omega
  | _ => exact hhold

namespace ReadsBack

theorem of_conditionalAs
    (htight : e.isOperation = false → TightAs (print numeral e) e)
    (hoperand : ∀ least, e.isLooser least = false → OperandAs least e.grasp (print numeral e) e)
    (h : ConditionalAs (print numeral e) e) : ReadsBack numeral e where
  tight hop _ := htight hop
  operand least hlooser _ := hoperand least hlooser
  conditional _ := h
  range _ _ _ := h.rangeAs
  whole _ _ := h.rangeAs.wholeAs

theorem of_tightAs (h : TightAs (print numeral e) e) : ReadsBack numeral e :=
  of_conditionalAs (fun _ => h) (fun _ _ => h.operandAs.mono e.grasp_bounds.2)
    (h.operandAs.conditionalAs (by decide))

theorem of_operandAs (hop : e.isOperation) (hconditional : e.isConditional = false)
    (h : ∀ least, e.isLooser least = false → OperandAs least e.grasp (print numeral e) e) :
    ReadsBack numeral e := by
  refine of_conditionalAs (fun hnot => ?_) h ?_
  · simp [hop] at hnot
  · have hgrasp := e.grasp_bounds
    exact (h 1 (isLooser_one hconditional)).conditionalAs (by omega)

/-- An expression is an operand, in parentheses or without them. -/
theorem operandAs_enclose (h : ReadsBack numeral e) (hrun : e.makesRun = false) {asked : Bool}
    (hlooser : asked = false → e.isLooser least = false) (hgrasp : asked = false → hold ≤ e.grasp)
    (hhold : hold ≤ 10) : OperandAs least hold (enclose asked (print numeral e)) e := by
  cases asked with
  | false => exact (h.operand least (hlooser rfl) hrun).mono (hgrasp rfl)
  | true =>
    have htight := (h.whole false (by simp [hrun])).tightAs_inParens
    exact htight.operandAs.mono hhold

/-- Something can be selected from every expression, in parentheses or without them. -/
theorem tightAs_enclose (h : ReadsBack numeral e) (hrun : e.makesRun = false) :
    TightAs (enclose e.isOperation (print numeral e)) e := by
  cases hop : e.isOperation with
  | false => exact h.tight hop hrun
  | true => exact (h.whole false (by simp [hrun])).tightAs_inParens

theorem of_rangeAs (hrun : e.makesRun) (h : RangeAs true (print numeral e) e) :
    ReadsBack numeral e where
  tight _ hnot := by simp [hrun] at hnot
  operand _ _ hnot := by simp [hrun] at hnot
  conditional hnot := by simp [hrun] at hnot
  range inArray _ hin := by rwa [hin hrun]
  whole inArray hin := by
    rw [hin hrun]
    exact h.wholeAs

theorem of_wholeAs (hcomprehension : e.isComprehension) (h : WholeAs true (print numeral e) e) :
    ReadsBack numeral e := by
  have hrun : e.makesRun := by
    cases e with
    | comprehension | filtered => rfl
    | _ => cases hcomprehension
  exact {
    tight := fun _ hnot => by simp [hrun] at hnot
    operand := fun _ _ hnot => by simp [hrun] at hnot
    conditional := fun hnot => by simp [hrun] at hnot
    range := fun _ hnot _ => by simp [hcomprehension] at hnot
    whole := fun inArray hin => by rwa [hin hrun] }

/-- An expression is an operand of a binary operator, also on a level that is looser than its side
of the operator. -/
theorem operandAs_side {least' : Nat} (h : ReadsBack numeral e) (hrun : e.makesRun = false)
    (hleast : least' ≤ least) (hhold : hold ≤ least + 5) (hten : hold ≤ 10) :
    OperandAs least' hold (enclose (e.isLooser least || e.isPrefixed) (print numeral e)) e := by
  refine h.operandAs_enclose hrun (fun hasked => ?_) (fun hasked => ?_) hten
  all_goals obtain ⟨hlooser, hprefixed⟩ := Bool.or_eq_false_iff.mp hasked
  · exact isLooser_of_le hleast hlooser
  · exact le_grasp hlooser hhold (by simpa [hprefixed] using hten)

theorem operandAs_unlessConditional (h : ReadsBack numeral e) (hrun : e.makesRun = false) :
    OperandAs 1 5 (enclose e.isConditional (print numeral e)) e :=
  h.operandAs_enclose hrun isLooser_one (fun _ => Nat.le_of_succ_le e.grasp_bounds.1) (by decide)

end ReadsBack

/-- Items are read one by one up to the bracket that closes them. -/
theorem yields_printItems (inArray : Bool) {closer : Bracket} {c : Token}
    (hc : c.kind = .bracket closer) (hcloser : closer.isOpen = false) (total : Nat)
    (rest : List Token) :
    ∀ {items : List Expr}, items ≠ [] → (∀ e ∈ items, ReadsBack numeral e) →
      (∀ e ∈ items, e.makesRun → inArray = true) →
      ∃ items', plainAll items' = plainAll items ∧
        Yields (readItems total inArray closer (printItems numeral items ++ c :: rest)) items' rest
  | [], hne, _, _ => absurd rfl hne
  | [e], _, h, hrun => by
    have hwhole := (h e List.mem_cons_self).whole inArray (hrun e List.mem_cons_self)
    obtain ⟨e', he', hread⟩ := hwhole.yields total (c :: rest) (bond_closer_lt hc hcloser)
    exact ⟨[e'], by simp [plainAll, he'], yields_item hread hc⟩
  | e :: next :: others, _, h, hrun => by
    have hwhole := (h e List.mem_cons_self).whole inArray (hrun e List.mem_cons_self)
    obtain ⟨items', hitems', hreads⟩ := yields_printItems inArray hc hcloser total rest
      (List.cons_ne_nil next others) (List.forall_mem_cons.mp h).2 (List.forall_mem_cons.mp hrun).2
    obtain ⟨e', he', hread⟩ := hwhole.yields total
      (.word .comma "," :: (printItems numeral (next :: others) ++ c :: rest))
      (bond_word_lt (by decide))
    refine ⟨e' :: items', by rw [plainAll, he', hitems']; rfl, ?_⟩
    rw [printItems, List.append_assoc, List.cons_append]
    exact yields_items hread rfl hreads

theorem length_eq_of_plainAll {items items' : List Expr} (h : plainAll items' = plainAll items) :
    items'.length = items.length := by
  simpa [plainAll_eq_map] using congrArg List.length h

theorem parenthesized_vector {items : List Expr} (span : Span) (htwo : 2 ≤ items.length)
    (hfour : items.length ≤ 4) : parenthesized items span = .ok (vector items span) := by
  match items with
  | _ :: _ :: _ => exact if_pos hfour

theorem checkTarget_of_isTarget (h : e.isTarget) (position : Nat) :
    checkTarget e position = .ok () := by
  cases e with
  | constant => cases h
  | _ => rfl

theorem makesRun_of_isTarget (h : e.isTarget) : e.makesRun = false := by
  cases e with
  | constant => rfl
  | _ => simpa [isTarget] using h

theorem select_of_isPosition {position : Expr} (h : position.isPosition) (target : Expr)
    (span : Span) : select target position span = .ok (.index target position span) := by
  cases position with
  | vector => cases h
  | identifier name => exact if_neg (by simpa [isPosition] using h)
  | _ => rfl

/-! ### Operands -/

theorem readsBack_constant {x : Float32} {span : Span} (h : Scalar.read? (numeral x) = some x) :
    ReadsBack numeral (.constant x span) := by
  refine .of_tightAs (.of_operand rfl fun total rest _ => ?_)
  refine ⟨_, ?_, yields_number rfl h⟩
  rfl

theorem readsBack_identifier {name : String} {span : Span} :
    ReadsBack numeral (.identifier name span) := by
  refine .of_tightAs (.of_operand rfl fun total rest hrest => ?_)
  refine ⟨_, ?_, yields_identifier rfl hrest⟩
  rfl

theorem readsBack_vector {items : List Expr} {span : Span} (h : ∀ e ∈ items, ReadsBack numeral e)
    (hrun : ∀ e ∈ items, e.makesRun = false) (htwo : 2 ≤ items.length)
    (hfour : items.length ≤ 4) : ReadsBack numeral (.vector items span) := by
  refine .of_tightAs (.of_operand rfl fun total rest _ => ?_)
  obtain ⟨items', hitems', hread⟩ := yields_printItems false
    (c := .word (.bracket .closeParen) ")") rfl rfl total rest
    (List.ne_nil_of_length_pos (by omega)) h (by simp +contextual [hrun])
  have hlength := length_eq_of_plainAll hitems'
  have hvector : ∀ span, parenthesized items' span = .ok (vector items' span) := fun span =>
    parenthesized_vector span (by omega) (by omega)
  rw [List.cons_append, List.append_assoc]
  refine ⟨_, ?_, yields_parenthesized rfl (yields_list rfl hread) (hvector _)⟩
  rw [plain, plain, hitems']

theorem readsBack_array {items : List Expr} {span : Span} (h : ∀ e ∈ items, ReadsBack numeral e)
    (hne : items ≠ []) : ReadsBack numeral (.array items span) := by
  refine .of_tightAs (.of_operand rfl fun total rest _ => ?_)
  obtain ⟨items', hitems', hread⟩ := yields_printItems true
    (c := .word (.bracket .closeSquare) "]") rfl rfl total rest hne h (fun _ _ _ => rfl)
  have hne' : items' ≠ [] := by
    rintro rfl
    exact hne (List.length_eq_zero_iff.mp (length_eq_of_plainAll hitems').symm)
  rw [List.cons_append, List.append_assoc]
  refine ⟨_, ?_, yields_array rfl (yields_list rfl hread) hne'⟩
  rw [plain, plain, hitems']

theorem readsBack_call {name : String} {args : List Expr} {span : Span}
    (h : ∀ e ∈ args, ReadsBack numeral e) (hrun : ∀ e ∈ args, e.makesRun = false) :
    ReadsBack numeral (.call name args span) := by
  refine .of_tightAs (.of_operand rfl fun total rest _ => ?_)
  rw [List.cons_append, inParens_append]
  cases args with
  | nil =>
    refine ⟨_, ?_, yields_call rfl rfl (yields_list_nil rfl)⟩
    rfl
  | cons arg args =>
    obtain ⟨args', hargs', hread⟩ := yields_printItems false
      (c := .word (.bracket .closeParen) ")") rfl rfl total rest (List.cons_ne_nil arg args) h
      (by simp +contextual [hrun])
    refine ⟨_, ?_, yields_call rfl rfl (yields_list rfl hread)⟩
    rw [plain, plain, hargs']
    rfl

/-! ### Operators behind an operand -/

theorem readsBack_factorial {operand : Expr} {span : Span} (h : ReadsBack numeral operand)
    (hrun : operand.makesRun = false) : ReadsBack numeral (.unary .factorial operand span) := by
  refine .of_tightAs fun total rest hrest => ?_
  obtain ⟨e', he', hread⟩ :=
    h.tightAs_enclose hrun total (.unarySign .factorial :: rest) (by rintro _ ⟨⟩; nofun)
  rw [print, List.append_assoc]
  refine ⟨_, ?_, fun hv => hread (yields_factorial rfl hv)⟩
  rw [plain, plain, he']

theorem readsBack_index {target position : Expr} {span : Span} (h : ReadsBack numeral target)
    (hposition : ReadsBack numeral position) (htarget : target.isTarget)
    (hisPosition : position.isPosition) : ReadsBack numeral (.index target position span) := by
  refine .of_tightAs fun total rest _ => ?_
  obtain ⟨e', he', hread⟩ := h.tightAs_enclose (makesRun_of_isTarget htarget) total
    (inSquares (print numeral position) ++ rest) (by rintro _ ⟨⟩; nofun)
  obtain ⟨p', hp', hreadp⟩ := (hposition.whole true fun _ => rfl).yields total
    (.word (.bracket .closeSquare) "]" :: rest) (bond_word_lt (by decide))
  have htarget' : e'.isTarget := by rwa [← isTarget_plain, he', isTarget_plain]
  have hposition' : p'.isPosition := by rwa [← isPosition_plain, hp', isPosition_plain]
  rw [print, List.append_assoc]
  rw [inSquares_append] at hread ⊢
  refine ⟨_, ?_, fun hv => hread (yields_index rfl (checkTarget_of_isTarget htarget' _) hreadp rfl
    (select_of_isPosition hposition' _ _) hv)⟩
  rw [plain, plain, he', hp']

theorem readsBack_swizzle {target : Expr} {components : String} {span : Span}
    (h : ReadsBack numeral target) (htarget : target.isTarget) (hname : isSwizzle components) :
    ReadsBack numeral (.swizzle target components span) := by
  refine .of_tightAs fun total rest _ => ?_
  obtain ⟨e', he', hread⟩ := h.tightAs_enclose (makesRun_of_isTarget htarget) total
    (.word (.operator .dot) "." :: .word .identifier components :: rest) (by rintro _ ⟨⟩; nofun)
  have htarget' : e'.isTarget := by rwa [← isTarget_plain, he', isTarget_plain]
  rw [print, List.append_assoc]
  refine ⟨_, ?_, fun hv =>
    hread (yields_swizzle rfl (checkTarget_of_isTarget htarget' _) rfl hname hv)⟩
  rw [plain, plain, he']
  rfl

/-! ### Operators before and between operands -/

theorem readsBack_prefixed {op : UnaryOp} {operand : Expr} {span : Span} (hop : op ≠ .factorial)
    (h : ReadsBack numeral operand) (hrun : operand.makesRun = false) :
    ReadsBack numeral (.unary op operand span) := by
  have hprefixed : (Expr.unary op operand span).isPrefixed = true := by
    cases op with
    | factorial => exact absurd rfl hop
    | _ => rfl
  refine .of_operandAs hprefixed rfl fun least _ total rest hrest => ?_
  have hbond : bond rest < 8 := by simpa [grasp, hprefixed, UnaryOp.precedence] using hrest
  have hoperand : OperandAs UnaryOp.precedence 8
      (enclose (operand.isLooser UnaryOp.precedence) (print numeral operand)) operand := by
    refine h.operandAs_enclose hrun id (fun hlooser => le_grasp hlooser (by decide) ?_) (by decide)
    split <;> decide
  obtain ⟨e', he', hread⟩ := hoperand.yields total rest hbond hbond
  rw [print_prefixed numeral hop]
  refine ⟨_, ?_, yields_binary (yields_prefixed (prefixOp?_unarySign hop) hread)⟩
  rw [plain, plain, he']

theorem readsBack_binary {op : BinaryOp} {left right : Expr} {span : Span}
    (hleft : ReadsBack numeral left) (hright : ReadsBack numeral right)
    (hrunLeft : left.makesRun = false) (hrunRight : right.makesRun = false) :
    ReadsBack numeral (.binary op left right span) := by
  have hprecedence := op.precedence_bounds
  refine .of_operandAs rfl rfl fun least hlooser total rest hrest => ?_
  have hleast : least ≤ op.precedence := by
    simpa only [isLooser, decide_eq_false_iff_not, Nat.not_lt] using hlooser
  have hbond : bond rest < op.precedence + 5 := hrest
  have hsign : (Token.binarySign op).kind.bond < op.precedence + 5 := by
    rw [bond_binaryOp (binaryOp?_binarySign op)]
    omega
  obtain ⟨r', hr', hreadRight⟩ := (hright.operandAs_side hrunRight
    (Nat.le_refl (op.precedence + 1)) (by omega) (by omega)).yields total rest hbond (by omega)
  -- the left operand is read on the level of the whole, up to the operator
  obtain ⟨l', hl', hreadLeft⟩ := hleft.operandAs_side hrunLeft hleast (Nat.le_refl _) (by omega)
    total (.binarySign op :: _) hsign
  rw [print, List.append_assoc, List.cons_append]
  refine ⟨_, ?_, fun hv => hreadLeft
    (yields_operators (binaryOp?_binarySign op) hleast hreadRight hv)⟩
  rw [plain, plain, hl', hr']

/-! ### Conditionals, ranges and comprehensions -/

theorem readsBack_conditional {consequent condition alternative : Expr} {span : Span}
    (hconsequent : ReadsBack numeral consequent) (hcondition : ReadsBack numeral condition)
    (halternative : ReadsBack numeral alternative) (hrun : consequent.makesRun = false)
    (hrun' : condition.makesRun = false) (hrun'' : alternative.makesRun = false) :
    ReadsBack numeral (.conditional consequent condition alternative span) := by
  refine .of_conditionalAs nofun nofun fun total rest hrest => ?_
  obtain ⟨a', ha', hreada⟩ := halternative.conditional hrun'' total rest hrest
  obtain ⟨c', hc', hreadc⟩ := (hcondition.operandAs_unlessConditional hrun').yields total
    (.word (.operator .elseWord) "else" :: (print numeral alternative ++ rest))
    (bond_word_lt (by decide)) (bond_word_lt (by decide))
  obtain ⟨e', he', hread⟩ := (hconsequent.operandAs_unlessConditional hrun).yields total
    (.word (.operator .ifWord) "if" :: _) (bond_word_lt (by decide)) (bond_word_lt (by decide))
  rw [print, List.append_assoc, List.cons_append, List.append_assoc, List.cons_append]
  refine ⟨_, ?_, yields_conditional hread rfl hreadc rfl hreada⟩
  rw [plain, plain, he', hc', ha']

theorem readsBack_range {lower upper : Expr} {span : Span} (hlower : ReadsBack numeral lower)
    (hupper : ReadsBack numeral upper) (hrun : lower.makesRun = false)
    (hrun' : upper.makesRun = false) : ReadsBack numeral (.range lower upper span) := by
  refine .of_rangeAs rfl fun total rest hrest => ?_
  obtain ⟨l', hl', hreadl⟩ := hlower.conditional hrun total
    (.word (.operator .ellipsis) "..." :: (print numeral upper ++ rest)) (bond_word_lt (by decide))
  obtain ⟨u', hu', hreadu⟩ := hupper.conditional hrun' total rest (Nat.lt_succ_of_lt hrest)
  rw [print, List.append_assoc, List.cons_append]
  refine ⟨_, ?_, yields_range hreadl rfl hreadu hrest⟩
  rw [plain, plain, hl', hu']

theorem readsBack_comprehension {body source : Expr} {binder : String} {span : Span}
    (hbody : ReadsBack numeral body) (hsource : ReadsBack numeral source)
    (hrun : source.isComprehension = false) :
    ReadsBack numeral (.comprehension body binder source span) := by
  refine .of_wholeAs rfl fun total rest hrest => ?_
  obtain ⟨s', hs', hreads⟩ :=
    hsource.range true hrun (fun _ => rfl) total rest (Nat.lt_succ_of_lt hrest)
  obtain ⟨b', hb', hreadb⟩ := hbody.whole true (fun _ => rfl) total
    (binderTokens binder ++ (print numeral source ++ rest)) (bond_word_lt (by decide))
  rw [print, List.append_assoc, List.append_assoc]
  refine ⟨_, ?_, fun hv => hreadb (yields_comprehension rfl rfl rfl hreads hrest hv)⟩
  rw [plain, plain, hb', hs']
  rfl

theorem readsBack_filtered {body source condition : Expr} {binder : String} {span : Span}
    (hbody : ReadsBack numeral body) (hsource : ReadsBack numeral source)
    (hcondition : ReadsBack numeral condition) (hrun : source.isComprehension = false)
    (hrun' : condition.makesRun = false) :
    ReadsBack numeral (.filtered body binder source condition span) := by
  refine .of_wholeAs rfl fun total rest hrest => ?_
  obtain ⟨c', hc', hreadc⟩ := hcondition.conditional hrun' total rest (by omega)
  obtain ⟨s', hs', hreads⟩ := hsource.range true hrun (fun _ => rfl) total
    (.word (.operator .whenWord) "when" :: (print numeral condition ++ rest))
    (bond_word_lt (by decide))
  obtain ⟨b', hb', hreadb⟩ := hbody.whole true (fun _ => rfl) total
    (binderTokens binder ++ (print numeral source ++
      .word (.operator .whenWord) "when" :: (print numeral condition ++ rest)))
    (bond_word_lt (by decide))
  rw [print, List.append_assoc, List.append_assoc, List.append_assoc, List.cons_append]
  refine ⟨_, ?_, fun hv => hreadb (yields_filtered rfl rfl rfl hreads rfl hreadc hv)⟩
  rw [plain, plain, hb', hs', hc']
  rfl

/-! ### Whole trees -/

/-- Every well-formed expression is read back, if its numbers are. -/
theorem readsBack (hformed : e.wellFormed)
    (hnumerals : ∀ x span, constant x span ∈ e.nodes → Scalar.read? (numeral x) = some x) :
    ReadsBack numeral e := by
  induction e using induction_on_children with
  | h e ih =>
    have hnode := everywhere_node hformed
    have hparts : ∀ c ∈ e.children, ReadsBack numeral c := fun c hc =>
      ih c hc (everywhere_child hformed hc) fun x span hx =>
        hnumerals x span (mem_nodes_iff.mpr (.inr ⟨c, hc, hx⟩))
    cases e with
    | constant x span => exact readsBack_constant (hnumerals x span (self_mem_nodes _))
    | identifier name span => exact readsBack_identifier
    | vector items span =>
      simp only [isFormed, Bool.and_eq_true, decide_eq_true_eq, List.all_eq_true,
        Bool.not_eq_true'] at hnode
      exact readsBack_vector hparts hnode.2 hnode.1.1 hnode.1.2
    | array items span =>
      exact readsBack_array hparts (by simpa [isFormed] using hnode)
    | call name args span =>
      exact readsBack_call hparts (by simpa [isFormed] using hnode)
    | comprehension body binder source span =>
      exact readsBack_comprehension (hparts body (by simp [children]))
        (hparts source (by simp [children])) (by simpa [isFormed] using hnode)
    | filtered body binder source condition span =>
      simp only [isFormed, Bool.and_eq_true, Bool.not_eq_true'] at hnode
      exact readsBack_filtered (hparts body (by simp [children]))
        (hparts source (by simp [children])) (hparts condition (by simp [children])) hnode.1 hnode.2
    | unary op operand span =>
      have hrun : operand.makesRun = false := by simpa [isFormed] using hnode
      have hoperand := hparts operand (by simp [children])
      by_cases hop : op = .factorial
      · subst hop
        exact readsBack_factorial hoperand hrun
      · exact readsBack_prefixed hop hoperand hrun
    | binary op left right span =>
      simp only [isFormed, Bool.and_eq_true, Bool.not_eq_true'] at hnode
      exact readsBack_binary (hparts left (by simp [children])) (hparts right (by simp [children]))
        hnode.1 hnode.2
    | range lower upper span =>
      simp only [isFormed, Bool.and_eq_true, Bool.not_eq_true'] at hnode
      exact readsBack_range (hparts lower (by simp [children])) (hparts upper (by simp [children]))
        hnode.1 hnode.2
    | index target position span =>
      simp only [isFormed, Bool.and_eq_true] at hnode
      exact readsBack_index (hparts target (by simp [children]))
        (hparts position (by simp [children])) hnode.1 hnode.2
    | swizzle target components span =>
      simp only [isFormed, Bool.and_eq_true] at hnode
      exact readsBack_swizzle (hparts target (by simp [children])) hnode.1 hnode.2
    | conditional consequent condition alternative span =>
      simp only [isFormed, Bool.and_eq_true, Bool.not_eq_true'] at hnode
      exact readsBack_conditional (hparts consequent (by simp [children]))
        (hparts condition (by simp [children])) (hparts alternative (by simp [children]))
        hnode.1.1 hnode.1.2 hnode.2

end

end Expr

end VectorScript
