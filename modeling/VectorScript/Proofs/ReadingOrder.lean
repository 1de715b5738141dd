import VectorScript.Proofs.ParserForms
import VectorScript.Proofs.PrintedStatements

/-!
# The order of what is read

An expression says what its tokens say, in the same order.  Brackets, commas and dots only show how
a tree is built, so they are left out; every other token is found once in the tree, a number by its
value.  Each function that reads expressions hands on the tokens behind what it has read, so nothing
is lost or read twice in between either.

* `Token.lexeme?`: what a token says.
* `Expr.lexemes`: what a tree says, from left to right.
* `Expr.OrderedAt`: what the functions read from so many tokens is what these say.
* `Expr.lexemes_of_ofTokens`: a tree says what all of its tokens say.
-/

namespace VectorScript

/-- What a word of a script says.  A number that cannot be read has no value. -/
inductive Lexeme where
  | number (value : Option Float32)
  | name (text : String)
  | sign (op : Operator)
  | keyword (word : Keyword)
  | unknown (text : String)

/-- What a token says; brackets, commas and dots say nothing. -/
@[simp] def Token.lexeme? (t : Token) : Option Lexeme :=
  match t.kind with
  | .bracket _ | .comma | .operator .dot => none
  | .number => some (.number (Scalar.read? t.text))
  | .identifier => some (.name t.text)
  | .operator op => some (.sign op)
  | .keyword word => some (.keyword word)
  | .unknown => some (.unknown t.text)

/-- What some tokens say. -/
def said (ts : List Token) : List Lexeme := ts.filterMap Token.lexeme?

@[simp] theorem said_nil : said [] = [] := rfl

/-! ### Tokens -/

section

variable {t : Token} {ts : List Token}

theorem said_number (h : t.kind = .number) :
    said (t :: ts) = .number (Scalar.read? t.text) :: said ts := by
  simp [said, h]

theorem said_identifier (h : t.kind = .identifier) : said (t :: ts) = .name t.text :: said ts := by
  simp [said, h]

theorem said_bracket {b : Bracket} (h : t.kind = .bracket b) : said (t :: ts) = said ts := by
  simp [said, h]

theorem said_comma (h : t.kind = .comma) : said (t :: ts) = said ts := by
  simp [said, h]

theorem said_dot (h : t.kind = .operator .dot) : said (t :: ts) = said ts := by
  simp [said, h]

theorem said_operator {op : Operator} (h : t.kind = .operator op) (hdot : op ≠ .dot) :
    said (t :: ts) = .sign op :: said ts := by
  cases op <;> simp_all [said]

end

namespace Expr

/-! ### Trees -/

mutual

/-- What a tree says: every operator stands where it was written. -/
@[simp] def lexemes : Expr → List Lexeme
  | constant x _ => [.number (some x)]
  | identifier name _ => [.name name]
  | vector items _ | array items _ => allLexemes items
  | comprehension body binder source _ =>
    lexemes body ++ .sign .forWord :: .name binder :: .sign .assign :: lexemes source
  | filtered body binder source condition _ =>
    lexemes body ++ .sign .forWord :: .name binder :: .sign .assign ::
      (lexemes source ++ .sign .whenWord :: lexemes condition)
  | call name args _ => .name name :: allLexemes args
  | unary .factorial operand _ => lexemes operand ++ [.sign .bang]
  | unary op operand _ => .sign op.operator :: lexemes operand
  | binary op left right _ => lexemes left ++ .sign op.operator :: lexemes right
  | range lower upper _ => lexemes lower ++ .sign .ellipsis :: lexemes upper
  | index target position _ => lexemes target ++ lexemes position
  | swizzle target components _ => lexemes target ++ [.name components]
  | conditional consequent condition alternative _ =>
    lexemes consequent ++ .sign .ifWord ::
      (lexemes condition ++ .sign .elseWord :: lexemes alternative)

/-- What some trees say one after the other. -/
@[simp] def allLexemes : List Expr → List Lexeme
  | [] => []
  | e :: rest => lexemes e ++ allLexemes rest

end

/-- What is read says the given words, together with the tokens that are left. -/
def Orders {α : Type} {n : Nat} (lexemes : α → List Lexeme)
    (x : Except SyntaxError (Reading α n)) (words : List Lexeme) : Prop :=
  ∀ r, x = .ok r → words = lexemes r.value ++ said r.rest

namespace Orders

variable {α β : Type} {n : Nat} {lexemes : α → List Lexeme} {words : List Lexeme}

theorem ok {value : α} {rest : List Token} {hshort : rest.length < n}
    (h : words = lexemes value ++ said rest) :
    Orders lexemes (.ok ⟨value, rest, hshort⟩) words := by
  intro r hr
  cases hr
  exact h

theorem error (e : SyntaxError) :
    Orders lexemes (.error e : Except SyntaxError (Reading α n)) words := nofun

theorem bind {x : Except SyntaxError β} {f : β → Except SyntaxError (Reading α n)}
    (h : ∀ b, x = .ok b → Orders lexemes (f b) words) : Orders lexemes (x >>= f) words := by
  intro r hr
  obtain ⟨b, hb, hr⟩ := bind_eq_ok.mp hr
  exact h b hb r hr

end Orders

/-- What is read from `n` tokens says what they say, behind what was read before. -/
structure OrderedAt (n : Nat) : Prop where
  read : ∀ total inArray ts, ts.length = n → Orders lexemes (read total inArray ts) (said ts)
  readClauses : ∀ total inArray body ts, ts.length = n →
    Orders lexemes (readClauses total inArray body ts) (body.lexemes ++ said ts)
  readRange : ∀ total inArray ts, ts.length = n →
    Orders lexemes (readRange total inArray ts) (said ts)
  readConditional : ∀ total ts, ts.length = n →
    Orders lexemes (readConditional total ts) (said ts)
  readBinary : ∀ total least ts, ts.length = n →
    Orders lexemes (readBinary total least ts) (said ts)
  readOperators : ∀ total least left ts, ts.length = n →
    Orders lexemes (readOperators total least left ts) (left.lexemes ++ said ts)
  readSelectors : ∀ total target ts, ts.length = n →
    Orders lexemes (readSelectors total target ts) (target.lexemes ++ said ts)
  readDotted : ∀ total dot ts, ts.length = n →
    Orders lexemes (readDotted total dot ts) (said ts)
  readList : ∀ total inArray closer ts, ts.length = n →
    Orders allLexemes (readList total inArray closer ts) (said ts)
  readItems : ∀ total inArray closer ts, ts.length = n →
    Orders allLexemes (readItems total inArray closer ts) (said ts)

/-! ### Parts of expressions -/

theorem kind_of_binaryOp? {kind : Token.Kind} {op : BinaryOp} (h : binaryOp? kind = some op) :
    kind = .operator op.operator ∧ op.operator ≠ .dot := by
  cases kind with
  | operator sign =>
    cases sign <;> simp only [binaryOp?, BinaryOp.ofOperator?, Option.some.injEq, reduceCtorEq] at h
    all_goals
      subst h
      exact ⟨rfl, by simp [BinaryOp.operator]⟩
  | _ => cases h

theorem kind_of_prefixOp? {kind : Token.Kind} {op : UnaryOp} (h : prefixOp? kind = some op) :
    kind = .operator op.operator ∧ op.operator ≠ .dot ∧ op ≠ .factorial := by
  unfold prefixOp? at h
  split at h <;> cases h <;> exact ⟨rfl, by simp [UnaryOp.operator], by simp⟩

theorem lexemes_prefixed {op : UnaryOp} {operand : Expr} {span : Span} (h : op ≠ .factorial) :
    (unary op operand span).lexemes = .sign op.operator :: operand.lexemes := by
  cases op <;> simp_all [lexemes]

theorem lexemes_parenthesized {items : List Expr} {span : Span} {e : Expr}
    (h : parenthesized items span = .ok e) : e.lexemes = allLexemes items := by
  unfold parenthesized at h
  split at h
  · cases h
  · cases h
    simp [allLexemes]
  · split_ifs at h
    cases h
    rw [lexemes]

theorem lexemes_select {target position : Expr} {span : Span} {e : Expr}
    (h : select target position span = .ok e) :
    e.lexemes = target.lexemes ++ position.lexemes := by
  unfold select at h
  split at h
  · split_ifs at h
    all_goals
      cases h
      simp only [lexemes]
  · cases h
  · cases h
    rw [lexemes]

/-- The binder of a comprehension is a name with the sign behind it. -/
theorem readBinder_ordered {start : Nat} {ts : List Token} {r : Reading String ts.length}
    (h : readBinder start ts = .ok r) :
    said ts = .name r.value :: .sign .assign :: said r.rest := by
  unfold readBinder at h
  split at h
  · cases h
  · split_ifs at h
  · rename_i name sign rest
    split_ifs at h with hname hsign
    cases h
    rw [said_identifier (not_not.mp hname), said_operator (not_not.mp hsign) (by simp)]

/-! ### Reading -/

section

variable {n total : Nat} {inArray : Bool} {ts : List Token}

theorem readOperand_ordered (ih : ∀ k < n, OrderedAt k) (hn : ts.length = n) :
    Orders lexemes (readOperand total ts) (said ts) := by
  subst hn
  rw [readOperand.eq_def]
  cases ts with
  | nil => exact .error _
  | cons t rest =>
    dsimp only
    split
    · rename_i hkind
      split
      · rename_i x hx
        refine .ok ?_
        rw [said_number hkind, hx, lexemes]
        rfl
      · exact .error _
    · rename_i hkind
      rw [said_identifier hkind]
      split
      · exact .ok rfl
      · split_ifs with hparen
        · refine .bind fun args hargs => .ok ?_
          have hsaid := (ih _ (by simp only [List.length_cons]; omega)).readList _ _ _ _ rfl _ hargs
          rw [said_bracket hparen, hsaid, lexemes]
          rfl
        · exact .ok rfl
    · rename_i hkind
      refine .bind fun items hitems => .bind fun e he => .ok ?_
      have hsaid := (ih _ (by simp)).readList _ _ _ _ rfl _ hitems
      rw [said_bracket hkind, hsaid, lexemes_parenthesized he]
    · rename_i hkind
      refine .bind fun items hitems => ?_
      split_ifs
      · exact .error _
      · refine .ok ?_
        have hsaid := (ih _ (by simp)).readList _ _ _ _ rfl _ hitems
        rw [said_bracket hkind, hsaid, lexemes]
    · exact .error _
    · exact .error _

theorem readOperators_ordered (ih : ∀ k < n, OrderedAt k) (hn : ts.length = n) {least : Nat}
    {left : Expr} :
    Orders lexemes (readOperators total least left ts) (left.lexemes ++ said ts) := by
  subst hn
  rw [readOperators.eq_def]
  cases ts with
  | nil => exact .ok rfl
  | cons t rest =>
    dsimp only
    split
    · exact .ok rfl
    · rename_i op hop
      split_ifs
      · exact .ok rfl
      · refine .bind fun right hright => .bind fun whole hwhole => .ok ?_
        have hshort := right.shorter
        obtain ⟨hkind, hdot⟩ := kind_of_binaryOp? hop
        have hoperand := (ih rest.length (by simp)).readBinary _ _ _ rfl _ hright
        have hrest := (ih right.rest.length (by simp only [List.length_cons]; omega)).readOperators
          _ _ _ _ rfl _ hwhole
        rw [said_operator hkind hdot, hoperand, ← hrest, lexemes]
        simp

theorem readSelectors_ordered (ih : ∀ k < n, OrderedAt k) (hn : ts.length = n) {target : Expr} :
    Orders lexemes (readSelectors total target ts) (target.lexemes ++ said ts) := by
  subst hn
  rw [readSelectors.eq_def]
  cases ts with
  | nil => exact .ok rfl
  | cons t rest =>
    dsimp only
    split
    · rename_i hkind
      refine .bind fun _ _ => ?_
      split_ifs
      · exact .error _
      · refine .bind fun index hindex => ?_
        split
        · exact .error _
        · split_ifs with hcloser
          · exact .error _
          · rename_i c rest' hrest
            refine .bind fun chosen hchosen => .bind fun whole hwhole => .ok ?_
            have hshort := Reading.length_lt hrest
            have hposition := (ih rest.length (by simp)).read _ _ _ rfl _ hindex
            have hwhole := (ih rest'.length (by simp only [List.length_cons]; omega)).readSelectors
              _ _ _ rfl _ hwhole
            rw [said_bracket hkind, hposition, hrest, said_bracket (not_not.mp hcloser), ← hwhole,
              lexemes_select hchosen, List.append_assoc]
    · rename_i hkind
      refine .bind fun _ _ => .bind fun index hindex => .bind fun chosen hchosen =>
        .bind fun whole hwhole => .ok ?_
      have hshort := index.shorter
      have hposition := (ih rest.length (by simp)).readDotted _ _ _ rfl _ hindex
      have hwhole := (ih index.rest.length (by simp only [List.length_cons]; omega)).readSelectors
        _ _ _ rfl _ hwhole
      rw [said_dot hkind, hposition, ← hwhole, lexemes_select hchosen, List.append_assoc]
    · rename_i hkind
      refine .bind fun whole hwhole => .ok ?_
      have hwhole := (ih rest.length (by simp)).readSelectors _ _ _ rfl _ hwhole
      rw [said_operator hkind (by simp), ← hwhole, lexemes]
      simp
    · exact .error _
    · exact .ok rfl

theorem readDotted_ordered (ih : ∀ k < n, OrderedAt k) (hn : ts.length = n) {dot : Nat} :
    Orders lexemes (readDotted total dot ts) (said ts) := by
  rw [readDotted.eq_def]
  split
  · exact .error _
  · dsimp only
    split
    · rename_i hkind
      refine .ok ?_
      rw [said_identifier hkind, lexemes]
      rfl
    · exact .error _
    · exact readOperand_ordered ih hn
    · exact .error _

theorem readSelection_ordered (ih : ∀ k < n, OrderedAt k) (hn : ts.length = n) :
    Orders lexemes (readSelection total ts) (said ts) := by
  subst hn
  rw [readSelection.eq_def]
  refine .bind fun target htarget => .bind fun whole hwhole => .ok ?_
  rw [readOperand_ordered ih rfl _ htarget]
  exact (ih _ target.shorter).readSelectors _ _ _ rfl _ hwhole

theorem readUnary_ordered (ih : ∀ k < n, OrderedAt k) (hn : ts.length = n) :
    Orders lexemes (readUnary total ts) (said ts) := by
  subst hn
  rw [readUnary.eq_def]
  cases ts with
  | nil => exact .error _
  | cons t rest =>
    dsimp only
    split
    · exact readSelection_ordered ih rfl
    · rename_i op hop
      refine .bind fun operand hoperand => .ok ?_
      obtain ⟨hkind, hdot, hprefix⟩ := kind_of_prefixOp? hop
      have hsaid := (ih rest.length (by simp)).readBinary _ _ _ rfl _ hoperand
      rw [said_operator hkind hdot, hsaid, lexemes_prefixed hprefix]
      rfl

theorem readBinary_ordered (ih : ∀ k < n, OrderedAt k) (hn : ts.length = n) {least : Nat} :
    Orders lexemes (readBinary total least ts) (said ts) := by
  subst hn
  rw [readBinary.eq_def]
  refine .bind fun left hleft => .bind fun whole hwhole => .ok ?_
  rw [readUnary_ordered ih rfl _ hleft]
  exact (ih _ left.shorter).readOperators _ _ _ _ rfl _ hwhole

theorem readConditional_ordered (ih : ∀ k < n, OrderedAt k) (hn : ts.length = n) :
    Orders lexemes (readConditional total ts) (said ts) := by
  subst hn
  rw [readConditional.eq_def]
  refine .bind fun consequent hconsequent => ?_
  have hfirst := readBinary_ordered ih rfl _ hconsequent
  dsimp only
  split
  · exact .ok hfirst
  · rename_i t rest hrest
    split_ifs with hif
    · refine .bind fun condition hcondition => ?_
      have hshort := Reading.length_lt hrest
      have hsecond := (ih rest.length hshort).readBinary _ _ _ rfl _ hcondition
      split
      · exact .error _
      · rename_i t' rest' hrest'
        split_ifs with helse
        · refine .bind fun alternative halternative => .ok ?_
          have hshort' := Reading.length_lt hrest'
          have hthird := (ih rest'.length (by omega)).readConditional _ _ rfl _ halternative
          rw [hfirst, hrest, said_operator hif (by simp), hsecond, hrest',
            said_operator helse (by simp), hthird, lexemes]
          simp
        · exact .error _
    · exact .ok hfirst

theorem readRange_ordered (ih : ∀ k < n, OrderedAt k) (hn : ts.length = n) :
    Orders lexemes (readRange total inArray ts) (said ts) := by
  subst hn
  rw [readRange.eq_def]
  refine .bind fun lower hlower => ?_
  have hfirst := readConditional_ordered ih rfl _ hlower
  dsimp only
  split
  · exact .ok hfirst
  · rename_i t rest hrest
    split_ifs with hellipsis hin
    · exact .error _
    · refine .bind fun upper hupper => ?_
      have hsecond := (ih rest.length (Reading.length_lt hrest)).readConditional _ _ rfl _ hupper
      split_ifs
      · exact .error _
      · refine .ok ?_
        rw [hfirst, hrest, said_operator hellipsis (by simp), hsecond, lexemes]
        simp
    · exact .ok hfirst

theorem readClauses_ordered (ih : ∀ k < n, OrderedAt k) (hn : ts.length = n) {body : Expr} :
    Orders lexemes (readClauses total inArray body ts) (body.lexemes ++ said ts) := by
  subst hn
  rw [readClauses.eq_def]
  cases ts with
  | nil => exact .ok rfl
  | cons t rest =>
    dsimp only
    split_ifs with hfor hin
    · exact .error _
    · refine .bind fun binder hbinder => .bind fun source hsource => ?_
      have hshort := binder.shorter
      have hsecond := (ih binder.rest.length (by simp only [List.length_cons]; omega)).readRange
        _ _ _ rfl _ hsource
      rw [said_operator hfor (by simp), readBinder_ordered hbinder, hsecond]
      split
      · rename_i w rest' hrest
        have hshort' := Reading.length_lt hrest
        split_ifs with hwhen
        · refine .bind fun condition hcondition => .bind fun whole hwhole => .ok ?_
          have hthird := (ih rest'.length (by simp only [List.length_cons]; omega)).readConditional
            _ _ rfl _ hcondition
          have hshort'' := condition.shorter
          have hwhole := (ih condition.rest.length
            (by simp only [List.length_cons]; omega)).readClauses _ _ _ _ rfl _ hwhole
          rw [hrest, said_operator hwhen (by simp), hthird, ← hwhole, lexemes]
          simp
        · refine .bind fun whole hwhole => .ok ?_
          have hsource := source.shorter
          have hwhole := (ih source.rest.length
            (by simp only [List.length_cons]; omega)).readClauses _ _ _ _ rfl _ hwhole
          rw [← hwhole, lexemes]
          simp
      · rename_i hrest
        refine .ok ?_
        rw [hrest, lexemes]
        simp
    · exact .ok rfl

theorem read_ordered (ih : ∀ k < n, OrderedAt k) (hn : ts.length = n) :
    Orders lexemes (read total inArray ts) (said ts) := by
  subst hn
  rw [read.eq_def]
  refine .bind fun body hbody => .bind fun whole hwhole => .ok ?_
  rw [readRange_ordered ih rfl _ hbody]
  exact (ih _ body.shorter).readClauses _ _ _ _ rfl _ hwhole

theorem readItems_ordered (ih : ∀ k < n, OrderedAt k) (hn : ts.length = n) {closer : Bracket} :
    Orders allLexemes (readItems total inArray closer ts) (said ts) := by
  subst hn
  rw [readItems.eq_def]
  refine .bind fun item hitem => ?_
  have hfirst := read_ordered ih rfl _ hitem
  dsimp only
  split
  · exact .error _
  · rename_i t rest hrest
    split_ifs with hcomma hcloser
    · refine .bind fun items hitems => .ok ?_
      have hsaid := (ih rest.length (Reading.length_lt hrest)).readItems _ _ _ _ rfl _ hitems
      rw [hfirst, hrest, said_comma hcomma, hsaid, allLexemes, List.append_assoc]
    · refine .ok ?_
      rw [hfirst, hrest, said_bracket hcloser]
      simp [allLexemes]
    · exact .error _

theorem readList_ordered (ih : ∀ k < n, OrderedAt k) (hn : ts.length = n) {closer : Bracket} :
    Orders allLexemes (readList total inArray closer ts) (said ts) := by
  rw [readList.eq_def]
  split
  · exact readItems_ordered ih hn
  · split_ifs with hcloser
    · exact .ok (said_bracket hcloser)
    · exact readItems_ordered ih hn

end

/-- Whatever is read says what its tokens say. -/
theorem orderedAt (n : Nat) : OrderedAt n := by
  -- on the number of tokens: every reader hands on fewer than it was given
  induction n using Nat.strongRecOn with
  | ind n ih =>
    exact {
      read := fun _ _ _ hn => read_ordered ih hn
      readClauses := fun _ _ _ _ hn => readClauses_ordered ih hn
      readRange := fun _ _ _ hn => readRange_ordered ih hn
      readConditional := fun _ _ hn => readConditional_ordered ih hn
      readBinary := fun _ _ _ hn => readBinary_ordered ih hn
      readOperators := fun _ _ _ _ hn => readOperators_ordered ih hn
      readSelectors := fun _ _ _ hn => readSelectors_ordered ih hn
      readDotted := fun _ _ _ hn => readDotted_ordered ih hn
      readList := fun _ _ _ _ hn => readList_ordered ih hn
      readItems := fun _ _ _ _ hn => readItems_ordered ih hn }

/-- A tree that is read from tokens says what the tokens say, from the first to the last one. -/
theorem lexemes_of_ofTokens {ts : List Token} {e : Expr} (h : ofTokens ts = .ok e) :
    said ts = e.lexemes := by
  obtain ⟨-, -, h⟩ := bind_eq_ok.mp h
  unfold Statement.readBody at h
  split_ifs at h
  · cases h
  obtain ⟨body, hbody, h⟩ := bind_eq_ok.mp h
  split_ifs at h with hend
  cases h
  have hsaid := (orderedAt _).read _ _ _ rfl _ hbody
  rw [List.isEmpty_iff.mp hend, said_nil, List.append_nil] at hsaid
  exact hsaid

/-- The tokens of a wave are read, and the tree says what they say. -/
theorem wave_lexemes : ∃ e : Expr, ofTokens (wave.print Scalar.text) = .ok e ∧
    e.plain = wave.plain ∧ said (wave.print Scalar.text) = e.lexemes := by
  have hnumerals : ∀ x span, .constant x span ∈ wave.nodes →
      Scalar.read? (Scalar.text x) = some x := by
    intro x span hx
    obtain ⟨rfl, -⟩ : x = 0.5 ∧ span = .none := by simpa [wave, nodes, allNodes] using hx
    decide +kernel
  have hread := plain_ofTokens (readsBack (e := wave) (by rfl) hnumerals)
  cases he : ofTokens (wave.print Scalar.text) with
  | error cause =>
    rw [he] at hread
    cases hread
  | ok e =>
    rw [he] at hread
    exact ⟨e, rfl, Except.ok.inj hread, lexemes_of_ofTokens he⟩

end Expr

end VectorScript
