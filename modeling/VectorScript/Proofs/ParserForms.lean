import VectorScript.Proofs.ExprForms
import VectorScript.Proofs.Failing
import VectorScript.Session

/-!
# Forms of parsed expressions

Every tree that the parser accepts is well formed.  The functions that read expressions call each
other on fewer tokens, or on the same tokens for a tighter level; so all of them are treated
together for each number of tokens, the tightest level first.

* `Expr.FormedAt`: what the functions read from so many tokens.
* `Statement.wellFormed_of_mem_parseScript`, `Session.wellFormed_of_readExpr`: what was read is well
  formed.
* `nodes_formed_of_tokens`: the same for any tokens, with the parameters of functions.
-/

namespace VectorScript

theorem Reading.length_lt {α : Type} {n : Nat} {r : Reading α n} {t : Token} {rest : List Token}
    (h : r.rest = t :: rest) : rest.length < n := by
  have hshort := r.shorter
  rw [h, List.length_cons] at hshort
  omega

/-- Whatever is read has a property. -/
def Gives {α : Type} {n : Nat} (x : Except SyntaxError (Reading α n)) (P : α → Prop) : Prop :=
  ∀ r, x = .ok r → P r.value

namespace Gives

variable {α β : Type} {n : Nat} {P Q : α → Prop}

theorem ok {r : Reading α n} (h : P r.value) : Gives (.ok r) P := by
  intro r' hr'
  cases hr'
  exact h

theorem error (e : SyntaxError) : Gives (.error e : Except SyntaxError (Reading α n)) P := nofun

theorem bind {x : Except SyntaxError β} {f : β → Except SyntaxError (Reading α n)}
    (h : ∀ b, x = .ok b → Gives (f b) P) : Gives (x >>= f) P := by
  intro r hr
  obtain ⟨b, hb, hr⟩ := bind_eq_ok.mp hr
  exact h b hb r hr

end Gives

namespace Expr

/-- A tree that may stand where comprehensions and ranges are allowed if `inArray`. -/
def Item (inArray : Bool) (e : Expr) : Prop := e.wellFormed ∧ (inArray = false → e.makesRun = false)

/-- A tree that may be an operand. -/
def Operand (e : Expr) : Prop := e.wellFormed ∧ e.makesRun = false

theorem Operand.item {e : Expr} (h : e.Operand) (inArray : Bool) : e.Item inArray :=
  ⟨h.1, fun _ => h.2⟩

/-- What is read from `n` tokens. -/
structure FormedAt (n : Nat) : Prop where
  read : ∀ total inArray ts, ts.length = n → Gives (read total inArray ts) (Item inArray)
  readClauses : ∀ total inArray body ts, ts.length = n → body.Item inArray →
    Gives (readClauses total inArray body ts) (Item inArray)
  readRange : ∀ total inArray ts, ts.length = n → Gives (readRange total inArray ts) fun e =>
    e.Item inArray ∧ e.isComprehension = false
  readConditional : ∀ total ts, ts.length = n → Gives (readConditional total ts) Operand
  readBinary : ∀ total least ts, ts.length = n → Gives (readBinary total least ts) Operand
  readOperators : ∀ total least left ts, ts.length = n → left.Operand →
    Gives (readOperators total least left ts) Operand
  readSelectors : ∀ total target ts, ts.length = n → target.Operand →
    Gives (readSelectors total target ts) Operand
  readDotted : ∀ total dot ts, ts.length = n → Gives (readDotted total dot ts) Operand
  readList : ∀ total inArray closer ts, ts.length = n →
    Gives (readList total inArray closer ts) fun items => ∀ item ∈ items, item.Item inArray
  readItems : ∀ total inArray closer ts, ts.length = n →
    Gives (readItems total inArray closer ts) fun items => ∀ item ∈ items, item.Item inArray

section

variable {n total : Nat} {inArray : Bool} {ts : List Token}

theorem wellFormed_of_children {e : Expr} (hformed : e.isFormed)
    (hchildren : ∀ c ∈ e.children, c.wellFormed) : e.wellFormed :=
  everywhere_iff.mpr ⟨hformed, hchildren⟩

theorem Operand.binary {op : BinaryOp} {left right : Expr} {span : Span} (hleft : left.Operand)
    (hright : right.Operand) : (Expr.binary op left right span).Operand := by
  refine ⟨wellFormed_of_children ?_ ?_, rfl⟩
  · simp [isFormed, hleft.2, hright.2]
  · simp [children, hleft.1, hright.1]

theorem Operand.unary {op : UnaryOp} {operand : Expr} {span : Span} (h : operand.Operand) :
    (Expr.unary op operand span).Operand := by
  refine ⟨wellFormed_of_children ?_ ?_, rfl⟩
  · simp [isFormed, h.2]
  · simp [children, h.1]

/-- What stands in parentheses is an operand, or a vector of operands. -/
theorem parenthesized_operand {items : List Expr} {span : Span} {e : Expr}
    (hitems : ∀ item ∈ items, item.Item false) (h : parenthesized items span = .ok e) :
    e.Operand := by
  unfold parenthesized at h
  split at h
  · cases h
  · cases h
    obtain ⟨hformed, hrun⟩ := hitems e List.mem_cons_self
    exact ⟨hformed, hrun rfl⟩
  · split_ifs at h with hcount
    cases h
    refine ⟨wellFormed_of_children ?_ fun item hitem => (hitems item hitem).1, rfl⟩
    have hmany : 2 ≤ items.length := by
      match items with
      | [] | [_] => simp_all
      | _ :: _ :: _ => simp
    simp only [isFormed, hmany, hcount, decide_true, Bool.true_and, List.all_eq_true,
      Bool.not_eq_true']
    exact fun item hitem => (hitems item hitem).2 rfl

theorem select_operand {target position : Expr} {span : Span} {place : Nat} {e : Expr}
    (htarget : target.Operand) (hcheck : checkTarget target place = .ok ())
    (hposition : position.wellFormed) (h : select target position span = .ok e) : e.Operand := by
  have hisTarget : target.isTarget := by
    cases target with
    | constant => cases hcheck
    | _ => simpa [isTarget] using htarget.2
  have hindex : position.isPosition → (Expr.index target position span).Operand := fun hp =>
    ⟨wellFormed_of_children (by simp [isFormed, hisTarget, hp])
      (by simp [children, htarget.1, hposition]), rfl⟩
  unfold select at h
  split at h
  · split_ifs at h with hswizzle
    · cases h
      exact ⟨wellFormed_of_children (by simp [isFormed, hisTarget, hswizzle])
        (by simp [children, htarget.1]), rfl⟩
    · cases h
      exact hindex (by simpa [isPosition] using hswizzle)
  · cases h
  · cases h
    exact hindex (by cases position <;> simp_all [isPosition])

theorem readOperand_formed (ih : ∀ k < n, FormedAt k) (hn : ts.length = n) :
    Gives (readOperand total ts) Operand := by
  subst hn
  rw [readOperand.eq_def]
  cases ts with
  | nil => exact .error _
  | cons t rest =>
    dsimp only
    split
    · split
      · exact .ok ⟨rfl, rfl⟩
      · exact .error _
    · split
      · exact .ok ⟨rfl, rfl⟩
      · split_ifs
        · refine .bind fun args hargs => .ok ⟨wellFormed_of_children ?_ fun arg harg => ?_, rfl⟩
          · have hall := (ih _ (by simp only [List.length_cons]; omega)).readList
              _ _ _ _ rfl _ hargs
            simpa [isFormed] using fun arg harg => (hall arg harg).2 rfl
          · exact ((ih _ (by simp only [List.length_cons]; omega)).readList
              _ _ _ _ rfl _ hargs arg harg).1
        · exact .ok ⟨rfl, rfl⟩
    · refine .bind fun items hitems => .bind fun e he => .ok ?_
      exact parenthesized_operand ((ih _ (by simp)).readList _ _ _ _ rfl _ hitems) he
    · refine .bind fun items hitems => ?_
      split_ifs with hempty
      · exact .error _
      · refine .ok ⟨wellFormed_of_children ?_ fun item hitem => ?_, rfl⟩
        · simpa [isFormed] using hempty
        · exact ((ih _ (by simp)).readList _ _ _ _ rfl _ hitems item hitem).1
    · exact .error _
    · exact .error _

theorem readOperators_formed (ih : ∀ k < n, FormedAt k) (hn : ts.length = n) {least : Nat}
    {left : Expr} (hleft : left.Operand) : Gives (readOperators total least left ts) Operand := by
  subst hn
  rw [readOperators.eq_def]
  cases ts with
  | nil => exact .ok hleft
  | cons t rest =>
    dsimp only
    split
    · exact .ok hleft
    · split_ifs
      · exact .ok hleft
      · refine .bind fun right hright => .bind fun whole hwhole => .ok ?_
        have hshort := right.shorter
        have hoperand := (ih rest.length (by simp)).readBinary _ _ _ rfl _ hright
        exact (ih right.rest.length (by simp only [List.length_cons]; omega)).readOperators
          _ _ _ _ rfl (hleft.binary hoperand) _ hwhole

theorem readSelectors_formed (ih : ∀ k < n, FormedAt k) (hn : ts.length = n) {target : Expr}
    (htarget : target.Operand) : Gives (readSelectors total target ts) Operand := by
  subst hn
  rw [readSelectors.eq_def]
  cases ts with
  | nil => exact .ok htarget
  | cons t rest =>
    dsimp only
    split
    · refine .bind fun u hcheck => ?_
      split_ifs
      · exact .error _
      · refine .bind fun index hindex => ?_
        split
        · exact .error _
        · split_ifs
          · exact .error _
          · rename_i rest' hrest _
            refine .bind fun chosen hchosen => .bind fun whole hwhole => .ok ?_
            have hposition := (ih rest.length (by simp)).read _ _ _ rfl _ hindex
            have hshort := Reading.length_lt hrest
            exact (ih rest'.length (by simp only [List.length_cons]; omega)).readSelectors _ _ _ rfl
              (select_operand htarget hcheck hposition.1 hchosen) _ hwhole
    · refine .bind fun u hcheck => .bind fun index hindex => .bind fun chosen hchosen =>
        .bind fun whole hwhole => .ok ?_
      have hshort := index.shorter
      have hposition := (ih rest.length (by simp)).readDotted _ _ _ rfl _ hindex
      exact (ih index.rest.length (by simp only [List.length_cons]; omega)).readSelectors _ _ _ rfl
        (select_operand htarget hcheck hposition.1 hchosen) _ hwhole
    · refine .bind fun whole hwhole => .ok ?_
      exact (ih rest.length (by simp)).readSelectors _ _ _ rfl htarget.unary _ hwhole
    · exact .error _
    · exact .ok htarget

theorem readDotted_formed (ih : ∀ k < n, FormedAt k) (hn : ts.length = n) {dot : Nat} :
    Gives (readDotted total dot ts) Operand := by
  rw [readDotted.eq_def]
  split
  · exact .error _
  · dsimp only
    split
    · exact .ok ⟨rfl, rfl⟩
    · exact .error _
    · exact readOperand_formed ih hn
    · exact .error _

theorem readSelection_formed (ih : ∀ k < n, FormedAt k) (hn : ts.length = n) :
    Gives (readSelection total ts) Operand := by
  subst hn
  rw [readSelection.eq_def]
  refine .bind fun target htarget => .bind fun whole hwhole => .ok ?_
  exact (ih _ target.shorter).readSelectors _ _ _ rfl (readOperand_formed ih rfl _ htarget) _ hwhole

theorem readUnary_formed (ih : ∀ k < n, FormedAt k) (hn : ts.length = n) :
    Gives (readUnary total ts) Operand := by
  subst hn
  rw [readUnary.eq_def]
  cases ts with
  | nil => exact .error _
  | cons t rest =>
    dsimp only
    split
    · exact readSelection_formed ih rfl
    · refine .bind fun operand hoperand => .ok ?_
      exact ((ih rest.length (by simp)).readBinary _ _ _ rfl _ hoperand).unary

theorem readBinary_formed (ih : ∀ k < n, FormedAt k) (hn : ts.length = n) {least : Nat} :
    Gives (readBinary total least ts) Operand := by
  subst hn
  rw [readBinary.eq_def]
  refine .bind fun left hleft => .bind fun whole hwhole => .ok ?_
  exact (ih _ left.shorter).readOperators _ _ _ _ rfl (readUnary_formed ih rfl _ hleft) _ hwhole

theorem readConditional_formed (ih : ∀ k < n, FormedAt k) (hn : ts.length = n) :
    Gives (readConditional total ts) Operand := by
  subst hn
  rw [readConditional.eq_def]
  refine .bind fun consequent hconsequent => ?_
  have h₁ := readBinary_formed ih rfl _ hconsequent
  dsimp only
  split
  · exact .ok h₁
  · rename_i t rest hrest
    split_ifs
    · refine .bind fun condition hcondition => ?_
      have hshort := Reading.length_lt hrest
      have h₂ := (ih rest.length hshort).readBinary _ _ _ rfl _ hcondition
      split
      · exact .error _
      · rename_i t' rest' hrest'
        split_ifs
        · refine .bind fun alternative halternative => .ok ?_
          have hshort' := Reading.length_lt hrest'
          have h₃ := (ih rest'.length (by omega)).readConditional _ _ rfl _ halternative
          refine ⟨wellFormed_of_children ?_ ?_, rfl⟩
          · simp [isFormed, h₁.2, h₂.2, h₃.2]
          · simp [children, h₁.1, h₂.1, h₃.1]
        · exact .error _
    · exact .ok h₁

theorem readRange_formed (ih : ∀ k < n, FormedAt k) (hn : ts.length = n) :
    Gives (readRange total inArray ts) fun e => e.Item inArray ∧ e.isComprehension = false := by
  subst hn
  rw [readRange.eq_def]
  refine .bind fun lower hlower => ?_
  have h₁ := readConditional_formed ih rfl _ hlower
  have hlower' : lower.value.Item inArray ∧ lower.value.isComprehension = false :=
    ⟨h₁.item inArray, by cases h : lower.value <;> simp_all [isComprehension, Operand, makesRun]⟩
  dsimp only
  split
  · exact .ok hlower'
  · rename_i t rest hrest
    split_ifs with hellipsis hin
    · exact .error _
    · refine .bind fun upper hupper => ?_
      have h₂ := (ih rest.length (Reading.length_lt hrest)).readConditional _ _ rfl _ hupper
      split_ifs
      · exact .error _
      · refine .ok ⟨⟨wellFormed_of_children ?_ ?_, fun hfalse => ?_⟩, rfl⟩
        · simp [isFormed, h₁.2, h₂.2]
        · simp [children, h₁.1, h₂.1]
        · simp [hfalse] at hin
    · exact .ok hlower'

theorem readClauses_formed (ih : ∀ k < n, FormedAt k) (hn : ts.length = n) {body : Expr}
    (hbody : body.Item inArray) : Gives (readClauses total inArray body ts) (Item inArray) := by
  subst hn
  rw [readClauses.eq_def]
  cases ts with
  | nil => exact .ok hbody
  | cons t rest =>
    dsimp only
    split_ifs with hfor hin
    · exact .error _
    · refine .bind fun binder _ => .bind fun source hsource => ?_
      have hshort := binder.shorter
      obtain ⟨⟨h₁, -⟩, h₂⟩ :=
        (ih binder.rest.length (by simp only [List.length_cons]; omega)).readRange
          _ _ _ rfl _ hsource
      have hcomprehension : ∀ span,
          (comprehension body binder.value source.value span).Item inArray := fun span =>
        ⟨wellFormed_of_children (by simp [isFormed, h₂]) (by simp [children, hbody.1, h₁]),
          fun hfalse => by simp [hfalse] at hin⟩
      split
      · rename_i w rest' hrest
        have hshort' := Reading.length_lt hrest
        split_ifs
        · refine .bind fun condition hcondition => .bind fun whole hwhole => .ok ?_
          have h₃ := (ih rest'.length (by simp only [List.length_cons]; omega)).readConditional
            _ _ rfl _ hcondition
          have hshort'' := condition.shorter
          refine (ih condition.rest.length (by simp only [List.length_cons]; omega)).readClauses
            _ _ _ _ rfl ⟨wellFormed_of_children ?_ ?_, fun hfalse => ?_⟩ _ hwhole
          · simp [isFormed, h₂, h₃.2]
          · simp [children, hbody.1, h₁, h₃.1]
          · simp [hfalse] at hin
        · refine .bind fun whole hwhole => .ok ?_
          have hsource := source.shorter
          exact (ih source.rest.length (by simp only [List.length_cons]; omega)).readClauses
            _ _ _ _ rfl (hcomprehension _) _ hwhole
      · exact .ok (hcomprehension _)
    · exact .ok hbody

theorem read_formed (ih : ∀ k < n, FormedAt k) (hn : ts.length = n) :
    Gives (read total inArray ts) (Item inArray) := by
  subst hn
  rw [read.eq_def]
  refine .bind fun body hbody => .bind fun whole hwhole => .ok ?_
  exact (ih _ body.shorter).readClauses _ _ _ _ rfl (readRange_formed ih rfl _ hbody).1 _ hwhole

theorem readItems_formed (ih : ∀ k < n, FormedAt k) (hn : ts.length = n) {closer : Bracket} :
    Gives (readItems total inArray closer ts) fun items => ∀ item ∈ items, item.Item inArray := by
  subst hn
  rw [readItems.eq_def]
  refine .bind fun item hitem => ?_
  have hfirst := read_formed ih rfl _ hitem
  dsimp only
  split
  · exact .error _
  · rename_i t rest hrest
    split_ifs
    · refine .bind fun items hitems => .ok ?_
      exact List.forall_mem_cons.mpr ⟨hfirst,
        (ih rest.length (Reading.length_lt hrest)).readItems _ _ _ _ rfl _ hitems⟩
    · exact .ok (by simpa using hfirst)
    · exact .error _

theorem readList_formed (ih : ∀ k < n, FormedAt k) (hn : ts.length = n) {closer : Bracket} :
    Gives (readList total inArray closer ts) fun items => ∀ item ∈ items, item.Item inArray := by
  rw [readList.eq_def]
  split
  · exact readItems_formed ih hn
  · split_ifs
    · exact .ok (by simp)
    · exact readItems_formed ih hn

end

/-- Whatever is read is formed. -/
theorem formedAt (n : Nat) : FormedAt n := by
  -- on the number of tokens: every reader hands on fewer than it was given
  induction n using Nat.strongRecOn with
  | ind n ih =>
    exact {
      read := fun _ _ _ hn => read_formed ih hn
      readClauses := fun _ _ _ _ hn hbody => readClauses_formed ih hn hbody
      readRange := fun _ _ _ hn => readRange_formed ih hn
      readConditional := fun _ _ hn => readConditional_formed ih hn
      readBinary := fun _ _ _ hn => readBinary_formed ih hn
      readOperators := fun _ _ _ _ hn hleft => readOperators_formed ih hn hleft
      readSelectors := fun _ _ _ hn htarget => readSelectors_formed ih hn htarget
      readDotted := fun _ _ _ hn => readDotted_formed ih hn
      readList := fun _ _ _ _ hn => readList_formed ih hn
      readItems := fun _ _ _ _ hn => readItems_formed ih hn }

end Expr

/-! ### Statements -/

theorem Statement.wellFormed_of_readBody {ts : List Token} {start : Nat} {e : Expr}
    (h : readBody ts start = .ok e) : e.wellFormed := by
  unfold readBody at h
  split_ifs at h
  · cases h
  obtain ⟨body, hbody, h⟩ := bind_eq_ok.mp h
  split_ifs at h
  cases h
  exact ((Expr.formedAt _).read _ _ _ rfl _ hbody).1

theorem Statement.wellFormed_of_readFunction {ts : List Token} {name : String} {close : Nat}
    {kind : Kind} (h : readFunction ts name close = .ok kind) :
    Statement.wellFormed ⟨kind, ts⟩ := by
  unfold readFunction at h
  split_ifs at h
  obtain ⟨params, -, h⟩ := bind_eq_ok.mp h
  obtain ⟨body, hbody, h⟩ := bind_eq_ok.mp h
  cases h
  exact wellFormed_of_readBody hbody

theorem Statement.wellFormed_of_readKind {ts : List Token} {kind : Kind}
    (h : readKind ts = .ok kind) : Statement.wellFormed ⟨kind, ts⟩ := by
  obtain ⟨pairs, -, h⟩ := bind_eq_ok.mp h
  split at h
  · cases h
  · split at h
    · exact wellFormed_of_readFunction h
    · obtain ⟨body, hbody, h⟩ := bind_eq_ok.mp h
      cases h
      exact wellFormed_of_readBody hbody
    · obtain ⟨body, hbody, h⟩ := bind_eq_ok.mp h
      cases h
      exact wellFormed_of_readBody hbody
    · split at h <;> cases h
    · cases h

theorem Statement.wellFormed_ofTokens (ts : List Token) : (ofTokens ts).wellFormed := by
  unfold ofTokens
  split
  · rename_i kind hkind
    exact wellFormed_of_readKind hkind
  · rfl

theorem Statement.wellFormed_of_mem_parseScript {source : String} {st : Statement}
    (h : st ∈ parseScript source) : st.wellFormed := by
  obtain ⟨ts, -, rfl⟩ := List.mem_map.mp h
  exact wellFormed_ofTokens ts

theorem Session.wellFormed_of_readExpr {source : String} {e : Expr} (h : readExpr source = .ok e) :
    e.wellFormed := by
  unfold readExpr at h
  split at h
  · cases h
  · obtain ⟨-, -, h⟩ := bind_eq_ok.mp h
    exact Statement.wellFormed_of_readBody h

/-! ### Parameters -/

theorem Statement.nodup_of_readParams {position : Nat} {seen params : List String}
    {ts : List Token} (hseen : seen.Nodup) (h : readParams position seen ts = .ok params) :
    params.Nodup := by
  have hsnoc : ∀ {seen : List String} {name : Token}, seen.Nodup →
      ¬ (name.kind ≠ .identifier ∨ name.text ∈ seen) → (seen ++ [name.text]).Nodup := by
    intro seen name hseen hname
    refine List.nodup_append.mpr ⟨hseen, by simp, ?_⟩
    rintro x hx y hy rfl
    exact hname (.inr (List.mem_singleton.mp hy ▸ hx))
  fun_induction readParams position seen ts with
  | case1 => cases h; exact hseen
  | case3 position seen name hname => cases h; exact hsnoc hseen hname
  | case6 position seen name hname comma rest _ _ ih => exact ih (hsnoc hseen hname) h
  | case2 | case4 | case5 => cases h

theorem Statement.nodup_of_readKind {ts : List Token} {name : String} {params : List String}
    {body : Expr} (h : readKind ts = .ok (.function name params body)) : params.Nodup := by
  obtain ⟨pairs, -, h⟩ := bind_eq_ok.mp h
  split at h
  · cases h
  · split at h
    · unfold readFunction at h
      split_ifs at h
      obtain ⟨params', hparams, h⟩ := bind_eq_ok.mp h
      obtain ⟨body', -, h⟩ := bind_eq_ok.mp h
      cases h
      exact nodup_of_readParams List.nodup_nil hparams
    · obtain ⟨body', -, h⟩ := bind_eq_ok.mp h
      cases h
    · obtain ⟨body', -, h⟩ := bind_eq_ok.mp h
      cases h
    · split at h <;> cases h
    · cases h

/-- Every tree that is read from tokens is well formed throughout, be it an expression on its own or
the body of a statement, and the parameters of a function are distinct. -/
theorem nodes_formed_of_tokens (ts : List Token) :
    (∀ e, Expr.ofTokens ts = .ok e → ∀ node ∈ e.nodes, node.isFormed) ∧
    (∀ body, (Statement.ofTokens ts).body? = some body → ∀ node ∈ body.nodes, node.isFormed) ∧
    ∀ name params body, (Statement.ofTokens ts).kind = .function name params body →
      params.Nodup := by
  refine ⟨fun e he => ?_, fun body hbody => ?_, fun name params body hkind => ?_⟩
  · obtain ⟨-, -, he⟩ := bind_eq_ok.mp he
    exact Expr.everywhere_iff_nodes.mp (Statement.wellFormed_of_readBody he)
  · have hformed := Statement.wellFormed_ofTokens ts
    rw [Statement.wellFormed, hbody] at hformed
    exact Expr.everywhere_iff_nodes.mp hformed
  · unfold Statement.ofTokens at hkind
    split at hkind
    · rename_i kind hread
      cases hkind
      exact Statement.nodup_of_readKind hread
    · cases hkind

end VectorScript
