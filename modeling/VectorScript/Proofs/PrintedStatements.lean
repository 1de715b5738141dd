import VectorScript.Proofs.ReadingPrinted
import VectorScript.Statement.Parser

/-!
# Reading printed statements

Printed tokens pass the check of their brackets, the first of them tell the kind of a statement, and
the rest is read as its body.  So expressions and statements are read back from their tokens.

* `Statement.readBody_print`: what stands behind the first tokens is read as the body.
* `reading_undoes_printing`: printed expressions and statements are read back, up to spans.
-/

namespace VectorScript

open VectorScript.Expr

variable {e : Expr}

namespace Statement

variable {numeral : Float32 → String}

/-- A body behind the first tokens of a statement is read back. -/
theorem readBody_print (h : e.ReadsBack numeral) (front : List Token) :
    ∃ e' : Expr, e'.plain = e.plain ∧
      readBody (front ++ e.print numeral) front.length = .ok e' := by
  obtain ⟨e', he', hread⟩ :=
    (h.whole true fun _ => rfl).yields (front ++ e.print numeral).length [] Nat.zero_lt_one
  rw [List.append_nil] at hread
  obtain ⟨hlt, hread⟩ := hread
  have hlength : ¬ (front ++ e.print numeral).length ≤ front.length := by
    rw [List.length_append]
    simp at hlt
    omega
  refine ⟨e', he', ?_⟩
  rw [readBody, if_neg hlength, List.drop_left, hread]
  rfl

theorem readParams_print {params : List String} :
    ∀ (position : Nat) (seen : List String), (seen ++ params).Nodup →
      readParams position seen (paramTokens params) = .ok (seen ++ params) := by
  have hnew : ∀ {seen rest : List String} {name : String}, (seen ++ name :: rest).Nodup →
      name ∉ seen := fun h hmem =>
    (List.nodup_append.mp h).2.2 _ hmem _ List.mem_cons_self rfl
  fun_induction paramTokens params with
  | case1 => simp [readParams]
  | case2 name =>
    intro position seen h
    simp [readParams, hnew h]
  | case3 name next rest ih =>
    intro position seen h
    have hrest := ih (position + 2) (seen ++ [name]) (by simpa using h)
    cases hts : paramTokens (next :: rest) with
    | nil => cases rest <;> simp [paramTokens] at hts
    | cons t ts =>
      rw [hts] at hrest
      simpa [readParams, hnew h] using hrest

/-- Whatever is read as a kind of statement is the kind of the statement. -/
theorem kind_ofTokens {ts : List Token} {kind : Kind} (h : readKind ts = .ok kind) :
    (ofTokens ts).kind = kind := by
  rw [ofTokens, h]

theorem plain_variable (h : e.ReadsBack numeral) (name : String) :
    (ofTokens (Kind.print numeral (.variable name e))).kind.plain =
      (Kind.variable name e).plain := by
  obtain ⟨e', he', hbody⟩ := readBody_print h
    [.word .identifier name, .word (.operator .assign) "="]
  obtain ⟨pairs, hpairs⟩ : ∃ pairs, BracketPair.ofTokens (Kind.print numeral (.variable name e)) =
      .ok pairs :=
    BracketPair.ofTokens_of_checked
      (.cons (by simp) (by simp) (.cons (by simp) (by simp) (e.checked_print numeral)))
  have hkind : readKind (Kind.print numeral (.variable name e)) = .ok (.variable name e') := by
    rw [readKind, hpairs, ok_bind]
    exact congrArg (· >>= fun body => pure (Kind.variable name body)) hbody
  rw [kind_ofTokens hkind, Kind.plain, Kind.plain, he']

theorem plain_render (h : e.ReadsBack numeral) (kind : RenderKind) :
    (ofTokens (Kind.print numeral (.render kind e))).kind.plain = (Kind.render kind e).plain := by
  obtain ⟨e', he', hbody⟩ := readBody_print h [.word (.keyword kind.keyword) kind.symbol]
  obtain ⟨pairs, hpairs⟩ : ∃ pairs, BracketPair.ofTokens (Kind.print numeral (.render kind e)) =
      .ok pairs :=
    BracketPair.ofTokens_of_checked (.cons (by simp) (by simp) (e.checked_print numeral))
  have hkind : readKind (Kind.print numeral (.render kind e)) =
      .ok (.render (.ofKeyword kind.keyword) e') := by
    rw [readKind, hpairs, ok_bind]
    exact congrArg (· >>= fun body => pure (Kind.render (.ofKeyword kind.keyword) body)) hbody
  rw [kind_ofTokens hkind, Kind.plain, Kind.plain, he', kind.ofKeyword_keyword]

theorem print_function (name : String) (params : List String) (e : Expr) :
    Kind.print numeral (.function name params e) = .word .identifier name ::
      .word (.bracket .openParen) "(" :: (paramTokens params ++ .word (.bracket .closeParen) ")" ::
        .word (.operator .assign) "=" :: e.print numeral) := by
  rw [Kind.print, inParens_append]

/-- A function is read back, if it is known where its parameters end. -/
theorem readFunction_print (h : e.ReadsBack numeral) (name : String) {params : List String}
    (hparams : params.Nodup) :
    ∃ e' : Expr, e'.plain = e.plain ∧
      readFunction (Kind.print numeral (.function name params e)) name
        (2 + (paramTokens params).length) = .ok (.function name params e') := by
  -- the body stands behind the parenthesis that closes the parameters and the sign behind it
  obtain ⟨e', he', hbody⟩ := readBody_print h (.word .identifier name ::
    .word (.bracket .openParen) "(" :: (paramTokens params ++
      [.word (.bracket .closeParen) ")", .word (.operator .assign) "="]))
  have hsign : (Kind.print numeral (.function name params e))[
      2 + (paramTokens params).length + 1]? = some (.word (.operator .assign) "=") := by
    have hplace : 2 + (paramTokens params).length + 1 = (paramTokens params).length + 3 := by omega
    rw [print_function, hplace]
    simp
  have hfront : ((Kind.print numeral (.function name params e)).take
      (2 + (paramTokens params).length)).drop 2 = paramTokens params := by
    rw [print_function, Nat.add_comm]
    simp
  have hstart : readBody (Kind.print numeral (.function name params e))
      (2 + (paramTokens params).length + 2) = .ok e' := by
    rw [print_function, ← hbody]
    congr 1
    · simp
    · simp
      omega
  have hnames := readParams_print 2 [] (by simpa using hparams)
  refine ⟨e', he', ?_⟩
  rw [readFunction, hsign, hfront, hstart, hnames]
  rfl

theorem plain_function (h : e.ReadsBack numeral) (name : String) {params : List String}
    (hparams : params.Nodup) :
    (ofTokens (Kind.print numeral (.function name params e))).kind.plain =
      (Kind.function name params e).plain := by
  obtain ⟨e', he', hfunction⟩ := readFunction_print h name hparams
  obtain ⟨pairs, hpairs, hpartner⟩ : ∃ pairs,
      BracketPair.ofTokens (Kind.print numeral (.function name params e)) = .ok pairs ∧
        BracketPair.partner? pairs 1 = some (2 + (paramTokens params).length) := by
    rw [print_function]
    exact BracketPair.partner?_of_checked (b := .openParen) (by simp) (by simp) rfl rfl rfl
      (checked_paramTokens params) (.cons (by simp) (by simp) (e.checked_print numeral))
  have hkind : readKind (Kind.print numeral (.function name params e)) =
      .ok (.function name params e') := by
    rw [readKind, hpairs, ok_bind, ← hfunction, hpartner]
    rfl
  rw [kind_ofTokens hkind, Kind.plain, Kind.plain, he']

end Statement

theorem Expr.plain_ofTokens {numeral : Float32 → String} (h : e.ReadsBack numeral) :
    (Expr.ofTokens (e.print numeral)).map plain = .ok e.plain := by
  obtain ⟨pairs, hpairs⟩ := BracketPair.ofTokens_of_checked (e.checked_print numeral)
  obtain ⟨e', he', hbody⟩ := Statement.readBody_print h []
  have hread : Expr.ofTokens (e.print numeral) = .ok e' := by
    rw [Expr.ofTokens, hpairs]
    exact hbody
  rw [hread, ← he']
  rfl

/-- Reading undoes printing.  A well-formed tree whose numbers have numerals is read back from its
tokens, up to spans: alone, and as the body of a variable, of a function with distinct parameters
and of a render statement. -/
theorem reading_undoes_printing (numeral : Float32 → String) (e : Expr) (hformed : e.wellFormed)
    (hnumerals : ∀ x span, .constant x span ∈ e.nodes → Scalar.read? (numeral x) = some x) :
    (Expr.ofTokens (e.print numeral)).map plain = .ok e.plain ∧
    (∀ name, (Statement.ofTokens (Statement.Kind.print numeral (.variable name e))).kind.plain =
      (Statement.Kind.variable name e).plain) ∧
    (∀ name params, params.Nodup →
      (Statement.ofTokens (Statement.Kind.print numeral (.function name params e))).kind.plain =
        (Statement.Kind.function name params e).plain) ∧
    ∀ kind, (Statement.ofTokens (Statement.Kind.print numeral (.render kind e))).kind.plain =
      (Statement.Kind.render kind e).plain := by
  have h := readsBack hformed hnumerals
  exact ⟨plain_ofTokens h, Statement.plain_variable h,
    fun name _ hparams => Statement.plain_function h name hparams, Statement.plain_render h⟩

/-- Heights along a wave. -/
def wave : Expr :=
  .array [.filtered
    (.conditional
      (.binary .mul
        (.binary .add (.identifier "x" .none) (.constant 0.5 .none) .none)
        (.unary .negate (.identifier "y" .none) .none) .none)
      (.binary .less (.identifier "i" .none) (.constant 0.5 .none) .none)
      (.conditional (.identifier "u" .none) (.identifier "v" .none) (.identifier "w" .none) .none)
      .none)
    "i" (.range (.identifier "low" .none) (.identifier "high" .none) .none)
    (.unary .factorial (.swizzle (.identifier "p" .none) "xy" .none) .none) .none] .none

example : (wave.print Scalar.text).map Token.text =
    ["[", "(", "x", "+", "0.5", ")", "*", "(", "-", "y", ")", "if", "i", "<", "0.5", "else", "u",
      "if", "v", "else", "w", "for", "i", "=", "low", "...", "high", "when", "p", ".", "xy", "!",
      "]"] := by
  decide +kernel

/-- The wave is read back, and so is a function that draws it. -/
theorem wave_read_back :
    wave.wellFormed ∧ Scalar.read? (Scalar.text 0.5) = some 0.5 ∧ ["x", "y"].Nodup ∧
      (Expr.ofTokens (wave.print Scalar.text)).map plain = .ok wave.plain ∧
      (Statement.ofTokens
        (Statement.Kind.print Scalar.text (.function "f" ["x", "y"] wave))).kind.plain =
          (Statement.Kind.function "f" ["x", "y"] wave).plain := by
  have hformed : wave.wellFormed := by rfl
  have hhalf : Scalar.read? (Scalar.text 0.5) = some 0.5 := by decide +kernel
  have hnumerals : ∀ x span, .constant x span ∈ wave.nodes →
      Scalar.read? (Scalar.text x) = some x := by
    intro x span hx
    obtain ⟨rfl, -⟩ : x = 0.5 ∧ span = .none := by simpa [wave, nodes, allNodes] using hx
    exact hhalf
  have hdistinct : ["x", "y"].Nodup := by decide
  obtain ⟨hexpr, -, hfunction, -⟩ := reading_undoes_printing Scalar.text wave hformed hnumerals
  exact ⟨hformed, hhalf, hdistinct, hexpr, hfunction "f" ["x", "y"] hdistinct⟩

end VectorScript
