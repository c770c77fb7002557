import Pg2osync.FilterText

/-!
# Parsing the tokens of an expression

The rules of the grammar ask a token for what it is and never where it stands. On the tokens of an
expression, each of whose connectives is in parentheses, `primary` makes that expression and stops
behind it; the loops of `or_expr` and `and_expr` end at its closing parenthesis. An operand is five
calls below its connective, whose two parentheses and keyword pay for them.
-/

namespace Pg2osync

namespace Filter

namespace Parser

/-- What the tokens left are. -/
def Reads (p : Parser) (toks : List Tok) : Prop :=
  p.tokens.map Token.tok = toks

variable {p : Parser} {tok : Tok} {toks : List Tok}

theorem Reads.peek (h : p.Reads (tok :: toks)) : ∃ t, p.peek = some t ∧ t.tok = tok := by
  obtain ⟨t, rest, htokens, htok, -⟩ := List.map_eq_cons_iff.mp h
  exact ⟨t, by rw [Parser.peek, htokens, List.head?_cons], htok⟩

theorem Reads.skip (h : p.Reads (tok :: toks)) : p.skip.Reads toks := by
  obtain ⟨t, rest, htokens, -, hrest⟩ := List.map_eq_cons_iff.mp h
  rw [Parser.Reads, Parser.skip, htokens, List.tail_cons]
  exact hrest

theorem Reads.at_ (h : p.Reads (tok :: toks)) (other : Tok) :
    p.at_ other = decide (tok = other) := by
  obtain ⟨t, ht, rfl⟩ := h.peek
  rw [Parser.at_, ht, Option.any_some]

theorem Reads.atKeyword {word : String} (h : p.Reads (.ident word :: toks)) (keyword : String) :
    p.atKeyword keyword = Token.sameWord word keyword := by
  obtain ⟨t, ht, htok⟩ := h.peek
  rw [Parser.atKeyword, ht, Option.any_some, Token.isKeyword, htok]

theorem Reads.not_atKeyword (h : p.Reads (tok :: toks)) (htok : ∀ word, tok ≠ .ident word)
    (keyword : String) : p.atKeyword keyword = false := by
  obtain ⟨t, ht, rfl⟩ := h.peek
  rw [Parser.atKeyword, ht, Option.any_some, Token.isKeyword]
  split
  · rename_i word hword
    exact absurd hword (htok word)
  · rfl

theorem Reads.atEnd (h : p.Reads []) (keyword : String) : p.atKeyword keyword = false := by
  rw [Parser.atKeyword, Parser.peek, List.map_eq_nil_iff.mp h]
  rfl

end Parser

/-- A column and what follows it are no keywords. -/
theorem sameWord_of_column {column : String} (h : isReserved column = false) {word : String}
    (hword : word ∈ ["AND", "OR", "NOT", "IS", "NULL", "IN", "TRUE", "FALSE"]) :
    Token.sameWord column word = false := by
  rw [isReserved, List.any_eq_false] at h
  exact eq_false_of_ne_true (h word hword)

/-! ## A literal -/

variable {literal : Literal}

theorem literalOf_tok {t : Token} (h : t.tok = literal.tok) : literalOf t = some literal := by
  obtain ⟨tok, offset, text⟩ := t
  subst h
  cases literal with
  | str s => rfl
  | int n => rfl
  | float f => rfl
  | bool b =>
    cases b with
    | true => simp [literalOf, Literal.tok, Token.isKeyword, Token.sameWord]
    | false => simp [literalOf, Literal.tok, Token.isKeyword, Token.sameWord]

theorem tok_ne_rparen (literal : Literal) : literal.tok ≠ .rparen := by
  cases literal with
  | bool b => cases b <;> exact Tok.noConfusion
  | str s => exact Tok.noConfusion
  | int n => exact Tok.noConfusion
  | float f => exact Tok.noConfusion

theorem tok_ne_null (literal : Literal) {p : Parser} {toks : List Tok}
    (h : p.Reads (literal.tok :: toks)) : p.atKeyword "NULL" = false := by
  cases literal with
  | bool b =>
    cases b with
    | true =>
      have htrue : p.Reads (.ident "TRUE" :: toks) := h
      rw [htrue.atKeyword]
      decide
    | false =>
      have hfalse : p.Reads (.ident "FALSE" :: toks) := h
      rw [hfalse.atKeyword]
      decide
  | str s => exact h.not_atKeyword (fun _ => Tok.noConfusion) _
  | int n => exact h.not_atKeyword (fun _ => Tok.noConfusion) _
  | float f => exact h.not_atKeyword (fun _ => Tok.noConfusion) _

theorem expectRparen_reads {p : Parser} {toks : List Tok} (h : p.Reads (.rparen :: toks)) :
    expectRparen p = .ok ((), p.skip) := by
  obtain ⟨t, ht, htok⟩ := h.peek
  rw [expectRparen, ht]
  exact if_pos htok

theorem comparisonRhs_reads (column : String) (op : CmpOp) (operator : Token) {p : Parser}
    {toks : List Tok} (h : p.Reads (literal.tok :: toks)) :
    comparisonRhs column op operator p = .ok (.cmp column op literal, p.skip) := by
  obtain ⟨t, ht, htok⟩ := h.peek
  have hnull := tok_ne_null literal h
  rw [comparisonRhs, hnull, if_neg (fun hboth => Bool.noConfusion hboth.2), ht, Option.bind_some,
    literalOf_tok htok]

variable {fuel : ℕ} {list : List Literal}

theorem inItems_reads (hne : list ≠ []) {p : Parser} {toks : List Tok} (hfuel : list.length ≤ fuel)
    (h : p.Reads ((list.map Literal.tok).intersperse .comma ++ .rparen :: toks)) :
    ∃ p', inItems fuel p = .ok (list, p') ∧ p'.Reads toks := by
  induction list generalizing fuel p with
  | nil => exact absurd rfl hne
  | cons literal list ih =>
    cases fuel with
    | zero => exact absurd hfuel (by simp)
    | succ fuel =>
      cases list with
      | nil =>
        rw [List.map_singleton, List.intersperse_singleton, List.singleton_append] at h
        obtain ⟨t, ht, htok⟩ := h.peek
        have hcomma := h.skip.at_ .comma
        refine ⟨p.skip.skip, ?_, h.skip.skip⟩
        rw [inItems, ht]
        dsimp only
        rw [literalOf_tok htok]
        dsimp only
        rw [hcomma, if_neg (by decide), expectRparen_reads h.skip]
        rfl
      | cons next list =>
        rw [List.map_cons, List.map_cons, List.intersperse_cons_cons, List.cons_append,
          List.cons_append] at h
        rw [List.length_cons] at hfuel
        obtain ⟨p', hmore, hreads⟩ := ih (List.cons_ne_nil _ _) (Nat.le_of_succ_le_succ hfuel)
          h.skip.skip
        obtain ⟨t, ht, htok⟩ := h.peek
        have hcomma := h.skip.at_ .comma
        refine ⟨p', ?_, hreads⟩
        rw [inItems, ht]
        dsimp only
        rw [literalOf_tok htok]
        dsimp only
        rw [hcomma, if_pos (by decide), hmore]
        rfl

theorem length_le_intersperse {α : Type} (sep : α) (list : List α) :
    list.length ≤ (list.intersperse sep).length := by
  rw [List.length_intersperse]
  omega

theorem inList_reads (column : String) (negated : Bool) (hne : list ≠ []) {p : Parser}
    {toks : List Tok}
    (h : p.Reads (.lparen :: ((list.map Literal.tok).intersperse .comma ++ .rparen :: toks))) :
    ∃ p', inList column negated p = .ok (.isIn column list negated, p') ∧ p'.Reads toks := by
  have hlparen := h.at_ .lparen
  have hrparen : p.skip.at_ .rparen = false := by
    cases list with
    | nil => exact absurd rfl hne
    | cons literal list =>
      obtain ⟨more, hmore⟩ : ∃ more, ((literal :: list).map Literal.tok).intersperse .comma ++
          .rparen :: toks = literal.tok :: more := by
        cases list with
        | nil => exact ⟨_, rfl⟩
        | cons next list => exact ⟨_, rfl⟩
      rw [hmore] at h
      rw [h.skip.at_, decide_eq_false (tok_ne_rparen literal)]
  have hlength : list.length ≤ p.tokens.length := by
    have hall := congrArg List.length h
    have hitems := length_le_intersperse Tok.comma (list.map Literal.tok)
    rw [List.length_map, List.length_cons, List.length_append] at hall
    rw [List.length_map] at hitems
    omega
  obtain ⟨p', hitems, hreads⟩ := inItems_reads hne hlength h.skip
  refine ⟨p', ?_, hreads⟩
  rw [inList, hlparen, hrparen, if_neg (by decide), if_neg (by decide), hitems]
  rfl

/-! ## A comparison -/

/-- What a text can have the parser build: columns that are not reserved, lists with an item. -/
def Expr.Parses : Expr → Prop
  | .cmp column _ _ | .isNull column _ => isReserved column = false
  | .isIn column list _ => isReserved column = false ∧ list ≠ []
  | .and a b | .or a b => a.Parses ∧ b.Parses
  | .not a => a.Parses

theorem comparisonTail_cmp (column : String) (op : CmpOp) {p : Parser} {toks : List Tok}
    (h : p.Reads (.op op :: literal.tok :: toks)) :
    ∃ p', comparisonTail column p = .ok (.cmp column op literal, p') ∧ p'.Reads toks := by
  obtain ⟨t, ht, htok⟩ := h.peek
  refine ⟨p.skip.skip, ?_, h.skip.skip⟩
  rw [comparisonTail, ht]
  dsimp only
  rw [htok]
  exact comparisonRhs_reads column op t h.skip

theorem comparisonTail_isNull (column : String) (negated : Bool) {p : Parser} {toks : List Tok}
    (h : p.Reads (.ident "IS" ::
      (keyword (fun tok => tok) negated "NOT" ++ .ident "NULL" :: toks))) :
    ∃ p', comparisonTail column p = .ok (.isNull column negated, p') ∧ p'.Reads toks := by
  obtain ⟨t, ht, htok⟩ := h.peek
  have his : t.isKeyword "IS" = true := by
    rw [Token.isKeyword, htok]
    decide
  -- behind `IS` and the `NOT` that may be there
  obtain ⟨hnegated, hskip⟩ : p.skip.atKeyword "NOT" = negated ∧
      (if p.skip.atKeyword "NOT" then p.skip.skip else p.skip).Reads (.ident "NULL" :: toks) := by
    cases negated with
    | false =>
      have hnot : p.skip.atKeyword "NOT" = false := (Parser.Reads.atKeyword h.skip "NOT").trans
        (by decide)
      rw [hnot]
      exact ⟨rfl, h.skip⟩
    | true =>
      have hnot : p.skip.atKeyword "NOT" = true := (Parser.Reads.atKeyword h.skip "NOT").trans
        (by decide)
      rw [hnot]
      exact ⟨rfl, Parser.Reads.skip h.skip⟩
  refine ⟨_, ?_, hskip.skip⟩
  rw [comparisonTail, ht]
  dsimp only
  rw [htok]
  dsimp only
  have hnull := hskip.atKeyword "NULL"
  rw [if_pos his, hnull, if_pos (by decide), hnegated]

theorem comparisonTail_isIn (column : String) (negated : Bool) (hne : list ≠ []) {p : Parser}
    {toks : List Tok}
    (h : p.Reads (keyword (fun tok => tok) negated "NOT" ++ .ident "IN" :: .lparen ::
      ((list.map Literal.tok).intersperse .comma ++ .rparen :: toks))) :
    ∃ p', comparisonTail column p = .ok (.isIn column list negated, p') ∧ p'.Reads toks := by
  cases negated with
  | false =>
    have hin : p.Reads (.ident "IN" :: .lparen ::
      ((list.map Literal.tok).intersperse .comma ++ .rparen :: toks)) := h
    obtain ⟨t, ht, htok⟩ := hin.peek
    obtain ⟨p', hlist, hreads⟩ := inList_reads column false hne hin.skip
    have hword : ∀ k, t.isKeyword k = Token.sameWord "IN" k := fun k => by
      rw [Token.isKeyword, htok]
    refine ⟨p', ?_, hreads⟩
    rw [comparisonTail, ht]
    dsimp only
    rw [htok]
    dsimp only
    rw [hword, hword, if_neg (by decide), if_pos (by decide)]
    exact hlist
  | true =>
    have hnot : p.Reads (.ident "NOT" :: .ident "IN" :: .lparen ::
      ((list.map Literal.tok).intersperse .comma ++ .rparen :: toks)) := h
    obtain ⟨t, ht, htok⟩ := hnot.peek
    obtain ⟨p', hlist, hreads⟩ := inList_reads column true hne hnot.skip.skip
    have hword : ∀ k, t.isKeyword k = Token.sameWord "NOT" k := fun k => by
      rw [Token.isKeyword, htok]
    have hin := hnot.skip.atKeyword "IN"
    refine ⟨p', ?_, hreads⟩
    rw [comparisonTail, ht]
    dsimp only
    rw [htok]
    dsimp only
    rw [hword, hword, hword, if_neg (by decide), if_neg (by decide), if_pos (by decide), hin,
      if_pos (by decide)]
    exact hlist

variable {e : Expr}

/-- A column that no parenthesis follows. -/
theorem comparison_reads {column : String} (hcolumn : isReserved column = false) {p : Parser}
    {tok : Tok} {toks rest : List Tok} (h : p.Reads (.ident column :: tok :: toks))
    (htok : tok ≠ .lparen) (htail : ∀ p' : Parser, p'.Reads (tok :: toks) →
      ∃ p'', comparisonTail column p' = .ok (e, p'') ∧ p''.Reads rest) :
    ∃ p', comparison p = .ok (e, p') ∧ p'.Reads rest := by
  obtain ⟨t, ht, hident⟩ := h.peek
  have hlparen := h.skip.at_ .lparen
  obtain ⟨p', hparsed, hreads⟩ := htail { p.skip with columns := p.columns ++ [column] } h.skip
  refine ⟨p', ?_, hreads⟩
  rw [comparison, ht]
  dsimp only
  rw [hident]
  dsimp only
  rw [if_neg (by rw [hcolumn]; exact Bool.noConfusion), hlparen, decide_eq_false htok,
    if_neg Bool.noConfusion]
  exact hparsed

/-! ## The rules -/

theorem primary_of_comparison {p : Parser} (h : p.at_ .lparen = false) :
    primary (fuel + 1) p = comparison p := by
  rw [primary, h, if_neg Bool.noConfusion]

theorem primary_of_lparen {p p' : Parser} {toks : List Tok} (h : p.at_ .lparen = true)
    (hinner : orExpr fuel p.skip = .ok (e, p')) (hreads : p'.Reads (.rparen :: toks)) :
    primary (fuel + 1) p = .ok (e, p'.skip) := by
  rw [primary, if_pos h, hinner]
  dsimp only [Except.bind]
  rw [expectRparen_reads hreads]
  rfl

theorem notExpr_of_primary {p p' : Parser} (h : p.atKeyword "NOT" = false)
    (hprimary : primary fuel p = .ok (e, p')) : notExpr (fuel + 1) p = .ok (e, p') := by
  rw [notExpr, h, if_neg Bool.noConfusion, hprimary]

theorem notExpr_not {p p' : Parser} (h : p.atKeyword "NOT" = true)
    (hnot : notExpr fuel p.skip = .ok (e, p')) : notExpr (fuel + 1) p = .ok (.not e, p') := by
  rw [notExpr, if_pos h, hnot]
  rfl

theorem andExpr_of_notExpr {p p' : Parser} (hnot : notExpr (fuel + 1) p = .ok (e, p'))
    (h : p'.atKeyword "AND" = false) : andExpr (fuel + 2) p = .ok (e, p') := by
  rw [andExpr, hnot]
  dsimp only [Except.bind]
  rw [andLoop, h, if_neg Bool.noConfusion]

theorem orExpr_of_andExpr {p p' : Parser} (hand : andExpr (fuel + 1) p = .ok (e, p'))
    (h : p'.atKeyword "OR" = false) : orExpr (fuel + 2) p = .ok (e, p') := by
  rw [orExpr, hand]
  dsimp only [Except.bind]
  rw [orLoop, h, if_neg Bool.noConfusion]

theorem andExpr_and {a b : Expr} {p p' p'' : Parser} (ha : notExpr (fuel + 2) p = .ok (a, p'))
    (h : p'.atKeyword "AND" = true) (hb : notExpr (fuel + 1) p'.skip = .ok (b, p''))
    (h' : p''.atKeyword "AND" = false) : andExpr (fuel + 3) p = .ok (.and a b, p'') := by
  rw [andExpr, ha]
  dsimp only [Except.bind]
  rw [andLoop, if_pos h, hb]
  dsimp only [Except.bind]
  rw [andLoop, h', if_neg Bool.noConfusion]

theorem orExpr_or {a b : Expr} {p p' p'' : Parser} (ha : andExpr (fuel + 2) p = .ok (a, p'))
    (h : p'.atKeyword "OR" = true) (hb : andExpr (fuel + 1) p'.skip = .ok (b, p''))
    (h' : p''.atKeyword "OR" = false) : orExpr (fuel + 3) p = .ok (.or a b, p'') := by
  rw [orExpr, ha]
  dsimp only [Except.bind]
  rw [orLoop, if_pos h, hb]
  dsimp only [Except.bind]
  rw [orLoop, h', if_neg Bool.noConfusion]

/-- An expression begins with a column or a parenthesis, never with `NOT`. -/
theorem not_atKeyword_not (he : e.Parses) {p : Parser} {rest : List Tok}
    (h : p.Reads (e.toks ++ rest)) : p.atKeyword "NOT" = false := by
  cases e with
  | cmp column op literal =>
    exact (Parser.Reads.atKeyword h "NOT").trans (sameWord_of_column he (by decide))
  | isNull column negated =>
    exact (Parser.Reads.atKeyword h "NOT").trans (sameWord_of_column he (by decide))
  | isIn column list negated =>
    exact (Parser.Reads.atKeyword h "NOT").trans (sameWord_of_column he.1 (by decide))
  | and a b => exact Parser.Reads.not_atKeyword h (fun _ => Tok.noConfusion) _
  | or a b => exact Parser.Reads.not_atKeyword h (fun _ => Tok.noConfusion) _
  | not a => exact Parser.Reads.not_atKeyword h (fun _ => Tok.noConfusion) _

/-- A keyword or a parenthesis between two operands. -/
theorem toks_and (a b : Expr) (rest : List Tok) : (Expr.and a b).toks ++ rest =
    .lparen :: (a.toks ++ .ident "AND" :: (b.toks ++ .rparen :: rest)) := by
  simp [Expr.toks, Expr.spelled]

theorem toks_or (a b : Expr) (rest : List Tok) : (Expr.or a b).toks ++ rest =
    .lparen :: (a.toks ++ .ident "OR" :: (b.toks ++ .rparen :: rest)) := by
  simp [Expr.toks, Expr.spelled]

theorem toks_not (a : Expr) (rest : List Tok) : (Expr.not a).toks ++ rest =
    .lparen :: .ident "NOT" :: (a.toks ++ .rparen :: rest) := by
  simp [Expr.toks, Expr.spelled]

/-- **The parser makes of an expression's tokens that expression**, and stops behind them. -/
theorem primary_reads (he : e.Parses) {p : Parser} {rest : List Tok}
    (hfuel : 5 * e.toks.length ≤ fuel) (h : p.Reads (e.toks ++ rest)) :
    ∃ p', primary fuel p = .ok (e, p') ∧ p'.Reads rest := by
  induction e generalizing fuel p rest with
  | cmp column op literal =>
    have hlength : 0 < (Expr.cmp column op literal).toks.length :=
      List.length_pos_of_ne_nil (List.cons_ne_nil _ _)
    obtain ⟨k, rfl⟩ : ∃ k, fuel = k + 1 := ⟨fuel - 1, by omega⟩
    have hlparen : p.at_ .lparen = false := (Parser.Reads.at_ h _).trans (by simp)
    rw [primary_of_comparison hlparen]
    exact comparison_reads he h Tok.noConfusion fun p' hp' => comparisonTail_cmp column op hp'
  | isNull column negated =>
    have hlength : 0 < (Expr.isNull column negated).toks.length :=
      List.length_pos_of_ne_nil (List.cons_ne_nil _ _)
    obtain ⟨k, rfl⟩ : ∃ k, fuel = k + 1 := ⟨fuel - 1, by omega⟩
    have hlparen : p.at_ .lparen = false := (Parser.Reads.at_ h _).trans (by simp)
    have htoks : (Expr.isNull column negated).toks ++ rest = .ident column :: .ident "IS" ::
        (keyword (fun tok => tok) negated "NOT" ++ .ident "NULL" :: rest) := by
      simp [Expr.toks, Expr.spelled]
    rw [htoks] at h
    rw [primary_of_comparison hlparen]
    exact comparison_reads he h Tok.noConfusion fun p' hp' =>
      comparisonTail_isNull column negated hp'
  | isIn column list negated =>
    have hlength : 0 < (Expr.isIn column list negated).toks.length :=
      List.length_pos_of_ne_nil (List.cons_ne_nil _ _)
    obtain ⟨k, rfl⟩ : ∃ k, fuel = k + 1 := ⟨fuel - 1, by omega⟩
    have hlparen : p.at_ .lparen = false := (Parser.Reads.at_ h _).trans (by simp)
    have htoks : (Expr.isIn column list negated).toks ++ rest = .ident column ::
        (keyword (fun tok => tok) negated "NOT" ++ .ident "IN" :: .lparen ::
          ((list.map Literal.tok).intersperse .comma ++ .rparen :: rest)) := by
      simp [Expr.toks, Expr.spelled]
    rw [htoks] at h
    rw [primary_of_comparison hlparen]
    cases negated with
    | false =>
      exact comparison_reads he.1 h Tok.noConfusion fun p' hp' =>
        comparisonTail_isIn column false he.2 hp'
    | true =>
      exact comparison_reads he.1 h Tok.noConfusion fun p' hp' =>
        comparisonTail_isIn column true he.2 hp'
  | and a b iha ihb =>
    have hlength := congrArg List.length (toks_and a b [])
    simp only [List.length_append, List.length_cons, List.length_nil] at hlength
    obtain ⟨k, rfl⟩ : ∃ k, fuel = k + 5 := ⟨fuel - 5, by omega⟩
    rw [toks_and] at h
    obtain ⟨p₁, ha, hp₁⟩ := iha he.1 (show 5 * a.toks.length ≤ k + 1 by omega) h.skip
    obtain ⟨p₂, hb, hp₂⟩ := ihb he.2 (show 5 * b.toks.length ≤ k by omega) hp₁.skip
    have hnota := notExpr_of_primary (not_atKeyword_not he.1 h.skip) ha
    have hnotb := notExpr_of_primary (not_atKeyword_not he.2 hp₁.skip) hb
    have hand := andExpr_and hnota ((hp₁.atKeyword "AND").trans (by decide)) hnotb
      (hp₂.not_atKeyword (fun _ => Tok.noConfusion) _)
    have hor := orExpr_of_andExpr hand (hp₂.not_atKeyword (fun _ => Tok.noConfusion) _)
    exact ⟨p₂.skip, primary_of_lparen ((h.at_ _).trans (by decide)) hor hp₂, hp₂.skip⟩
  | or a b iha ihb =>
    have hlength := congrArg List.length (toks_or a b [])
    simp only [List.length_append, List.length_cons, List.length_nil] at hlength
    obtain ⟨k, rfl⟩ : ∃ k, fuel = k + 5 := ⟨fuel - 5, by omega⟩
    rw [toks_or] at h
    obtain ⟨p₁, ha, hp₁⟩ := iha he.1 (show 5 * a.toks.length ≤ k + 1 by omega) h.skip
    obtain ⟨p₂, hb, hp₂⟩ := ihb he.2 (show 5 * b.toks.length ≤ k by omega) hp₁.skip
    have hnota := notExpr_of_primary (not_atKeyword_not he.1 h.skip) ha
    have hnotb := notExpr_of_primary (not_atKeyword_not he.2 hp₁.skip) hb
    have handa := andExpr_of_notExpr hnota ((hp₁.atKeyword "AND").trans (by decide))
    have handb := andExpr_of_notExpr hnotb (hp₂.not_atKeyword (fun _ => Tok.noConfusion) _)
    have hor := orExpr_or handa ((hp₁.atKeyword "OR").trans (by decide)) handb
      (hp₂.not_atKeyword (fun _ => Tok.noConfusion) _)
    exact ⟨p₂.skip, primary_of_lparen ((h.at_ _).trans (by decide)) hor hp₂, hp₂.skip⟩
  | not a ih =>
    have hlength := congrArg List.length (toks_not a [])
    simp only [List.length_append, List.length_cons, List.length_nil] at hlength
    obtain ⟨k, rfl⟩ : ∃ k, fuel = k + 5 := ⟨fuel - 5, by omega⟩
    rw [toks_not] at h
    have hparses : a.Parses := he
    obtain ⟨p₁, ha, hp₁⟩ := ih hparses (show 5 * a.toks.length ≤ k by omega) h.skip.skip
    have hnota := notExpr_of_primary (not_atKeyword_not hparses h.skip.skip) ha
    have hnot := notExpr_not ((h.skip.atKeyword "NOT").trans (by decide)) hnota
    have hand := andExpr_of_notExpr hnot (hp₁.not_atKeyword (fun _ => Tok.noConfusion) _)
    have hor := orExpr_of_andExpr hand (hp₁.not_atKeyword (fun _ => Tok.noConfusion) _)
    exact ⟨p₁.skip, primary_of_lparen ((h.at_ _).trans (by decide)) hor hp₁, hp₁.skip⟩

/-- The fuel that `Filter::parse` has for a number of tokens is enough. -/
theorem orExpr_reads (he : e.Parses) {p : Parser} (h : p.Reads e.toks) :
    ∃ p', orExpr (6 * (p.tokens.length + 1)) p = .ok (e, p') ∧ p'.Reads [] := by
  have hlength : p.tokens.length = e.toks.length := by
    rw [← h, List.length_map]
  have hreads : p.Reads (e.toks ++ []) := by rwa [List.append_nil]
  obtain ⟨p', hprimary, hp'⟩ := primary_reads he
    (show 5 * e.toks.length ≤ 6 * p.tokens.length + 3 by omega) hreads
  have hnot := notExpr_of_primary (not_atKeyword_not he hreads) hprimary
  have hand := andExpr_of_notExpr hnot (hp'.atEnd _)
  exact ⟨p', orExpr_of_andExpr hand (hp'.atEnd _), hp'⟩

end Filter

end Pg2osync
