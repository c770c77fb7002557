import Mathlib.Data.List.TakeWhile
import Pg2osync.Filter
import Pg2osync.ShortestDecimal

/-!
# What a predicate can be

Not every expression comes of a text: a column is a word that is not reserved, a list is not empty,
an integer is one of 64 bits, and a float is a number that a decimal is read as. The tokens of a
text are of these forms, and each rule of the parser makes of such tokens an expression of them.
-/

namespace Pg2osync

namespace Filter

/-- A letter or an underscore, and then letters, digits, underscores and dollar signs. -/
def IsWord (word : List Char) : Prop :=
  ∃ c rest, word = c :: rest ∧ (c.isAlpha || c = '_') = true ∧ ∀ d ∈ rest, isWordChar d = true

/-- A column's name. -/
structure IsColumn (name : String) : Prop where
  word : IsWord name.toList
  notReserved : isReserved name = false

/-- A number that some decimal is read as. -/
def IsRead (f : Double) : Prop :=
  ∃ units : ℤ, f = .finite units ∧ (units ≠ 0 → Double.IsDouble units.natAbs)

/-- An integer of 64 bits. -/
def IsLong (n : ℤ) : Prop :=
  -2 ^ 63 ≤ n ∧ n < 2 ^ 63

instance (n : ℤ) : Decidable (IsLong n) :=
  inferInstanceAs (Decidable (_ ∧ _))

/-- The tokens that a text has. -/
def Tok.Fits : Tok → Prop
  | .ident word => IsWord word.toList
  | .int n => IsLong n
  | .float f => IsRead f
  | .str _ | .op _ | .lparen | .rparen | .comma => True

/-- The literals that a text has. -/
def Literal.Fits : Literal → Prop
  | .int n => IsLong n
  | .float f => IsRead f
  | .str _ | .bool _ => True

/-- The expressions that a text has. -/
def Expr.Fits : Expr → Prop
  | .cmp column _ literal => IsColumn column ∧ literal.Fits
  | .isNull column _ => IsColumn column
  | .isIn column list _ => IsColumn column ∧ list ≠ [] ∧ ∀ literal ∈ list, literal.Fits
  | .and a b | .or a b => a.Fits ∧ b.Fits
  | .not a => a.Fits

/-! ## Tokens -/

variable {t : Token}

theorem scanNumber_fits {offset : ℕ} {negative : Bool} {digits : List Char} {rest : List Char}
    (h : scanNumber offset negative digits = .ok (t, rest)) : t.tok.Fits := by
  unfold scanNumber at h
  generalize spanNumber digits = spanned at h
  obtain ⟨whole, fraction, after⟩ := spanned
  dsimp only at h
  generalize (if negative = true then _ else _ : ℤ) = n at h
  by_cases hfraction : fraction = []
  · rw [if_pos hfraction] at h
    by_cases hrange : -2 ^ 63 ≤ n ∧ n < 2 ^ 63
    · rw [if_pos hrange] at h
      rw [← (Prod.mk.inj (Except.ok.inj h)).1]
      exact hrange
    · rw [if_neg hrange] at h
      cases h
  · rw [if_neg hfraction] at h
    cases hread : Double.ofDecimal ⟨n, fraction.length⟩ with
    | nan =>
      rw [hread] at h
      cases h
    | infinite b =>
      rw [hread] at h
      cases h
    | finite units =>
      rw [hread] at h
      rw [← (Prod.mk.inj (Except.ok.inj h)).1]
      exact ⟨units, rfl, Double.isDouble_of_ofDecimal hread⟩

theorem scanToken_fits {offset : ℕ} {c : Char} {text rest : List Char}
    (h : scanToken offset c text = .ok (t, rest)) : t.tok.Fits := by
  unfold scanToken at h
  dsimp only at h
  split at h
  · cases h
    trivial
  split at h
  · cases h
    trivial
  split at h
  · cases h
    trivial
  split at h
  · split at h
    · cases h
    · cases h
      trivial
  split at h
  · exact scanNumber_fits h
  split at h
  · exact scanNumber_fits h
  split at h
  · rename_i hfirst
    cases h
    exact ⟨c, _, String.toList_ofList, hfirst, fun d hd => List.mem_takeWhile_imp hd⟩
  split at h
  · cases h
  split at h
  · cases h
    trivial
  · cases h

theorem tokenizeFrom_fits {fuel offset : ℕ} {text : List Char} {tokens : List Token}
    (h : tokenizeFrom fuel offset text = .ok tokens) : ∀ t ∈ tokens, t.tok.Fits := by
  induction fuel generalizing offset text tokens with
  | zero =>
    cases h
    exact fun t ht => absurd ht List.not_mem_nil
  | succ fuel ih =>
    cases text with
    | nil =>
      cases h
      exact fun t ht => absurd ht List.not_mem_nil
    | cons c rest =>
      rw [tokenizeFrom] at h
      split at h
      · exact ih h
      · obtain ⟨⟨token, rest'⟩, hscan, h⟩ := Except.bind_eq_ok h
        obtain ⟨more, hmore, h⟩ := Except.bind_eq_ok h
        cases h
        intro t ht
        rcases List.mem_cons.mp ht with rfl | ht
        · exact scanToken_fits hscan
        · exact ih hmore t ht

/-! ## Expressions -/

/-- A state whose tokens are all ones that a text has. -/
def Parser.Fits (p : Parser) : Prop :=
  ∀ t ∈ p.tokens, t.tok.Fits

variable {p : Parser}

theorem Parser.Fits.skip (h : p.Fits) : p.skip.Fits := fun t ht =>
  h t (List.mem_of_mem_tail ht)

theorem Parser.Fits.peek (h : p.Fits) (ht : p.peek = some t) : t.tok.Fits :=
  h t (List.mem_of_head? ht)

/-- A rule that answers nothing but what is so, and leaves a state that fits. -/
def Yields {α : Type} (Q : α → Prop) (r : Parsed α) : Prop :=
  ∀ a p, r = .ok (a, p) → Q a ∧ p.Fits

section Rules

variable {α β : Type} {Q : α → Prop} {Q' : β → Prop}

theorem Yields.error (e : String) : Yields Q (.error e) := by
  intro a p h
  cases h

theorem Yields.ok {a : α} (ha : Q a) (hp : p.Fits) : Yields Q (.ok (a, p)) := by
  intro a' p' h
  cases h
  exact ⟨ha, hp⟩

theorem Yields.bind {r : Parsed α} {k : α × Parser → Parsed β} (h : Yields Q r)
    (hk : ∀ a p, Q a → p.Fits → Yields Q' (k (a, p))) : Yields Q' (r.bind k) := by
  intro b p' hb
  cases r with
  | error e => cases hb
  | ok found =>
    obtain ⟨a, p⟩ := found
    obtain ⟨ha, hp⟩ := h a p rfl
    exact hk a p ha hp b p' hb

theorem Yields.map {r : Parsed α} {k : α × Parser → β × Parser} (h : Yields Q r)
    (hk : ∀ a p, Q a → p.Fits → Q' (k (a, p)).1 ∧ (k (a, p)).2.Fits) : Yields Q' (r.map k) := by
  intro b p' hb
  cases r with
  | error e => cases hb
  | ok found =>
    obtain ⟨a, p⟩ := found
    obtain ⟨ha, hp⟩ := h a p rfl
    have hkap := hk a p ha hp
    have heq : k (a, p) = (b, p') := Except.ok.inj hb
    rw [heq] at hkap
    exact hkap

end Rules

theorem literalOf_fits {literal : Literal} (ht : t.tok.Fits) (h : literalOf t = some literal) :
    literal.Fits := by
  obtain ⟨tok, offset, text⟩ := t
  cases tok with
  | str s =>
    cases h
    trivial
  | int n =>
    cases h
    exact ht
  | float f =>
    cases h
    exact ht
  | ident word =>
    simp only [literalOf] at h
    split_ifs at h
    · cases h
      trivial
    · cases h
      trivial
  | op o => cases h
  | lparen => cases h
  | rparen => cases h
  | comma => cases h

theorem expectRparen_yields (hp : p.Fits) : Yields (fun _ => True) (expectRparen p) := by
  unfold expectRparen
  split
  · split
    · exact .ok trivial hp.skip
    · exact .error _
  · exact .error _

variable {column : String}

theorem comparisonRhs_yields (hcolumn : IsColumn column) (op : CmpOp) (operator : Token)
    (hp : p.Fits) : Yields Expr.Fits (comparisonRhs column op operator p) := by
  unfold comparisonRhs
  split
  · exact .error _
  · split
    · rename_i literal hliteral
      obtain ⟨t, ht, hl⟩ := Option.bind_eq_some_iff.mp hliteral
      exact .ok ⟨hcolumn, literalOf_fits (hp.peek ht) hl⟩ hp.skip
    · exact .error _

theorem inItems_yields (fuel : ℕ) (hp : p.Fits) :
    Yields (fun list => list ≠ [] ∧ ∀ literal ∈ list, literal.Fits) (inItems fuel p) := by
  induction fuel generalizing p with
  | zero => exact .error _
  | succ fuel ih =>
    rw [inItems]
    split
    · exact .error _
    · rename_i t ht
      split
      · exact .error _
      · rename_i literal hliteral
        have hfits := literalOf_fits (hp.peek ht) hliteral
        split
        · apply (ih hp.skip.skip).map
          intro list p' hlist hp'
          refine ⟨⟨List.cons_ne_nil _ _, ?_⟩, hp'⟩
          intro l hl
          rcases List.mem_cons.mp hl with rfl | hl
          · exact hfits
          · exact hlist.2 l hl
        · apply (expectRparen_yields hp.skip).map
          intro _ p' _ hp'
          refine ⟨⟨List.cons_ne_nil _ _, ?_⟩, hp'⟩
          intro l hl
          rw [List.mem_singleton.mp hl]
          exact hfits

theorem inList_yields (hcolumn : IsColumn column) (negated : Bool) (hp : p.Fits) :
    Yields Expr.Fits (inList column negated p) := by
  unfold inList
  split
  · exact .error _
  · split
    · exact .error _
    · apply (inItems_yields _ hp.skip).map
      intro list p' hlist hp'
      exact ⟨⟨hcolumn, hlist⟩, hp'⟩

theorem comparisonTail_yields (hcolumn : IsColumn column) (hp : p.Fits) :
    Yields Expr.Fits (comparisonTail column p) := by
  unfold comparisonTail
  dsimp only
  split
  · exact .error _
  · split
    · exact comparisonRhs_yields hcolumn _ _ hp.skip
    · split
      · -- `IS`, with or without `NOT`
        have hskip : (if p.skip.atKeyword "NOT" then p.skip.skip else p.skip).Fits := by
          split
          · exact hp.skip.skip
          · exact hp.skip
        generalize (if p.skip.atKeyword "NOT" then p.skip.skip else p.skip) = p' at hskip ⊢
        split
        · exact .ok hcolumn hskip.skip
        · exact .error _
      split
      · exact inList_yields hcolumn _ hp.skip
      split
      · split
        · exact inList_yields hcolumn _ hp.skip.skip
        · split
          · split
            · exact .error _
            · exact .error _
          · exact .error _
      split
      · exact .error _
      · exact .error _
    · exact .error _

theorem comparison_yields (hp : p.Fits) : Yields Expr.Fits (comparison p) := by
  unfold comparison
  dsimp only
  split
  · exact .error _
  · rename_i t ht
    split
    · rename_i name hname
      split
      · exact .error _
      · rename_i hreserved
        split
        · exact .error _
        · have hword := hp.peek ht
          rw [hname] at hword
          exact comparisonTail_yields ⟨hword, eq_false_of_ne_true hreserved⟩ hp.skip
    · exact .error _

/-- What the rules of the grammar answer is an expression that a text has. -/
theorem rules_yield (fuel : ℕ) :
    (∀ p : Parser, p.Fits → Yields Expr.Fits (orExpr fuel p)) ∧
    (∀ (left : Expr) (p : Parser), left.Fits → p.Fits → Yields Expr.Fits (orLoop fuel left p)) ∧
    (∀ p : Parser, p.Fits → Yields Expr.Fits (andExpr fuel p)) ∧
    (∀ (left : Expr) (p : Parser), left.Fits → p.Fits → Yields Expr.Fits (andLoop fuel left p)) ∧
    (∀ p : Parser, p.Fits → Yields Expr.Fits (notExpr fuel p)) ∧
    (∀ p : Parser, p.Fits → Yields Expr.Fits (primary fuel p)) := by
  induction fuel with
  | zero =>
    exact ⟨fun _ _ => .error _, fun _ _ _ _ => .error _, fun _ _ => .error _,
      fun _ _ _ _ => .error _, fun _ _ => .error _, fun _ _ => .error _⟩
  | succ fuel ih =>
    obtain ⟨hor, horLoop, hand, handLoop, hnot, hprimary⟩ := ih
    refine ⟨?_, ?_, ?_, ?_, ?_, ?_⟩
    · intro p hp
      rw [orExpr]
      exact (hand p hp).bind fun left p' hleft hp' => horLoop left p' hleft hp'
    · intro left p hleft hp
      rw [orLoop]
      split
      · exact (hand _ hp.skip).bind fun right p' hright hp' => horLoop _ p' ⟨hleft, hright⟩ hp'
      · exact .ok hleft hp
    · intro p hp
      rw [andExpr]
      exact (hnot p hp).bind fun left p' hleft hp' => handLoop left p' hleft hp'
    · intro left p hleft hp
      rw [andLoop]
      split
      · exact (hnot _ hp.skip).bind fun right p' hright hp' => handLoop _ p' ⟨hleft, hright⟩ hp'
      · exact .ok hleft hp
    · intro p hp
      rw [notExpr]
      split
      · exact (hnot _ hp.skip).map fun a p' ha hp' => ⟨ha, hp'⟩
      · exact hprimary p hp
    · intro p hp
      rw [primary]
      split
      · exact (hor _ hp.skip).bind fun inner p' hinner hp' =>
          (expectRparen_yields hp').map fun _ p'' _ hp'' => ⟨hinner, hp''⟩
      · exact comparison_yields hp

/-- **What a text is parsed as is of the forms that a text has.** -/
theorem fits_of_parse {src : String} {filter : Filter} (h : parse src = .ok filter) :
    filter.expr.Fits := by
  unfold parse at h
  split at h
  · cases h
  obtain ⟨tokens, htokens, h⟩ := Except.bind_eq_ok h
  obtain ⟨⟨expr, p⟩, hexpr, h⟩ := Except.bind_eq_ok h
  have hfits : Parser.Fits ⟨tokens, [], byteLength src.toList⟩ := tokenizeFrom_fits htokens
  dsimp only at h
  split at h
  · cases h
  · cases h
    exact ((rules_yield _).1 _ hfits expr p hexpr).1

end Filter

end Pg2osync
