import Pg2osync.FilterForms

/-!
# Reading a rendered predicate

A rendering parenthesises every connective and leaves one blank between its tokens, so the tokens
read from it are those written, and the grammar makes the same expression of them. What is not
kept is a number's kind: a float that needs no point is printed without one, and is then an
integer or no number at all.
-/

namespace Pg2osync

open Decimal

namespace Filter

/-- `s.replace('\'', "''")`. -/
def doubleQuotes (text : List Char) : List Char :=
  text.flatMap fun c => if c = '\'' then ['\'', '\''] else [c]

/-- The dialect that leaves identifiers as they are and doubles quotes. -/
def plain : SqlDialect where
  quoteIdent name := name
  quoteStr text := '\'' :: (doubleQuotes text ++ ['\''])

/-! ## What is written -/

/-- The literal that a rendered one is read as, if it is read at all. -/
def Literal.reread : Literal → Option Literal
  | .float f =>
    let d := f.toDecimal
    if d.scale = 0 then if IsLong d.mantissa then some (.int d.mantissa) else none
    else some (.float f)
  | literal => some literal

/-- The token of a literal. -/
def Literal.tok : Literal → Tok
  | .str s => .str s
  | .int n => .int n
  | .float f => .float f
  | .bool true => .ident "TRUE"
  | .bool false => .ident "FALSE"

/-- The token that a rendered literal is read as. -/
def Literal.written (literal : Literal) : Option Tok :=
  literal.reread.map Literal.tok

/-- A keyword, if it is written. -/
def keyword {α : Type} (of : Tok → α) (present : Bool) (word : String) : List α :=
  if present then [of (.ident word)] else []

section Spelling

variable {α : Type} (of : Tok → α) (ofLiteral : Literal → α)

/-- How an expression is spelled, given how tokens and literals are. -/
def Expr.spelled : Expr → List α
  | .cmp column op literal => [of (.ident column), of (.op op), ofLiteral literal]
  | .isNull column negated =>
    of (.ident column) :: of (.ident "IS") :: (keyword of negated "NOT" ++ [of (.ident "NULL")])
  | .isIn column list negated =>
    of (.ident column) :: (keyword of negated "NOT" ++ of (.ident "IN") :: of .lparen ::
      ((list.map ofLiteral).intersperse (of .comma) ++ [of .rparen]))
  | .and a b => of .lparen :: (a.spelled ++ of (.ident "AND") :: (b.spelled ++ [of .rparen]))
  | .or a b => of .lparen :: (a.spelled ++ of (.ident "OR") :: (b.spelled ++ [of .rparen]))
  | .not a => of .lparen :: of (.ident "NOT") :: (a.spelled ++ [of .rparen])

end Spelling

/-- The tokens that a rendered expression is read as, in the order they are written. -/
def Expr.written : Expr → List (Option Tok) :=
  Expr.spelled some Literal.written

/-- The tokens of an expression. -/
def Expr.toks : Expr → List Tok :=
  Expr.spelled (fun tok => tok) Literal.tok

/-! ## One token -/

/-- What a word or a number can be followed by. -/
def Ends (rest : List Char) : Prop :=
  ∀ c tail, rest = c :: tail → c = ' ' ∨ c = ')' ∨ c = ','

theorem ends_nil : Ends [] := fun _ _ h => by cases h

theorem ends_blank (rest : List Char) : Ends (' ' :: rest) := fun _ _ h =>
  .inl (List.cons.inj h).1.symm

theorem ends_rparen (rest : List Char) : Ends (')' :: rest) := fun _ _ h =>
  .inr (.inl (List.cons.inj h).1.symm)

theorem ends_comma (rest : List Char) : Ends (',' :: rest) := fun _ _ h =>
  .inr (.inr (List.cons.inj h).1.symm)

/-- What is scanned by its characters ends where they do. -/
theorem span_of_ends {p : Char → Bool} {word rest : List Char} (hword : ∀ c ∈ word, p c = true)
    (hrest : Ends rest) (hp : p ' ' = false ∧ p ')' = false ∧ p ',' = false) :
    (word ++ rest).takeWhile p = word ∧ (word ++ rest).dropWhile p = rest := by
  rw [List.takeWhile_append_of_pos hword, List.dropWhile_append_of_pos hword]
  cases rest with
  | nil => exact ⟨List.append_nil _, rfl⟩
  | cons c tail =>
    have hc : p c = false := by
      rcases hrest c tail rfl with rfl | rfl | rfl
      · exact hp.1
      · exact hp.2.1
      · exact hp.2.2
    rw [List.takeWhile_cons_of_neg (by rw [hc]; exact Bool.noConfusion),
      List.dropWhile_cons_of_neg (by rw [hc]; exact Bool.noConfusion)]
    exact ⟨List.append_nil _, rfl⟩

variable {c : Char}

theorem toNat_of_isAlpha (h : c.isAlpha = true) :
    65 ≤ c.toNat ∧ c.toNat ≤ 90 ∨ 97 ≤ c.toNat ∧ c.toNat ≤ 122 := by
  rcases Bool.or_eq_true_iff.mp h with h | h
  · exact .inl (of_decide_eq_true h)
  · obtain ⟨hlow, hhigh⟩ := Bool.and_eq_true_iff.mp h
    exact .inr ⟨of_decide_eq_true hlow, of_decide_eq_true hhigh⟩

/-- The first character of a word is neither a digit nor a sign. -/
theorem toNat_of_first (h : (c.isAlpha || c = '_') = true) :
    65 ≤ c.toNat ∧ c.toNat ≤ 90 ∨ 97 ≤ c.toNat ∧ c.toNat ≤ 122 ∨ c.toNat = 95 := by
  rcases Bool.or_eq_true_iff.mp h with h | h
  · have := toNat_of_isAlpha h
    omega
  · rw [of_decide_eq_true h]
    exact .inr (.inr rfl)

theorem ne_of_toNat {c d : Char} (h : c.toNat ≠ d.toNat) : c ≠ d := fun heq => h (congrArg _ heq)

theorem scanToken_word (offset : ℕ) {word rest : List Char} (hc : (c.isAlpha || c = '_') = true)
    (hword : ∀ d ∈ word, isWordChar d = true) (hrest : Ends rest) :
    scanToken offset c (word ++ rest) =
      .ok (⟨.ident (String.ofList (c :: word)), offset, String.ofList (c :: word)⟩, rest) := by
  have hfirst := toNat_of_first hc
  have hne : ∀ d : Char, d.toNat < 65 → c ≠ d := fun d hd => ne_of_toNat (by omega)
  have hdigit : ¬c.isDigit = true := fun h => by
    have hnine : c.toNat ≤ 57 := (Char.isDigit_iff_toNat.mp h).2
    omega
  obtain ⟨htake, hdrop⟩ := span_of_ends hword hrest ⟨by decide, by decide, by decide⟩
  unfold scanToken
  dsimp only
  rw [if_neg (hne _ (by decide)), if_neg (hne _ (by decide)), if_neg (hne _ (by decide)),
    if_neg (hne _ (by decide)), if_neg (fun h => hne _ (by decide) h.1), if_neg hdigit, if_pos hc,
    htake, hdrop]

variable {rest : List Char}

/-- What stands between quotes is read back, up to a quote that is not doubled. -/
theorem scanString_doubled (text : List Char) (hrest : ∀ tail, rest ≠ '\'' :: tail) :
    scanString (doubleQuotes text ++ '\'' :: rest) =
      some (text, doubleQuotes text ++ ['\''], rest) := by
  induction text with
  | nil =>
    cases rest with
    | nil => rfl
    | cons c tail =>
      rw [doubleQuotes, List.flatMap_nil, List.nil_append, scanString]
      · rfl
      · intro tail' h
        exact hrest tail' h
  | cons c text ih =>
    by_cases hc : c = '\''
    · subst hc
      have hcons : doubleQuotes ('\'' :: text) = '\'' :: '\'' :: doubleQuotes text := rfl
      rw [hcons, List.cons_append, List.cons_append, scanString, ih]
      rfl
    · have hcons : doubleQuotes (c :: text) = c :: doubleQuotes text := by
        rw [doubleQuotes, List.flatMap_cons, if_neg hc]
        rfl
      rw [hcons, List.cons_append, scanString, ih]
      · rfl
      · intro tail h _
        exact hc h
      · intro h
        exact hc h

/-- A digit begins a number. -/
theorem scanToken_digit (offset : ℕ) (rest : List Char) (hc : c.isDigit = true) :
    scanToken offset c rest = scanNumber offset false (c :: rest) := by
  have hzero : 48 ≤ c.toNat := (Char.isDigit_iff_toNat.mp hc).1
  have hne : ∀ d : Char, d.toNat < 48 → c ≠ d := fun d hd => ne_of_toNat (by omega)
  unfold scanToken
  dsimp only
  rw [if_neg (hne _ (by decide)), if_neg (hne _ (by decide)), if_neg (hne _ (by decide)),
    if_neg (hne _ (by decide)), if_neg (fun h => hne _ (by decide) h.1), if_pos hc]

/-- A minus ahead of a digit begins one as well. -/
theorem scanToken_minus (offset : ℕ) (rest : List Char) (hc : c.isDigit = true) :
    scanToken offset '-' (c :: rest) = scanNumber offset true (c :: rest) := by
  unfold scanToken
  dsimp only
  rw [if_neg (by decide), if_neg (by decide), if_neg (by decide), if_neg (by decide),
    if_pos ⟨rfl, hc⟩]

theorem spanNumber_printNat (n scale : ℕ) (hrest : Ends rest) :
    ∃ whole fraction, spanNumber (printNat n scale ++ rest) = (whole, fraction, rest) ∧
      whole ++ fraction = digits n scale ∧ fraction.length = scale := by
  have hlt := lt_length_digits n scale
  have hdigits : ∀ c ∈ digits n scale, c.isDigit = true := fun c hc =>
    isDigit_digits hc
  unfold printNat
  dsimp only
  generalize digits n scale = all at hlt hdigits ⊢
  have hends : ' '.isDigit = false ∧ ')'.isDigit = false ∧ ','.isDigit = false := by decide
  by_cases hscale : scale = 0
  · subst hscale
    obtain ⟨htake, hdrop⟩ := span_of_ends hdigits hrest hends
    refine ⟨all, [], ?_, List.append_nil _, rfl⟩
    rw [if_pos rfl, Nat.sub_zero, List.take_length]
    unfold spanNumber
    rw [htake, hdrop]
    -- what follows the digits is no point
    cases rest with
    | nil => rfl
    | cons c tail =>
      rcases hrest c tail rfl with rfl | rfl | rfl
      · rfl
      · rfl
      · rfl
  · have hwhole : ∀ c ∈ all.take (all.length - scale), c.isDigit = true := fun c hc =>
      hdigits c (List.mem_of_mem_take hc)
    have hfraction : ∀ c ∈ all.drop (all.length - scale), c.isDigit = true := fun c hc =>
      hdigits c (List.mem_of_mem_drop hc)
    have hlength : (all.drop (all.length - scale)).length = scale := by
      rw [List.length_drop]
      omega
    refine ⟨_, _, ?_, List.take_append_drop (all.length - scale) all, hlength⟩
    rw [if_neg hscale]
    generalize all.take (all.length - scale) = whole at hwhole ⊢
    generalize all.drop (all.length - scale) = fraction at hfraction hlength ⊢
    obtain ⟨htake, hdrop⟩ := span_of_ends hfraction hrest hends
    cases fraction with
    | nil => exact absurd hlength.symm hscale
    | cons d more =>
      have hpoint : ('.' :: d :: more ++ rest).takeWhile Char.isDigit = [] := rfl
      have hpoint' : ('.' :: d :: more ++ rest).dropWhile Char.isDigit = '.' :: d :: more ++ rest :=
        rfl
      unfold spanNumber
      rw [List.append_assoc, List.takeWhile_append_of_pos hwhole,
        List.dropWhile_append_of_pos hwhole, hpoint, hpoint', List.append_nil]
      refine (if_pos (hfraction d List.mem_cons_self)).trans ?_
      exact congrArg₂ (fun fraction rest => (whole, fraction, rest)) htake hdrop

/-- What the digits of a number are read as. -/
def numberTok (d : Decimal) : Option Tok :=
  if d.scale = 0 then if IsLong d.mantissa then some (.int d.mantissa) else none
  else
    match Double.ofDecimal d with
    | .finite units => some (.float (.finite units))
    | _ => none

/-- **A number's digits are scanned as the number**, or refused. -/
theorem scanNumber_printNat (offset : ℕ) (negative : Bool) (n scale : ℕ) (hrest : Ends rest) :
    ((scanNumber offset negative (printNat n scale ++ rest)).toOption.map fun found =>
        (found.1.tok, found.2)) =
      (numberTok ⟨if negative then -(n : ℤ) else n, scale⟩).map fun tok => (tok, rest) := by
  obtain ⟨whole, fraction, hspan, hall, hlength⟩ := spanNumber_printNat n scale hrest
  unfold scanNumber
  rw [hspan]
  dsimp only
  rw [hall, ofDigitChars_digits, hlength]
  unfold numberTok
  dsimp only
  by_cases hscale : scale = 0
  · have hnil : fraction = [] := List.eq_nil_of_length_eq_zero (hlength.trans hscale)
    rw [if_pos hnil, if_pos hscale]
    generalize (if negative = true then _ else _ : ℤ) = m
    by_cases hm : IsLong m
    · have hrange : -2 ^ 63 ≤ m ∧ m < 2 ^ 63 := hm
      rw [if_pos hm, if_pos hrange]
      rfl
    · have hrange : ¬(-2 ^ 63 ≤ m ∧ m < 2 ^ 63) := hm
      rw [if_neg hm, if_neg hrange]
      rfl
  · have hne : fraction ≠ [] := fun h => hscale (by rw [← hlength, h]; rfl)
    rw [if_neg hne, if_neg hscale]
    generalize Double.ofDecimal _ = f
    cases f with
    | finite units => rfl
    | infinite b => rfl
    | nan => rfl

/-! ## All tokens -/

/-- A text's tokens, or nothing where one of them is refused. -/
def Lexes (text : List Char) (toks : List (Option Tok)) : Prop :=
  ∀ fuel offset, text.length ≤ fuel →
    (tokenizeFrom fuel offset text).toOption.map (fun tokens => tokens.map Token.tok) =
      toks.mapM id

theorem mapM_none (toks : List (Option Tok)) : (none :: toks).mapM id = none := by
  rw [List.mapM_cons]
  rfl

theorem mapM_some (tok : Tok) (toks : List (Option Tok)) :
    (some tok :: toks).mapM id = (toks.mapM id).map (tok :: ·) := by
  rw [List.mapM_cons]
  cases toks.mapM id with
  | none => rfl
  | some found => rfl

theorem lexes_nil : Lexes [] [] := by
  intro fuel offset _
  cases fuel with
  | zero => rfl
  | succ fuel => rfl

variable {toks : List (Option Tok)}

theorem Lexes.blank (h : Lexes rest toks) : Lexes (' ' :: rest) toks := by
  intro fuel offset hfuel
  cases fuel with
  | zero => exact absurd hfuel (by simp)
  | succ fuel =>
    rw [tokenizeFrom, if_pos (.inl rfl)]
    exact h fuel _ (by simpa using hfuel)

/-- Whether a character separates tokens. -/
def IsBlank (c : Char) : Prop :=
  c = ' ' ∨ c = '\t' ∨ c = '\r' ∨ c = '\n'

/-- One token ahead of the others. -/
theorem Lexes.cons {text rest : List Char} {tok : Option Tok} (hblank : ¬IsBlank c)
    (hlength : rest.length ≤ text.length)
    (hscan : ∀ offset, ((scanToken offset c text).toOption.map fun found =>
      (found.1.tok, found.2)) = tok.map fun tok => (tok, rest)) (h : Lexes rest toks) :
    Lexes (c :: text) (tok :: toks) := by
  intro fuel offset hfuel
  rw [List.length_cons] at hfuel
  cases fuel with
  | zero => omega
  | succ fuel =>
    have hblank' : ¬(c = ' ' ∨ c = '\t' ∨ c = '\r' ∨ c = '\n') := hblank
    have hc := hscan offset
    rw [tokenizeFrom, if_neg hblank']
    cases hfound : scanToken offset c text with
    | error e =>
      rw [hfound] at hc
      cases tok with
      | none =>
        rw [mapM_none]
        rfl
      | some tok => cases hc
    | ok found =>
      obtain ⟨token, after⟩ := found
      rw [hfound] at hc
      cases tok with
      | none => cases hc
      | some tok =>
        obtain ⟨rfl, rfl⟩ := Prod.mk.inj (Option.some.inj hc)
        have hrest := h fuel (offset + byteLength token.text.toList) (by omega)
        rw [mapM_some, ← hrest]
        dsimp only [Except.bind]
        cases tokenizeFrom fuel (offset + byteLength token.text.toList) after with
        | error e => rfl
        | ok tokens => rfl

/-! ### What is written, one piece at a time -/

theorem Lexes.lparen (h : Lexes rest toks) : Lexes ('(' :: rest) (some .lparen :: toks) :=
  h.cons (by simp [IsBlank]) (Nat.le_refl _) fun _ => rfl

theorem Lexes.rparen (h : Lexes rest toks) : Lexes (')' :: rest) (some .rparen :: toks) :=
  h.cons (by simp [IsBlank]) (Nat.le_refl _) fun _ => rfl

theorem Lexes.comma (h : Lexes rest toks) : Lexes (',' :: rest) (some .comma :: toks) :=
  h.cons (by simp [IsBlank]) (Nat.le_refl _) fun _ => rfl

theorem not_isBlank (h : 33 ≤ c.toNat) : ¬IsBlank c := by
  rintro (rfl | rfl | rfl | rfl)
  · exact absurd h (by decide)
  · exact absurd h (by decide)
  · exact absurd h (by decide)
  · exact absurd h (by decide)

theorem Lexes.word {word rest : List Char} (hword : IsWord word) (hrest : Ends rest)
    (h : Lexes rest toks) : Lexes (word ++ rest) (some (.ident (String.ofList word)) :: toks) := by
  obtain ⟨c, more, rfl, hc, hmore⟩ := hword
  have hfirst := toNat_of_first hc
  rw [List.cons_append]
  refine h.cons (not_isBlank (by omega)) (by simp) fun offset => ?_
  rw [scanToken_word offset hc hmore hrest]
  rfl

theorem Lexes.ident {name : String} (hname : IsWord name.toList) (hrest : Ends rest)
    (h : Lexes rest toks) : Lexes (name.toList ++ rest) (some (.ident name) :: toks) := by
  have hlexes := h.word hname hrest
  rwa [String.ofList_toList] at hlexes

theorem Lexes.op (op : CmpOp) (h : Lexes rest toks) :
    Lexes (op.sql ++ ' ' :: rest) (some (.op op) :: toks) := by
  cases op with
  | eq => exact h.blank.cons (by simp [IsBlank]) (Nat.le_refl _) fun _ => rfl
  | ne => exact h.blank.cons (by simp [IsBlank]) (Nat.le_succ _) fun _ => rfl
  | lt => exact h.blank.cons (by simp [IsBlank]) (Nat.le_refl _) fun _ => rfl
  | le => exact h.blank.cons (by simp [IsBlank]) (Nat.le_succ _) fun _ => rfl
  | gt => exact h.blank.cons (by simp [IsBlank]) (Nat.le_refl _) fun _ => rfl
  | ge => exact h.blank.cons (by simp [IsBlank]) (Nat.le_succ _) fun _ => rfl

theorem Lexes.str (s : String) (hrest : Ends rest) (h : Lexes rest toks) :
    Lexes (plain.quoteStr s.toList ++ rest) (some (.str s) :: toks) := by
  have hquote : ∀ tail, rest ≠ '\'' :: tail := by
    intro tail heq
    rcases hrest _ _ heq with h | h | h
    · exact absurd h (by decide)
    · exact absurd h (by decide)
    · exact absurd h (by decide)
  have htext : plain.quoteStr s.toList ++ rest =
      '\'' :: (doubleQuotes s.toList ++ '\'' :: rest) := by
    simp [plain]
  rw [htext]
  refine h.cons (by simp [IsBlank]) (by simp; omega) fun offset => ?_
  have hscan : scanToken offset '\'' (doubleQuotes s.toList ++ '\'' :: rest) =
      .ok (⟨.str s, offset, String.ofList ('\'' :: (doubleQuotes s.toList ++ ['\'']))⟩, rest) := by
    unfold scanToken
    dsimp only
    rw [if_neg (by decide), if_neg (by decide), if_neg (by decide), if_pos rfl,
      scanString_doubled s.toList hquote]
    dsimp only
    rw [String.ofList_toList]
  rw [hscan]
  rfl

theorem Lexes.number (d : Decimal) (hrest : Ends rest) (h : Lexes rest toks) :
    Lexes (d.print ++ rest) (numberTok d :: toks) := by
  obtain ⟨m, scale⟩ := d
  obtain ⟨c, more, hhead, hdigit⟩ := head_printNat m.natAbs scale
  have hlength : rest.length ≤ (printNat m.natAbs scale ++ rest).length := by simp
  have hzero : 48 ≤ c.toNat := (Char.isDigit_iff_toNat.mp hdigit).1
  by_cases hneg : m < 0
  · have hprint : print ⟨m, scale⟩ = '-' :: printNat m.natAbs scale := if_pos hneg
    have hm : -(m.natAbs : ℤ) = m := by omega
    rw [hprint, List.cons_append]
    refine h.cons (by simp [IsBlank]) hlength fun offset => ?_
    have hscan := scanNumber_printNat offset true m.natAbs scale hrest
    rw [if_pos rfl, hm] at hscan
    rw [← hscan, hhead, List.cons_append, scanToken_minus offset _ hdigit]
  · have hprint : print ⟨m, scale⟩ = printNat m.natAbs scale := if_neg hneg
    have hm : (m.natAbs : ℤ) = m := by omega
    rw [hhead, List.cons_append, List.length_cons] at hlength
    rw [hprint, hhead, List.cons_append]
    refine h.cons (not_isBlank (by omega)) ?_ fun offset => ?_
    · rw [List.length_append]
      omega
    · have hscan := scanNumber_printNat offset false m.natAbs scale hrest
      rw [if_neg Bool.noConfusion, hm] at hscan
      rw [← hscan, scanToken_digit offset _ hdigit, hhead, List.cons_append]

theorem isWord_of_isAlpha {word : List Char} (hne : word ≠ [])
    (hall : word.all Char.isAlpha = true) : IsWord word := by
  cases word with
  | nil => exact absurd rfl hne
  | cons c rest =>
    rw [List.all_cons, Bool.and_eq_true] at hall
    refine ⟨c, rest, rfl, Bool.or_eq_true_iff.mpr (.inl hall.1), fun d hd => ?_⟩
    simp [isWordChar, Char.isAlphanum, List.all_eq_true.mp hall.2 d hd]

theorem numberTok_ofInt {n : ℤ} (h : IsLong n) : numberTok (.ofInt n) = some (.int n) := by
  have hscale : (ofInt n).scale = 0 := rfl
  have hmantissa : (ofInt n).mantissa = n := rfl
  rw [numberTok, if_pos hscale, hmantissa, if_pos h]

theorem numberTok_toDecimal {f : Double} (h : IsRead f) :
    numberTok f.toDecimal = (Literal.float f).written := by
  obtain ⟨units, rfl, hdouble⟩ := h
  have hread := Double.ofDecimal_toDecimal hdouble
  rw [numberTok, hread, Literal.written, Literal.reread]
  generalize Double.toDecimal (.finite units) = d
  dsimp only
  split
  · split
    · rfl
    · rfl
  · rfl

theorem Lexes.literal {literal : Literal} (hfits : literal.Fits) (hrest : Ends rest)
    (h : Lexes rest toks) :
    Lexes (renderLiteral plain literal ++ rest) (literal.written :: toks) := by
  cases literal with
  | str s => exact h.str s hrest
  | int n =>
    have hnumber := numberTok_ofInt hfits
    have hlexes := h.number (.ofInt n) hrest
    rw [hnumber] at hlexes
    exact hlexes
  | float f =>
    have hlexes := h.number f.toDecimal hrest
    rw [numberTok_toDecimal hfits] at hlexes
    exact hlexes
  | bool b =>
    cases b with
    | true =>
      have hword : IsWord "TRUE".toList := isWord_of_isAlpha (by decide) (by decide)
      exact h.ident hword hrest
    | false =>
      have hword : IsWord "FALSE".toList := isWord_of_isAlpha (by decide) (by decide)
      exact h.ident hword hrest

/-! ### Expressions -/

theorem Lexes.reserved (word : String) (hall : word.toList.all Char.isAlpha = true)
    (hne : word.toList ≠ []) (hrest : Ends rest) (h : Lexes rest toks) :
    Lexes (word.toList ++ rest) (some (.ident word) :: toks) :=
  h.ident (isWord_of_isAlpha hne hall) hrest

/-- `NOT`, where it is written. -/
theorem Lexes.negation (negated : Bool) (h : Lexes rest toks) :
    Lexes ((if negated then "NOT ".toList else []) ++ rest)
      (keyword some negated "NOT" ++ toks) := by
  cases negated with
  | false => exact h
  | true => exact Lexes.reserved "NOT" (by decide) (by decide) (ends_blank _) h.blank

theorem Lexes.list {list : List Literal} (hfits : ∀ literal ∈ list, literal.Fits)
    (h : Lexes rest toks) :
    Lexes (List.intercalate ", ".toList (list.map (renderLiteral plain)) ++ ')' :: rest)
      ((list.map Literal.written).intersperse (some .comma) ++ some .rparen :: toks) := by
  induction list with
  | nil => exact h.rparen
  | cons literal list ih =>
    have hliteral := hfits literal List.mem_cons_self
    cases list with
    | nil =>
      rw [List.map_singleton, List.map_singleton, List.intercalate_singleton,
        List.intersperse_singleton]
      exact h.rparen.literal hliteral (ends_rparen rest)
    | cons next list =>
      have hmore := ih fun l hl => hfits l (List.mem_cons_of_mem _ hl)
      rw [List.map_cons, List.map_cons] at hmore ⊢
      rw [List.map_cons, List.map_cons, List.intersperse_cons_cons, List.intercalate_cons_cons,
        List.append_assoc, List.append_assoc]
      exact hmore.blank.comma.literal hliteral (ends_comma _)

/-- **The tokens of a rendered expression are those written.** -/
theorem Lexes.expr {e : Expr} (hfits : e.Fits) (hrest : Ends rest) (h : Lexes rest toks) :
    Lexes (render plain e ++ rest) (e.written ++ toks) := by
  induction e generalizing rest toks with
  | cmp column op literal =>
    have htext : render plain (.cmp column op literal) ++ rest =
        column.toList ++ ' ' :: (op.sql ++ ' ' :: (renderLiteral plain literal ++ rest)) := by
      simp [render, plain]
    rw [htext]
    exact (((h.literal hfits.2 hrest).op op).blank).ident hfits.1.word (ends_blank _)
  | isNull column negated =>
    have htext : render plain (.isNull column negated) ++ rest = column.toList ++ ' ' ::
        ("IS".toList ++ ' ' :: ((if negated then "NOT ".toList else []) ++
          ("NULL".toList ++ rest))) := by
      simp [render, plain]
    have htoks : (Expr.isNull column negated).written ++ toks = some (.ident column) ::
        some (.ident "IS") :: (keyword some negated "NOT" ++ some (.ident "NULL") :: toks) := by
      simp [Expr.written, Expr.spelled]
    have hnull := Lexes.reserved "NULL" (by decide) (by decide) hrest h
    have his := Lexes.reserved "IS" (by decide) (by decide) (ends_blank _)
      (hnull.negation negated).blank
    rw [htext, htoks]
    exact his.blank.ident hfits.word (ends_blank _)
  | isIn column list negated =>
    have htext : render plain (.isIn column list negated) ++ rest = column.toList ++ ' ' ::
        ((if negated then "NOT ".toList else []) ++ ("IN".toList ++ ' ' :: '(' ::
          (List.intercalate ", ".toList (list.map (renderLiteral plain)) ++ ')' :: rest))) := by
      simp [render, plain]
    have htoks : (Expr.isIn column list negated).written ++ toks = some (.ident column) ::
        (keyword some negated "NOT" ++ some (.ident "IN") :: some .lparen ::
          ((list.map Literal.written).intersperse (some .comma) ++ some .rparen :: toks)) := by
      simp [Expr.written, Expr.spelled]
    have hin := Lexes.reserved "IN" (by decide) (by decide) (ends_blank _)
      (h.list hfits.2.2).lparen.blank
    rw [htext, htoks]
    exact (hin.negation negated).blank.ident hfits.1.word (ends_blank _)
  | and a b iha ihb =>
    have htext : render plain (.and a b) ++ rest = '(' :: (render plain a ++ ' ' ::
        ("AND".toList ++ ' ' :: (render plain b ++ ')' :: rest))) := by
      simp [render]
    have htoks : (Expr.and a b).written ++ toks = some .lparen :: (a.written ++
        some (.ident "AND") :: (b.written ++ some .rparen :: toks)) := by
      simp [Expr.written, Expr.spelled]
    have hand := Lexes.reserved "AND" (by decide) (by decide) (ends_blank _)
      (ihb hfits.2 (ends_rparen _) h.rparen).blank
    rw [htext, htoks]
    exact (iha hfits.1 (ends_blank _) hand.blank).lparen
  | or a b iha ihb =>
    have htext : render plain (.or a b) ++ rest = '(' :: (render plain a ++ ' ' ::
        ("OR".toList ++ ' ' :: (render plain b ++ ')' :: rest))) := by
      simp [render]
    have htoks : (Expr.or a b).written ++ toks = some .lparen :: (a.written ++
        some (.ident "OR") :: (b.written ++ some .rparen :: toks)) := by
      simp [Expr.written, Expr.spelled]
    have hor := Lexes.reserved "OR" (by decide) (by decide) (ends_blank _)
      (ihb hfits.2 (ends_rparen _) h.rparen).blank
    rw [htext, htoks]
    exact (iha hfits.1 (ends_blank _) hor.blank).lparen
  | not a ih =>
    have htext : render plain (.not a) ++ rest = '(' :: ("NOT".toList ++ ' ' ::
        (render plain a ++ ')' :: rest)) := by
      simp [render]
    have htoks : (Expr.not a).written ++ toks = some .lparen :: some (.ident "NOT") ::
        (a.written ++ some .rparen :: toks) := by
      simp [Expr.written, Expr.spelled]
    have hnot := Lexes.reserved "NOT" (by decide) (by decide) (ends_blank _)
      (ih hfits (ends_rparen _) h.rparen).blank
    rw [htext, htoks]
    exact hnot.lparen

end Filter

end Pg2osync
