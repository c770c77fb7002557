import Pg2osync.FilterReading

/-!
# A predicate's text and its rendering

Rendering a parsed predicate and parsing the text gives the same connectives, columns, operators
and lists. The literals are the same as well, but for floats that need no point: these come back as
integers, and an integer is compared exactly where a float is compared as a double. The two agree
on every value exactly where no other integer is that double.
-/

namespace Pg2osync

namespace Filter

open Double Literal

/-! ## What is kept -/

/-- Two literals that no value is compared with differently. -/
def Literal.Same (a b : Literal) : Prop :=
  ∀ value, compare value a = compare value b

/-- Two expressions that are the same but for literals that no value tells apart. -/
inductive Expr.Same : Expr → Expr → Prop
  | cmp (column : String) (op : CmpOp) {a b : Literal} (h : a.Same b) :
    Expr.Same (.cmp column op a) (.cmp column op b)
  | isNull (column : String) (negated : Bool) :
    Expr.Same (.isNull column negated) (.isNull column negated)
  | isIn (column : String) (negated : Bool) {as bs : List Literal}
    (h : List.Forall₂ Literal.Same as bs) :
    Expr.Same (.isIn column as negated) (.isIn column bs negated)
  | and {a a' b b' : Expr} (ha : Expr.Same a a') (hb : Expr.Same b b') :
    Expr.Same (.and a b) (.and a' b')
  | or {a a' b b' : Expr} (ha : Expr.Same a a') (hb : Expr.Same b b') :
    Expr.Same (.or a b) (.or a' b')
  | not {a a' : Expr} (ha : Expr.Same a a') : Expr.Same (.not a) (.not a')

theorem evalIn_same {as bs : List Literal} (h : List.Forall₂ Literal.Same as bs)
    (value : Option Json) (negated unknown : Bool) :
    evalIn value negated as unknown = evalIn value negated bs unknown := by
  induction h generalizing unknown with
  | nil => rfl
  | cons hab _ ih =>
    simp only [evalIn, hab value, ih]

/-- Such expressions are as true of every document. -/
theorem Expr.Same.eval_eq {e e' : Expr} (h : e.Same e') (doc : List (String × Json)) :
    eval doc e = eval doc e' := by
  induction h with
  | cmp column op hab => rw [eval, eval, hab]
  | isNull column negated => rfl
  | isIn column negated hlist => rw [eval, eval, evalIn_same hlist]
  | and _ _ iha ihb => rw [eval, eval, iha, ihb]
  | or _ _ iha ihb => rw [eval, eval, iha, ihb]
  | not _ ih => rw [eval, eval, ih]

theorem isMatch_same {filter filter' : Filter} (h : filter.expr.Same filter'.expr) (doc : Json) :
    filter'.isMatch doc = filter.isMatch doc := by
  cases doc with
  | obj fields =>
    have heval := h.eval_eq fields
    simp only [isMatch, heval]
  | null => rfl
  | bool b => rfl
  | int n => rfl
  | float text => rfl
  | str s => rfl
  | arr items => rfl

/-! ## What is read again -/

/-- What a rendered expression is read as, if it is read at all. -/
def Expr.reread : Expr → Option Expr
  | .cmp column op literal => literal.reread.map (.cmp column op)
  | .isNull column negated => some (.isNull column negated)
  | .isIn column list negated =>
    (list.mapM Literal.reread).map fun list => .isIn column list negated
  | .and a b => a.reread.bind fun a => b.reread.map (.and a)
  | .or a b => a.reread.bind fun a => b.reread.map (.or a)
  | .not a => a.reread.map .not

theorem mapM_append (as bs : List (Option Tok)) : (as ++ bs).mapM id =
    (as.mapM id).bind fun a => (bs.mapM id).map (a ++ ·) := by
  induction as with
  | nil =>
    rw [List.nil_append, List.mapM_nil]
    cases bs.mapM id with
    | none => rfl
    | some b => rfl
  | cons a as ih =>
    cases a with
    | none => rw [List.cons_append, mapM_none, mapM_none, Option.bind_none]
    | some a =>
      rw [List.cons_append, mapM_some, mapM_some, ih]
      cases as.mapM id with
      | none => rfl
      | some as =>
        cases bs.mapM id with
        | none => rfl
        | some bs => rfl

theorem mapM_keyword (negated : Bool) (word : String) (toks : List (Option Tok)) :
    (keyword some negated word ++ toks).mapM id =
      (toks.mapM id).map (keyword (fun tok => tok) negated word ++ ·) := by
  cases negated with
  | true => exact mapM_some _ _
  | false =>
    rw [show keyword some false word = [] from rfl, List.nil_append,
      show keyword (fun tok => tok) false word = [] from rfl]
    cases toks.mapM id with
    | none => rfl
    | some toks => rfl

theorem mapM_intersperse (sep : Tok) (toks : List (Option Tok)) :
    (toks.intersperse (some sep)).mapM id =
      (toks.mapM id).map fun toks => toks.intersperse sep := by
  induction toks with
  | nil => rfl
  | cons tok toks ih =>
    cases toks with
    | nil =>
      rw [List.intersperse_singleton]
      cases tok with
      | none => rw [mapM_none, Option.map_none]
      | some tok =>
        rw [mapM_some]
        rfl
    | cons next toks =>
      rw [List.intersperse_cons_cons]
      cases tok with
      | none => rw [mapM_none, mapM_none, Option.map_none]
      | some tok =>
        rw [mapM_some, mapM_some, ih, mapM_some]
        cases next with
        | none => rw [mapM_none]; rfl
        | some next =>
          rw [mapM_some]
          cases toks.mapM id with
          | none => rfl
          | some toks => rfl

theorem mapM_reread (literal : Literal) (list : List Literal) :
    (literal :: list).mapM reread =
      literal.reread.bind fun literal => (list.mapM reread).map (literal :: ·) := by
  rw [List.mapM_cons]
  cases literal.reread with
  | none => rfl
  | some literal =>
    cases list.mapM reread with
    | none => rfl
    | some list => rfl

theorem mapM_written (list : List Literal) : (list.map written).mapM id =
    (list.mapM reread).map fun list => list.map tok := by
  induction list with
  | nil => rfl
  | cons literal list ih =>
    rw [List.map_cons, mapM_reread, written]
    cases literal.reread with
    | none =>
      rw [Option.map_none, mapM_none]
      rfl
    | some literal =>
      rw [Option.map_some, mapM_some, ih]
      cases list.mapM reread with
      | none => rfl
      | some list => rfl

/-- **The tokens written are those of what is read again.** -/
theorem mapM_expr (e : Expr) : e.written.mapM id = e.reread.map Expr.toks := by
  induction e with
  | cmp column op literal =>
    rw [Expr.written, Expr.spelled, mapM_some, mapM_some, written, Expr.reread]
    cases literal.reread with
    | none =>
      rw [Option.map_none, mapM_none]
      rfl
    | some literal =>
      rw [Option.map_some, mapM_some]
      rfl
  | isNull column negated =>
    rw [Expr.written, Expr.spelled, mapM_some, mapM_some, mapM_keyword]
    rfl
  | isIn column list negated =>
    rw [Expr.written, Expr.spelled, mapM_some, mapM_keyword, mapM_some, mapM_some, mapM_append,
      mapM_intersperse, mapM_written, Expr.reread]
    cases list.mapM reread with
    | none => rfl
    | some list => rfl
  | and a b iha ihb | or a b iha ihb =>
    rw [Expr.written] at iha ihb
    rw [Expr.written, Expr.spelled, mapM_some, mapM_append, iha, mapM_some, mapM_append, ihb,
      Expr.reread]
    cases a.reread with
    | none => rfl
    | some a =>
      cases b.reread with
      | none => rfl
      | some b => rfl
  | not a ih =>
    rw [Expr.written] at ih
    rw [Expr.written, Expr.spelled, mapM_some, mapM_some, mapM_append, ih, Expr.reread]
    cases a.reread with
    | none => rfl
    | some a => rfl

/-! ## Parsing a rendering -/

/-- What is read again has the same columns, and lists that are as long. -/
theorem parses_of_reread {e e' : Expr} (hfits : e.Fits) (h : e.reread = some e') : e'.Parses := by
  induction e generalizing e' with
  | cmp column op literal =>
    obtain ⟨literal', -, rfl⟩ := Option.map_eq_some_iff.mp h
    exact hfits.1.notReserved
  | isNull column negated =>
    cases h
    exact hfits.notReserved
  | isIn column list negated =>
    obtain ⟨list', hlist, rfl⟩ := Option.map_eq_some_iff.mp h
    refine ⟨hfits.1.notReserved, fun hnil => ?_⟩
    cases list with
    | nil => exact hfits.2.1 rfl
    | cons literal list =>
      rw [mapM_reread, hnil] at hlist
      obtain ⟨l, -, hl⟩ := Option.bind_eq_some_iff.mp hlist
      obtain ⟨ls, -, hls⟩ := Option.map_eq_some_iff.mp hl
      exact absurd hls (List.cons_ne_nil _ _)
  | and a b iha ihb | or a b iha ihb =>
    obtain ⟨a', ha, hb⟩ := Option.bind_eq_some_iff.mp h
    obtain ⟨b', hb', rfl⟩ := Option.map_eq_some_iff.mp hb
    exact ⟨iha hfits.1 ha, ihb hfits.2 hb'⟩
  | not a ih =>
    obtain ⟨a', ha, rfl⟩ := Option.map_eq_some_iff.mp h
    have hparses : a'.Parses := ih hfits ha
    exact hparses

theorem not_isWhitespace {c : Char} (h : 33 ≤ c.toNat ∧ c.toNat ≤ 122) :
    isWhitespace c = false := by
  have hn := h.1
  have hn' := h.2
  simp only [isWhitespace]
  generalize c.toNat = n at hn hn'
  simp
  omega

/-- A rendering is not blank. -/
theorem render_not_blank {e : Expr} (hfits : e.Fits) :
    (render plain e).all isWhitespace = false := by
  have hcons : ∀ {c : Char} {rest : List Char}, 33 ≤ c.toNat ∧ c.toNat ≤ 122 →
      (c :: rest).all isWhitespace = false := fun h => by
    rw [List.all_cons, not_isWhitespace h, Bool.false_and]
  have hcolumn : ∀ {column : String} {rest : List Char}, IsColumn column →
      (column.toList ++ rest).all isWhitespace = false := fun hc => by
    obtain ⟨c, more, hword, hfirst, -⟩ := hc.word
    have hletter := toNat_of_first hfirst
    rw [hword, List.cons_append]
    exact hcons (by omega)
  cases e with
  | cmp column op literal => exact hcolumn hfits.1
  | isNull column negated =>
    rw [render, List.append_assoc, List.append_assoc]
    exact hcolumn hfits
  | isIn column list negated =>
    rw [render, List.append_assoc, List.append_assoc, List.append_assoc]
    exact hcolumn hfits.1
  | and a b => exact hcons (by decide)
  | or a b => exact hcons (by decide)
  | not a => exact hcons (by decide)

/-- **A rendered expression is parsed as what is read again**, or refused where nothing is. -/
theorem parse_render {e : Expr} (hfits : e.Fits) :
    (parse (String.ofList (render plain e))).toOption.map (fun filter => filter.expr) =
      e.reread := by
  have hlexes : Lexes (render plain e) e.written := by
    have h := Lexes.expr hfits ends_nil lexes_nil
    rwa [List.append_nil, List.append_nil] at h
  have htokens := hlexes (render plain e).length 0 (Nat.le_refl _)
  rw [mapM_expr] at htokens
  unfold parse tokenize
  rw [String.toList_ofList, render_not_blank hfits, if_neg Bool.noConfusion]
  cases htokenize : tokenizeFrom (render plain e).length 0 (render plain e) with
  | error message =>
    rw [htokenize] at htokens
    cases he : e.reread with
    | none => rfl
    | some e' =>
      rw [he] at htokens
      cases htokens
  | ok tokens =>
    rw [htokenize] at htokens
    cases he : e.reread with
    | none =>
      rw [he] at htokens
      cases htokens
    | some e' =>
      rw [he] at htokens
      have htoks : tokens.map Token.tok = e'.toks := Option.some.inj htokens
      have hreads : Parser.Reads ⟨tokens, [], byteLength (render plain e)⟩ e'.toks := htoks
      obtain ⟨p', hparsed, hend⟩ := orExpr_reads (parses_of_reread hfits he) hreads
      have hnone : p'.peek = none := by
        rw [Parser.peek, List.map_eq_nil_iff.mp hend]
        rfl
      dsimp only [Except.bind] at hparsed ⊢
      rw [hparsed]
      dsimp only
      rw [hnone]
      rfl

/-! ## Numbers -/

/-- The number that a value is, if it is one. -/
def numberOf : Option Json → Option Num
  | some (.str s) => Num.fromStr s
  | some value => Num.fromJson value
  | none => none

theorem compare_float (value : Option Json) (f : Double) :
    compare value (.float f) = (numberOf value).bind fun a => a.cmp (.float f) := by
  cases value with
  | none => rfl
  | some value => cases value <;> rfl

theorem compare_int (value : Option Json) (n : ℤ) :
    compare value (.int n) = (numberOf value).bind fun a => a.cmp (.int n) := by
  cases value with
  | none => rfl
  | some value => cases value <;> rfl

theorem cmp_self (units : ℤ) : (finite units).cmp (.finite units) = some .eq :=
  congrArg some (Std.compare_self)

/-- An integer that is the only one to be a double is compared as the double is. -/
theorem same_of_only {m units : ℤ} (hm : ofInt m = .finite units)
    (honly : ∀ k, ofInt k = .finite units → k = m) :
    (float (.finite units)).Same (.int m) := by
  intro value
  rw [compare_float, compare_int]
  refine congrArg _ (funext fun a => ?_)
  cases a with
  | float x =>
    rw [Num.cmp, Num.cmp, Num.asDouble, Num.asDouble, Num.asDouble, hm]
    · exact fun _ _ h => Num.noConfusion h
    · exact fun _ _ h => Num.noConfusion h
  | int k =>
    have hfloat : (Num.int k).cmp (.float (.finite units)) =
        (ofInt k).cmp (.finite units) := rfl
    have hint : (Num.int k).cmp (.int m) = some (Ord.compare k m) := rfl
    rw [hfloat, hint]
    rcases lt_trichotomy k m with hlt | rfl | hgt
    · rw [compare_lt_iff_lt.mpr hlt, ← hm]
      rcases cmp_ofInt hlt with h | h
      · exact h
      · exact absurd (honly k (h.trans hm)) hlt.ne
    · rw [hm, cmp_self, Std.compare_self]
    · rw [compare_gt_iff_gt.mpr hgt, ← hm]
      rcases cmp_ofInt hgt with h | h
      · exact cmp_swap h
      · exact absurd (honly k (h.symm.trans hm)) hgt.ne'

/-- One that is not is told from the double by the next one that is it too. -/
theorem only_of_same {m units : ℤ} (hlong : IsLong m) (hm : ofInt m = .finite units)
    (h : (float (.finite units)).Same (.int m)) (k : ℤ)
    (hk : ofInt k = .finite units) : k = m := by
  -- an integer of 64 bits with or without a sign is compared as it is
  have hnext : ∀ j : ℤ, -2 ^ 63 ≤ j → j < 2 ^ 64 → ofInt j = .finite units → j = m := by
    intro j hlow hhigh hj
    have hsame := h (some (.int j))
    have hnumber : numberOf (some (.int j)) = some (.int j) :=
      congrArg some (if_pos ⟨hlow, hhigh⟩)
    have hfloat : (Num.int j).cmp (.float (.finite units)) =
        (ofInt j).cmp (.finite units) := rfl
    have hint : (Num.int j).cmp (.int m) = some (Ord.compare j m) := rfl
    rw [compare_float, compare_int, hnumber, Option.bind_some, Option.bind_some, hfloat, hint, hj,
      cmp_self] at hsame
    exact (compare_eq_iff_eq.mp (Option.some.inj hsame).symm)
  obtain ⟨hlow, hhigh⟩ := hlong
  have hboth : ofInt m = ofInt k := hm.trans hk.symm
  rcases lt_trichotomy k m with hlt | rfl | hgt
  · -- the one below, or above the least of 64 bits
    have hbelow : ofInt (m - 1) = .finite units :=
      (ofInt_between (show k ≤ m - 1 by omega) (by omega) hboth.symm).trans hk
    rcases lt_or_eq_of_le hlow with hin | hleast
    · have := hnext (m - 1) (by omega) (by omega) hbelow
      omega
    · have habove : ofInt (m + 1) = .finite units := by
        rw [← hm, ← hleast]
        decide +kernel
      have := hnext (m + 1) (by omega) (by omega) habove
      omega
  · rfl
  · have habove : ofInt (m + 1) = .finite units :=
      (ofInt_between (show m ≤ m + 1 by omega) (by omega) hboth).trans hm
    have := hnext (m + 1) (by omega) (by omega) habove
    omega

/-- A number of which two integers are not both the nearest double. -/
def Once (f : Double) : Prop :=
  ∀ m n, Double.ofInt m = f → Double.ofInt n = f → m = n

/-- **What a float is read as again is the same exactly where it is one integer's double at
most.** -/
theorem float_reread {f : Double} (hread : IsRead f) :
    (∃ b, (float f).reread = some b ∧ (float f).Same b) ↔ Once f := by
  obtain ⟨units, rfl, hdouble⟩ := hread
  have hback := ofDecimal_toDecimal hdouble
  have hscale := scale_toDecimal_iff hdouble
  generalize hd : toDecimal (.finite units) = d at hback hscale
  by_cases hzero : d.scale = 0
  · have hm : ofInt d.mantissa = .finite units := by
      rw [ofInt, Decimal.ofInt, ← hzero]
      exact hback
    have hreread : (float (.finite units)).reread =
        if IsLong d.mantissa then some (.int d.mantissa) else none := by
      rw [reread, hd]
      exact if_pos hzero
    rw [hreread]
    constructor
    · rintro ⟨b, hb, hsame⟩ m n hm' hn'
      by_cases hlong : IsLong d.mantissa
      · rw [if_pos hlong] at hb
        rw [← Option.some.inj hb] at hsame
        rw [only_of_same hlong hm hsame m hm', only_of_same hlong hm hsame n hn']
      · rw [if_neg hlong] at hb
        cases hb
    · intro honce
      have hlong : IsLong d.mantissa := by
        by_contra hlong
        have hlarge : 2 ^ 63 ≤ d.mantissa.natAbs := by
          by_contra hsmall
          refine hlong ⟨?_, ?_⟩
          · omega
          · omega
        obtain ⟨k, hne, hk⟩ := exists_ne_ofInt hm hlarge
        exact hne (honce _ _ hk hm)
      exact ⟨_, if_pos hlong, same_of_only hm fun k hk => honce _ _ hk hm⟩
  · have hreread : (float (.finite units)).reread = some (.float (.finite units)) := by
      rw [reread, hd]
      exact if_neg hzero
    refine ⟨fun _ m n hm _ => absurd (hscale.mpr ⟨m, hm⟩) hzero, fun _ => ⟨_, hreread, ?_⟩⟩
    intro value
    rfl

/-! ## Whole expressions -/

/-- The literals of an expression. -/
def Expr.literals : Expr → List Literal
  | .cmp _ _ literal => [literal]
  | .isNull _ _ => []
  | .isIn _ list _ => list
  | .and a b | .or a b => a.literals ++ b.literals
  | .not a => a.literals

/-- Literals none of which is a float that several integers are read as. -/
def AllOnce (literals : List Literal) : Prop :=
  ∀ f, .float f ∈ literals → Once f

theorem allOnce_nil : AllOnce [] := fun _ h => absurd h List.not_mem_nil

theorem allOnce_append {as bs : List Literal} : AllOnce (as ++ bs) ↔ AllOnce as ∧ AllOnce bs := by
  constructor
  · intro h
    exact ⟨fun f hf => h f (List.mem_append_left _ hf),
      fun f hf => h f (List.mem_append_right _ hf)⟩
  · rintro ⟨ha, hb⟩ f hf
    rcases List.mem_append.mp hf with hf | hf
    · exact ha f hf
    · exact hb f hf

theorem literal_reread {literal : Literal} (hfits : literal.Fits) :
    (∃ b, literal.reread = some b ∧ literal.Same b) ↔ AllOnce [literal] := by
  cases literal with
  | float f =>
    rw [float_reread hfits]
    constructor
    · intro honce g hg
      rw [float.inj (List.mem_singleton.mp hg)]
      exact honce
    · exact fun h => h f List.mem_cons_self
  | str | int | bool =>
    refine ⟨fun _ f hf => ?_, fun _ => ⟨_, rfl, fun _ => rfl⟩⟩
    cases List.mem_singleton.mp hf

theorem list_reread {list : List Literal} (hfits : ∀ literal ∈ list, literal.Fits) :
    (∃ bs, list.mapM reread = some bs ∧ List.Forall₂ Literal.Same list bs) ↔
      AllOnce list := by
  induction list with
  | nil => exact ⟨fun _ => allOnce_nil, fun _ => ⟨[], rfl, .nil⟩⟩
  | cons literal list ih =>
    have hliteral := literal_reread (hfits literal List.mem_cons_self)
    have hlist := ih fun l hl => hfits l (List.mem_cons_of_mem _ hl)
    have hcons : AllOnce ([literal] ++ list) ↔ AllOnce [literal] ∧ AllOnce list :=
      allOnce_append
    rw [List.singleton_append] at hcons
    rw [hcons, ← hliteral, ← hlist, mapM_reread]
    constructor
    · rintro ⟨bs, hbs, hsame⟩
      obtain ⟨b, hb, hmore⟩ := Option.bind_eq_some_iff.mp hbs
      obtain ⟨more, hm, rfl⟩ := Option.map_eq_some_iff.mp hmore
      cases hsame with
      | cons hhead htail => exact ⟨⟨b, hb, hhead⟩, ⟨more, hm, htail⟩⟩
    · rintro ⟨⟨b, hb, hhead⟩, ⟨more, hm, htail⟩⟩
      refine ⟨b :: more, ?_, .cons hhead htail⟩
      rw [hb, hm]
      rfl

/-- **An expression is the same when it is read again exactly where each float is one integer's
double at most.** -/
theorem expr_reread {e : Expr} (hfits : e.Fits) :
    (∃ e', e.reread = some e' ∧ e.Same e') ↔ AllOnce e.literals := by
  induction e with
  | cmp column op literal =>
    rw [Expr.literals, ← literal_reread hfits.2]
    constructor
    · rintro ⟨e', he, hsame⟩
      obtain ⟨b, hb, rfl⟩ := Option.map_eq_some_iff.mp he
      cases hsame with
      | cmp _ _ h => exact ⟨b, hb, h⟩
    · rintro ⟨b, hb, hsame⟩
      exact ⟨_, Option.map_eq_some_iff.mpr ⟨b, hb, rfl⟩, .cmp column op hsame⟩
  | isNull column negated =>
    exact ⟨fun _ => allOnce_nil, fun _ => ⟨_, rfl, .isNull column negated⟩⟩
  | isIn column list negated =>
    rw [Expr.literals, ← list_reread hfits.2.2]
    constructor
    · rintro ⟨e', he, hsame⟩
      obtain ⟨bs, hbs, rfl⟩ := Option.map_eq_some_iff.mp he
      cases hsame with
      | isIn _ _ h => exact ⟨bs, hbs, h⟩
    · rintro ⟨bs, hbs, hsame⟩
      exact ⟨_, Option.map_eq_some_iff.mpr ⟨bs, hbs, rfl⟩, .isIn column negated hsame⟩
  | and a b iha ihb | or a b iha ihb =>
    rw [Expr.literals, allOnce_append, ← iha hfits.1, ← ihb hfits.2]
    constructor
    · rintro ⟨e', he, hsame⟩
      obtain ⟨a', ha, hrest⟩ := Option.bind_eq_some_iff.mp he
      obtain ⟨b', hb, rfl⟩ := Option.map_eq_some_iff.mp hrest
      cases hsame
      exact ⟨⟨a', ha, ‹_›⟩, ⟨b', hb, ‹_›⟩⟩
    · rintro ⟨⟨a', ha, hsa⟩, ⟨b', hb, hsb⟩⟩
      refine ⟨_, Option.bind_eq_some_iff.mpr ⟨a', ha, Option.map_eq_some_iff.mpr ⟨b', hb, rfl⟩⟩, ?_⟩
      first | exact .and hsa hsb | exact .or hsa hsb
  | not a ih =>
    rw [Expr.literals, ← ih hfits]
    constructor
    · rintro ⟨e', he, hsame⟩
      obtain ⟨a', ha, rfl⟩ := Option.map_eq_some_iff.mp he
      cases hsame with
      | not hsa => exact ⟨a', ha, hsa⟩
    · rintro ⟨a', ha, hsa⟩
      exact ⟨_, Option.map_eq_some_iff.mpr ⟨a', ha, rfl⟩, .not hsa⟩

/-! ## The round trip -/

/-- **The rendering of a parsed predicate is parsed as the same predicate exactly where no float in
it is the nearest double of two integers**: the same connectives over the same columns, operators
and lists, literals that no value is compared with differently, and so the same documents. -/
theorem rendering_read_back_iff {src : String} {filter : Filter} (h : parse src = .ok filter) :
    (∃ filter', parse (String.ofList (filter.toSql plain)) = .ok filter' ∧
      filter.expr.Same filter'.expr ∧ ∀ doc, filter'.isMatch doc = filter.isMatch doc) ↔
    ∀ f, .float f ∈ filter.expr.literals →
      ∀ m n, Double.ofInt m = f → Double.ofInt n = f → m = n := by
  have hfits := fits_of_parse h
  have hparse := parse_render hfits
  refine Iff.trans ?_ (expr_reread hfits)
  rw [← hparse]
  constructor
  · rintro ⟨filter', hfilter, hsame, -⟩
    refine ⟨filter'.expr, ?_, hsame⟩
    have hrender : parse (String.ofList (render plain filter.expr)) = .ok filter' := hfilter
    rw [hrender]
    rfl
  · rintro ⟨e', he, hsame⟩
    obtain ⟨filter', hfilter, rfl⟩ := Option.map_eq_some_iff.mp he
    have hok : parse (String.ofList (filter.toSql plain)) = .ok filter' := by
      rw [toSql]
      cases hparsed : parse (String.ofList (render plain filter.expr)) with
      | error e =>
        rw [hparsed] at hfilter
        cases hfilter
      | ok found =>
        rw [hparsed] at hfilter
        rw [Option.some.inj hfilter]
    exact ⟨filter', hok, hsame, isMatch_same hsame⟩

deriving instance DecidableEq for Filter

/-- The predicate `NOT a < 1.5`. -/
def notBelowHalf : Filter :=
  ⟨.not (.cmp "a" .lt (.float (Double.ofDecimal ⟨15, 1⟩))), ["a"]⟩

theorem rendering_read_back_half :
    (∃ filter', parse (String.ofList (notBelowHalf.toSql plain)) = .ok filter' ∧
      notBelowHalf.expr.Same filter'.expr ∧
      ∀ doc, filter'.isMatch doc = notBelowHalf.isMatch doc) ↔
    ∀ f, .float f ∈ notBelowHalf.expr.literals →
      ∀ m n, Double.ofInt m = f → Double.ofInt n = f → m = n :=
  @rendering_read_back_iff "not a < 1.50" notBelowHalf (by decide +kernel)

/-- A float that needs no point comes back as an integer, which is equal to itself alone, or is
refused for want of bits. -/
theorem rendering_not_read_back :
    (∃ filter filter', parse "a = 9007199254740992.0" = .ok filter ∧
      parse (String.ofList (filter.toSql plain)) = .ok filter' ∧
      filter.isMatch (.obj [("a", .int 9007199254740993)]) = true ∧
      filter'.isMatch (.obj [("a", .int 9007199254740993)]) = false) ∧
    ∃ filter, parse "a = 10000000000000000000.0" = .ok filter ∧
      ∀ filter', parse (String.ofList (filter.toSql plain)) ≠ .ok filter' := by
  refine ⟨⟨⟨.cmp "a" .eq (.float (Double.ofInt 9007199254740992)), ["a"]⟩,
    ⟨.cmp "a" .eq (.int 9007199254740992), ["a"]⟩, ?_⟩,
    ⟨.cmp "a" .eq (.float (Double.ofInt 10000000000000000000)), ["a"]⟩, ?_, ?_⟩
  · decide +kernel
  · decide +kernel
  · intro filter' h
    have hnone : (parse (String.ofList (toSql ⟨.cmp "a" .eq (.float (Double.ofInt
        10000000000000000000)), ["a"]⟩ plain))).toOption = none := by
      decide +kernel
    rw [h] at hnone
    cases hnone

end Filter

end Pg2osync
