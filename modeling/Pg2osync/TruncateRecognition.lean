import Pg2osync.TruncateReading

/-!
# Which TRUNCATE statements are recognised

A statement whose comments, blanks and quotes are where the code expects them is recognised, and
another one is if what the code takes for the names is by chance what they are. No statement that
begins with another word is taken for one.
-/

namespace Pg2osync

namespace TruncateStatement

variable (a : Alphabet) (s : TruncateStatement)

/-! ## Behind the first part of the name -/

theorem tail_head : ∀ c ∈ s.tail.head?, c.toNat < 128 ∧ isNameChar c = false ∧ c ≠ '`' :=
  fun c hc => ⟨(s.tail_ends c hc).1, (s.tail_ends c hc).2.1, (s.tail_ends c hc).2.2.2⟩

theorem more_unqualified (h : s.second = none) : s.more = s.tail := by
  rw [more, h]
  rfl

theorem more_qualified {before behind : Gap} {i : Identifier}
    (h : s.second = some (before, behind, i)) :
    s.more = before.text ++ '.' :: (behind.text ++ (i.text ++ s.tail)) := by
  rw [more, h]
  simp

/-- A name does not go on with what is behind it. -/
theorem more_head : ∀ c ∈ s.more.head?, c.toNat < 128 ∧ isNameChar c = false ∧ c ≠ '`' := by
  intro c hc
  cases hsecond : s.second with
  | none =>
    rw [s.more_unqualified hsecond] at hc
    exact s.tail_head c hc
  | some part =>
    obtain ⟨before, behind, i⟩ := part
    rw [s.more_qualified hsecond] at hc
    by_cases hbefore : before = []
    · subst hbefore
      cases hc
      decide
    · cases hblank : before.beginsBlank with
      | true =>
        obtain ⟨p, rest, rfl⟩ := List.exists_cons_of_ne_nil hbefore
        obtain ⟨d, hd, -, hascii, hname⟩ := GapPiece.text_blank hblank
        have htext : Gap.text (p :: rest) = d :: Gap.text rest := by
          simp [Gap.text, hd]
        rw [htext] at hc
        cases hc
        refine ⟨hascii, hname, ?_⟩
        rintro rfl
        cases hd' : p with
        | blank e he =>
          rw [hd'] at hd
          cases hd
          exact absurd he (by decide)
        | block _ _ _ _ | hash _ _ | dashes _ _ _ =>
          rw [hd'] at hd
          cases hd
      | false =>
        obtain ⟨d, rest, hsign, hd⟩ := Gap.text_sign hblank hbefore
          ('.' :: (behind.text ++ (i.text ++ s.tail)))
        rw [hd] at hc
        cases hc
        obtain ⟨-, -, hascii, hname, -, hquote⟩ := sign_spec hsign
        exact ⟨hascii, hname, hquote⟩

/-- A point is right behind the first part only if there is a second one and nothing between. -/
theorem more_point (h : (s.more.takeWhile isInk).head? = some '.') :
    ∃ behind i, s.second = some ([], behind, i) := by
  cases hsecond : s.second with
  | none =>
    rw [s.more_unqualified hsecond] at h
    cases htail : s.tail with
    | nil =>
      rw [htail] at h
      cases h
    | cons c rest =>
      rw [htail, List.takeWhile_cons] at h
      split at h
      · exact absurd (Option.some.inj h) (s.tail_ends c (by rw [htail]; rfl)).2.2.1
      · cases h
  | some part =>
    obtain ⟨before, behind, i⟩ := part
    rw [s.more_qualified hsecond] at h
    by_cases hbefore : before = []
    · exact ⟨behind, i, by rw [hbefore]⟩
    · cases hblank : before.beginsBlank with
      | true =>
        rw [(Gap.takeWhile_beginsBlank hblank _).1] at h
        cases h
      | false =>
        obtain ⟨d, rest, hsign, hd⟩ := Gap.text_sign hblank hbefore
          ('.' :: (behind.text ++ (i.text ++ s.tail)))
        obtain ⟨hink, -, -, -, hpoint, -⟩ := sign_spec hsign
        rw [hd, List.takeWhile_cons_of_pos hink] at h
        exact absurd (Option.some.inj h) hpoint

/-! ## From where the name is read -/

theorem readFrom_of_ink (h : s.first.quoted = true ∨ ∀ c ∈ s.first.name, isInk c = true) :
    s.readFrom = s.first.name := by
  rw [readFrom, if_neg]
  intro hcond
  simp only [Bool.and_eq_true, Bool.not_eq_true'] at hcond
  obtain ⟨⟨-, hquoted⟩, hkeyword⟩ := hcond
  obtain h | h := h
  · rw [hquoted] at h
    cases h
  · rw [List.takeWhile_eq_self_iff.mpr h, s.first_word hquoted] at hkeyword
    cases hkeyword

theorem readFrom_suffix : s.readFrom <:+ s.first.name := by
  rw [readFrom]
  split
  · exact (List.dropWhile_suffix _).trans (List.dropWhile_suffix _)
  · exact List.suffix_rfl

/-- The whole name is read if all of it is. -/
theorem first_plain_iff (hink : ∀ c ∈ s.firstRead a, isInk c = true) :
    s.first.Plain a ↔ s.firstRead a = s.first.name := by
  constructor
  · intro h
    rw [firstRead, s.readFrom_of_ink (.inr fun c hc => (h c hc).2)]
    exact List.takeWhile_eq_self_iff.mpr fun c hc => (h c hc).1
  · intro h
    have hle := s.readFrom_suffix.length_le
    have hread : (s.firstRead a).length ≤ s.readFrom.length := (List.takeWhile_sublist _).length_le
    rw [h] at hread
    have hfrom : s.readFrom = s.first.name := s.readFrom_suffix.eq_of_length (by omega)
    rw [firstRead, hfrom] at h
    intro c hc
    refine ⟨List.takeWhile_eq_self_iff.mp h c hc, hink c ?_⟩
    rw [firstRead, hfrom, h]
    exact hc

/-- Nothing is left of a name that is read to its end. -/
theorem firstLeft_of_plain (h : s.first.Plain a) : s.firstLeft a = [] := by
  rw [firstLeft, s.readFrom_of_ink (.inr fun c hc => (h c hc).2)]
  exact List.dropWhile_eq_nil_iff.mpr fun c hc => (h c hc).1

/-! ## The names -/

/-- The names are those of a plain statement. -/
def NamesPlain : Prop :=
  s.first.Plain a ∧ match s.second with
    | none => trim s.defaultDb.toList = s.defaultDb.toList
    | some (before, behind, i) => before = [] ∧ behind = [] ∧ i.Plain a

/-- The names are what the code takes for them by chance. -/
def NamesHit : Prop :=
  ∃ part ∈ s.second, trim s.defaultDb.toList = s.first.name ∧ s.firstRead a = part.2.2.name ∧
    (∀ c ∈ s.firstRead a, isInk c = true) ∧ (s.firstLeft a ≠ [] ∨ part.1 ≠ [])

theorem some_eq_names_iff {schema table : List Char} :
    some (String.ofList schema, String.ofList table) = some s.names ↔
      schema = s.names.1.toList ∧ table = s.names.2.toList := by
  have hpair : s.names = (String.ofList s.names.1.toList, String.ofList s.names.2.toList) := by
    rw [String.ofList_toList, String.ofList_toList]
  rw [hpair, Option.some.injEq, Prod.mk.injEq, String.ofList_inj, String.ofList_inj]
  simp only [String.toList_ofList]

/-- **The names that are read from where the name begins** are right exactly if they are plain or
hit by chance. -/
theorem splitQualifiedName_iff :
    splitQualifiedName a.isAlphanumeric
        ((Identifier.written s.first.quoted s.readFrom ++ s.more).takeWhile isInk) s.defaultDb =
      some s.names ↔ s.NamesPlain a ∨ s.NamesHit a := by
  have hchars : s.first.quoted = false → ∀ c ∈ s.readFrom, isNameChar c = true :=
    fun h c hc => s.first.bare h c (s.readFrom_suffix.subset hc)
  obtain ⟨z, hnil, hcons, hread⟩ := readIdentifier_written a hchars s.more_head
  have hreadFirst : s.readFrom.takeWhile (a.reads s.first.quoted) = s.firstRead a := rfl
  have hleftFirst : s.readFrom.dropWhile (a.reads s.first.quoted) = s.firstLeft a := rfl
  rw [hreadFirst] at hread
  rw [hleftFirst] at hnil hcons
  by_cases hcond : (s.first.quoted = true ∨ s.firstRead a ≠ []) ∧
      ∀ c ∈ s.firstRead a, isInk c = true
  · rw [if_pos hcond] at hread
    have hplain := s.first_plain_iff a hcond.2
    by_cases hpoint : s.firstLeft a = [] ∧ ∃ behind i, s.second = some ([], behind, i)
    · -- the point is right behind it: the second part is read
      obtain ⟨hleft, behind, i, hsecond⟩ := hpoint
      have hmore := s.more_qualified hsecond
      have hz : z = '.' :: (behind.text ++ (i.text ++ s.tail)).takeWhile isInk := by
        rw [hnil hleft, hmore]
        exact List.takeWhile_cons_of_pos (by decide)
      rw [hz] at hread
      have hsecondRead := readIdentifier_second a behind i s.tail_head
      have hnames : s.names = (String.ofList s.first.name, String.ofList i.name) := by
        rw [names, hsecond]
      have hhit : ¬s.NamesHit a := by
        rintro ⟨part, hpart, -, -, -, h⟩
        rw [hsecond] at hpart
        cases hpart
        exact h.elim (fun h => h hleft) fun h => h rfl
      rw [splitQualifiedName_point a _ hread, or_iff_left hhit, NamesPlain, hsecond, hplain]
      dsimp only
      rw [and_iff_right rfl, ← hsecondRead]
      constructor
      · intro h
        obtain ⟨⟨table, rest⟩, htable, h⟩ := Option.bind_eq_some_iff.mp h
        split at h
        · cases h
        · obtain ⟨hschema, htableName⟩ := s.some_eq_names_iff.mp h
          rw [hnames, String.toList_ofList] at hschema htableName
          exact ⟨hschema, rest, htableName ▸ htable⟩
      · rintro ⟨hschema, rest, htable⟩
        rw [htable, Option.bind_some, if_neg (not_or.mpr ⟨hschema ▸ s.first.ne, i.ne⟩), hschema,
          hnames]
    · -- no point is there: it is taken for the table
      have hzpoint : z.head? ≠ some '.' := by
        intro h
        by_cases hleft : s.firstLeft a = []
        · rw [hnil hleft] at h
          exact hpoint ⟨hleft, s.more_point h⟩
        · exact hcons hleft h
      rw [splitQualifiedName_unqualified a _ hread hzpoint]
      cases hsecond : s.second with
      | none =>
        have hnames : s.names = (s.defaultDb, String.ofList s.first.name) := by
          rw [names, hsecond]
        have hhit : ¬s.NamesHit a := by
          rintro ⟨part, hpart, -⟩
          rw [hsecond] at hpart
          cases hpart
        have hdefault : s.defaultDb.toList ≠ [] := fun h =>
          s.default_ne hsecond (String.toList_inj.mp h)
        rw [or_iff_left hhit, NamesPlain, hsecond, hplain]
        dsimp only
        constructor
        · intro h
          split at h
          · cases h
          · obtain ⟨hschema, htable⟩ := s.some_eq_names_iff.mp h
            rw [hnames] at hschema htable
            rw [String.toList_ofList] at htable
            exact ⟨htable, hschema⟩
        · rintro ⟨htable, hschema⟩
          have hne : trim s.defaultDb.toList ≠ [] := fun h => hdefault (hschema.symm.trans h)
          rw [if_neg (not_or.mpr ⟨hne, htable ▸ s.first.ne⟩), hschema, htable, hnames,
            String.ofList_toList]
      | some part =>
        obtain ⟨before, behind, i⟩ := part
        have hnames : s.names = (String.ofList s.first.name, String.ofList i.name) := by
          rw [names, hsecond]
        have hnotPlain : ¬s.NamesPlain a := by
          rintro ⟨hfirst, h⟩
          rw [hsecond] at h
          obtain ⟨rfl, -⟩ := h
          exact hpoint ⟨s.firstLeft_of_plain a hfirst, behind, i, hsecond⟩
        rw [or_iff_right hnotPlain, NamesHit, hsecond]
        constructor
        · intro h
          split at h
          · cases h
          · obtain ⟨hschema, htable⟩ := s.some_eq_names_iff.mp h
            rw [hnames, String.toList_ofList] at hschema htable
            refine ⟨_, rfl, hschema, htable, hcond.2, ?_⟩
            by_contra hneither
            obtain ⟨hleft, hbefore⟩ := not_or.mp hneither
            rw [not_not] at hleft hbefore
            obtain rfl : before = [] := hbefore
            exact hpoint ⟨hleft, behind, i, hsecond⟩
        · rintro ⟨_, ⟨⟩, hschema, htable, -, -⟩
          rw [if_neg (not_or.mpr ⟨hschema ▸ s.first.ne, htable ▸ i.ne⟩), hschema, htable, hnames]
  · rw [if_neg hcond] at hread
    have hnone : splitQualifiedName a.isAlphanumeric
        ((Identifier.written s.first.quoted s.readFrom ++ s.more).takeWhile isInk) s.defaultDb =
          none := by
      rw [splitQualifiedName, hread]
    rw [hnone]
    refine iff_of_false (fun h => by cases h) ?_
    rintro (⟨hfirst, -⟩ | ⟨part, -, -, hread, hink, -⟩)
    · have hself : s.firstRead a = s.first.name := by
        rw [firstRead, s.readFrom_of_ink (.inr fun c hc => (hfirst c hc).2)]
        exact List.takeWhile_eq_self_iff.mpr fun c hc => (hfirst c hc).1
      exact hcond ⟨.inr (hself ▸ s.first.ne), fun c hc => (hfirst c (hself ▸ hc)).2⟩
    · exact hcond ⟨.inr (hread ▸ part.2.2.ne), hink⟩

/-! ## The word that the name is read from -/

theorem isInk_firstWord (text : List Char) : ∀ c ∈ firstWord text, isInk c = true :=
  fun _ hc => List.mem_takeWhile_imp hc

/-- What is trimmed begins with no white space. -/
theorem isInk_of_trim {text : List Char} {c : Char} {rest : List Char} (h : trim text = c :: rest) :
    isInk c = true := by
  have hpre : trim text <+: text.dropWhile isWhitespace := by
    rw [trim, ← List.reverse_suffix, List.reverse_reverse]
    exact List.dropWhile_suffix _
  rw [h] at hpre
  cases hdrop : text.dropWhile isWhitespace with
  | nil =>
    rw [hdrop] at hpre
    cases List.prefix_nil.mp hpre
  | cons d more =>
    have hd := not_of_dropWhile hdrop
    rw [hdrop] at hpre
    obtain rfl : c = d := (List.cons_prefix_cons.mp hpre).1
    rw [isInk, hd]
    rfl

/-- A name that begins with white space is read from no word. -/
theorem ne_names_of_blank {c : Char} {rest word : List Char} (hname : s.first.name = c :: rest)
    (hc : isInk c = false) (hword : ∀ d ∈ word, isInk d = true) :
    splitQualifiedName a.isAlphanumeric word s.defaultDb ≠ some s.names := by
  intro h
  obtain ⟨htable, hschema⟩ := splitQualifiedName_ink a hword h
  have hnot : ¬∀ d ∈ s.first.name, isInk d = true := fun hall => by
    rw [hall c (hname ▸ List.mem_cons_self)] at hc
    cases hc
  cases hsecond : s.second with
  | none =>
    rw [names, hsecond, String.toList_ofList] at htable
    exact hnot htable
  | some part =>
    obtain ⟨before, behind, i⟩ := part
    rw [names, hsecond, String.toList_ofList] at hschema
    obtain htrim | hall := hschema
    · rw [isInk_of_trim (htrim.symm.trans hname)] at hc
      cases hc
    · exact hnot hall

/-- Where nothing is read of the name, the names are neither plain nor hit. -/
theorem not_names_of_firstRead (hread : s.firstRead a = []) : ¬(s.NamesPlain a ∨ s.NamesHit a) := by
  rintro (⟨hfirst, -⟩ | ⟨part, -, -, h, -, -⟩)
  · have hself : s.firstRead a = s.first.name := by
      rw [firstRead, s.readFrom_of_ink (.inr fun c hc => (hfirst c hc).2)]
      exact List.takeWhile_eq_self_iff.mpr fun c hc => (hfirst c hc).1
    exact s.first.ne (hself.symm.trans hread)
  · exact part.2.2.ne (h.symm.trans hread)

/-- A bare name is read in characters that are no white space. -/
theorem firstRead_of_blank (hbare : s.first.quoted = false)
    (h : ∀ c ∈ s.readFrom.head?, isInk c = false) : s.firstRead a = [] := by
  rw [firstRead, hbare]
  cases hfrom : s.readFrom with
  | nil => rfl
  | cons c rest =>
    have hc := h c (by rw [hfrom]; rfl)
    refine List.takeWhile_cons_of_neg fun hread => ?_
    rw [a.isInk_of_isBare hread] at hc
    cases hc

/-- **The names that are read from the first word**, where the name begins. -/
theorem splitQualifiedName_firstWord_iff :
    splitQualifiedName a.isAlphanumeric
        (firstWord (Identifier.written s.first.quoted s.readFrom ++ s.more)) s.defaultDb =
      some s.names ↔ s.NamesPlain a ∨ s.NamesHit a := by
  have hbegins : ∀ {c rest}, isInk c = true →
      Identifier.written s.first.quoted s.readFrom ++ s.more = c :: rest →
      firstWord (Identifier.written s.first.quoted s.readFrom ++ s.more) =
        (Identifier.written s.first.quoted s.readFrom ++ s.more).takeWhile isInk := by
    intro c rest hc h
    rw [h, firstWord_cons hc, List.takeWhile_cons_of_pos hc]
  cases hquoted : s.first.quoted with
  | true =>
    rw [← hquoted, hbegins (c := '`') (by decide) (by rw [hquoted]; rfl)]
    exact s.splitQualifiedName_iff a
  | false =>
    rw [← hquoted]
    cases hfrom : s.readFrom with
    | nil =>
      refine iff_of_false ?_ (s.not_names_of_firstRead a
        (s.firstRead_of_blank a hquoted fun c hc => by rw [hfrom] at hc; cases hc))
      have hnot : ¬∀ d ∈ s.first.name, isInk d = true := fun hall =>
        s.first.ne ((s.readFrom_of_ink (.inr hall)).symm.trans hfrom)
      have hwritten : Identifier.written s.first.quoted [] ++ s.more = s.more := by
        rw [hquoted]
        rfl
      rw [hwritten]
      intro h
      cases hsecond : s.second with
      | none =>
        have htable := (splitQualifiedName_ink a (isInk_firstWord _) h).1
        rw [names, hsecond, String.toList_ofList] at htable
        exact hnot htable
      | some part =>
        obtain ⟨before, behind, i⟩ := part
        rw [s.more_qualified hsecond] at h
        cases hblank : before.isBlank with
        | true =>
          have hpoint : a.isBare '.' = false := a.isBare_of_ascii (by decide) (by decide)
          rw [(firstWord_blank (Gap.isWhitespace_text hblank) _).1, firstWord_cons (by decide),
            splitQualifiedName_cons a (by decide) hpoint] at h
          cases h
        | false =>
          obtain ⟨c, rest, hsign, hword⟩ := Gap.firstWord_comment hblank
            ('.' :: (behind.text ++ (i.text ++ s.tail)))
          rw [hword, splitQualifiedName_sign a hsign] at h
          cases h
    | cons c rest =>
      rw [← hfrom]
      cases hc : isInk c with
      | true =>
        have htext : Identifier.written s.first.quoted s.readFrom ++ s.more = c :: (rest ++ s.more) := by
          rw [hquoted, hfrom]
          rfl
        rw [hbegins hc htext]
        exact s.splitQualifiedName_iff a
      | false =>
        refine iff_of_false ?_ (s.not_names_of_firstRead a
          (s.firstRead_of_blank a hquoted fun d hd => by rw [hfrom] at hd; cases hd; exact hc))
        have hname : s.first.name = c :: rest := by
          rw [readFrom] at hfrom
          split at hfrom
          · have hblank := not_of_dropWhile hfrom
            rw [isInk, hblank] at hc
            cases hc
          · exact hfrom
        exact s.ne_names_of_blank a hname hc (isInk_firstWord _)

theorem nameText_quoted (h : s.first.quoted = true) : ∃ rest, s.nameText = '`' :: rest := by
  rw [nameText, Identifier.text, Identifier.written, h, if_pos rfl]
  exact ⟨_, rfl⟩

/-- Behind the word TABLE the name is read from where it begins. -/
theorem nameText_of_table (h : s.table.isSome = true) :
    s.nameText = Identifier.written s.first.quoted s.readFrom ++ s.more := by
  have hnone : s.table.isNone = false := by
    cases htable : s.table with
    | none =>
      rw [htable] at h
      cases h
    | some word => rfl
  rw [nameText, readFrom, hnone]
  rfl

/-- **What is read where the word TABLE is not written.** -/
theorem nameAfter_nameText_iff (htable : s.table = none) :
    nameAfter a s.nameText s.defaultDb = some s.names ↔ s.NamesPlain a ∨ s.NamesHit a := by
  have hword := s.splitQualifiedName_firstWord_iff a
  have hletters : ∀ c ∈ "TABLE".toList.map Char.toLower, c.isAlpha = true :=
    List.all_eq_true.mp (by decide)
  cases hquoted : s.first.quoted with
  | true =>
    have htext : Identifier.written s.first.quoted s.readFrom ++ s.more = s.nameText := by
      rw [s.readFrom_of_ink (.inl hquoted)]
      rfl
    rw [htext] at hword
    have hkeyword : isKeywordOf "TABLE" (firstWord s.nameText) = false := by
      rw [nameText, Identifier.text, Identifier.written, hquoted, if_pos rfl, List.cons_append,
        firstWord_cons (by decide)]
      exact isKeywordOf_cons_of_not_isAlpha hletters (by decide) _
    rw [nameAfter, hkeyword, if_neg Bool.false_ne_true]
    exact hword
  | false =>
    have hname : s.nameText = s.first.name ++ s.more := by
      rw [nameText, Identifier.text, Identifier.written, hquoted]
      rfl
    have hwritten : Identifier.written s.first.quoted s.readFrom = s.readFrom := by
      rw [hquoted]
      rfl
    have hsplit := List.takeWhile_append_dropWhile (p := isInk) (l := s.first.name)
    have hink : ∀ c ∈ s.first.name.takeWhile isInk, isInk c = true := fun _ hc =>
      List.mem_takeWhile_imp hc
    cases hkeyword : isKeywordOf "TABLE" (s.first.name.takeWhile isInk) with
    | true =>
      -- the name begins with the word and white space, and is read from the word behind it
      have hfrom : s.readFrom = (s.first.name.dropWhile isInk).dropWhile isWhitespace := by
        rw [readFrom, htable, hquoted, hkeyword]
        rfl
      have hne : s.first.name.takeWhile isInk ≠ [] := by
        intro h
        rw [h] at hkeyword
        cases hkeyword
      obtain ⟨c, rest, hleft⟩ : ∃ c rest, s.first.name.dropWhile isInk = c :: rest := by
        cases hdrop : s.first.name.dropWhile isInk with
        | nil =>
          rw [hdrop, List.append_nil] at hsplit
          rw [hsplit, s.first_word hquoted] at hkeyword
          cases hkeyword
        | cons c rest => exact ⟨c, rest, rfl⟩
      have hc : ¬isInk c = true := by
        rw [not_of_dropWhile hleft]
        exact Bool.false_ne_true
      obtain ⟨hfirst, hbehind⟩ := firstWord_ink hne hink (s.first.name.dropWhile isInk ++ s.more)
      rw [← List.append_assoc, hsplit, ← hname] at hfirst hbehind
      rw [hleft, List.cons_append] at hfirst hbehind
      rw [List.takeWhile_cons_of_neg hc, List.append_nil] at hfirst
      rw [List.dropWhile_cons_of_neg hc, ← List.cons_append, ← hleft] at hbehind
      have hblank : firstWord (s.first.name.dropWhile isInk ++ s.more) =
          firstWord (s.readFrom ++ s.more) := by
        conv_lhs => rw [← List.takeWhile_append_dropWhile (p := isWhitespace)
          (l := s.first.name.dropWhile isInk)]
        rw [List.append_assoc, hfrom]
        exact (firstWord_blank (fun d hd => List.mem_takeWhile_imp hd) _).1
      rw [nameAfter, hfirst, hkeyword, if_pos rfl, hbehind, hblank]
      rw [hwritten] at hword
      exact hword
    | false =>
      have hfrom : s.readFrom = s.first.name := by
        rw [readFrom, htable, hquoted, hkeyword]
        rfl
      rw [hwritten, hfrom, ← hname] at hword
      obtain ⟨c, rest, hcons⟩ := List.exists_cons_of_ne_nil s.first.ne
      cases hc : isInk c with
      | false =>
        refine iff_of_false ?_ (s.not_names_of_firstRead a (s.firstRead_of_blank a hquoted ?_))
        · rw [nameAfter]
          split
          · exact s.ne_names_of_blank a hcons hc (isInk_firstWord _)
          · exact s.ne_names_of_blank a hcons hc (isInk_firstWord _)
        · intro d hd
          rw [hfrom, hcons] at hd
          cases hd
          exact hc
      | true =>
        have hnot : isKeywordOf "TABLE" (firstWord s.nameText) = false := by
          have htake : firstWord s.nameText = (s.first.name ++ s.more).takeWhile isInk := by
            rw [hname, hcons, List.cons_append, firstWord_cons hc, List.takeWhile_cons_of_pos hc]
          rw [htake, List.takeWhile_append]
          split
          · next hall =>
            have hself := (List.takeWhile_prefix isInk).eq_of_length hall
            rw [hself] at hkeyword
            by_contra htrue
            have hletter := (isKeywordOf_table (Bool.eq_true_of_not_eq_false htrue)).1
            cases hmore : s.more.takeWhile isInk with
            | nil =>
              rw [hmore, List.append_nil, hkeyword] at htrue
              exact htrue rfl
            | cons d more =>
              have hd : d ∈ s.more.head? := by
                cases hs : s.more with
                | nil =>
                  rw [hs] at hmore
                  cases hmore
                | cons e es =>
                  rw [hs, List.takeWhile_cons] at hmore
                  split at hmore
                  · cases hmore
                    rfl
                  · cases hmore
              have hnameChar := (s.more_head d hd).2.1
              have halpha := hletter d (List.mem_append_right _ (hmore ▸ List.mem_cons_self))
              rw [(isInk_of_isAlpha halpha).2] at hnameChar
              cases hnameChar
          · exact hkeyword
        rw [nameAfter, hnot, if_neg Bool.false_ne_true]
        exact hword

/-! ## The statement -/

/-- What is behind the first word and its gap. -/
def behind : List Char :=
  match s.table with
  | none => s.nameText
  | some (word, gap) => word ++ (gap.text ++ s.nameText)

theorem text_eq : s.text = s.lead.text ++ (s.truncate ++ (s.gap.text ++ s.behind)) :=
  rfl

/-- Behind blanks, the first word begins with TRUNCATE. -/
theorem firstWord_text (hlead : s.lead.isBlank = true) :
    firstWord s.text = s.truncate ++ (s.gap.text ++ s.behind).takeWhile isInk ∧
      behindWord s.text = (s.gap.text ++ s.behind).dropWhile isInk := by
  obtain ⟨hletters, hlength⟩ := isKeywordOf_truncate s.truncate_word
  have hne : s.truncate ≠ [] := List.ne_nil_of_length_pos (hlength ▸ Nat.succ_pos _)
  obtain ⟨hfirst, hbehind⟩ := firstWord_ink hne
    (fun c hc => (isInk_of_isAlpha (hletters c hc)).1) (s.gap.text ++ s.behind)
  have hblank := firstWord_blank (Gap.isWhitespace_text hlead)
    (s.truncate ++ (s.gap.text ++ s.behind))
  exact ⟨hblank.1.trans hfirst, hblank.2.trans hbehind⟩

/-- The first word is TRUNCATE where blanks are around it. -/
theorem truncatedTable_of_spaced (h : s.Spaced) :
    truncatedTable a.isAlphanumeric (String.ofList s.text) s.defaultDb =
      nameAfter a s.behind s.defaultDb := by
  obtain ⟨hlead, hgap, hne⟩ := h
  obtain ⟨hfirst, hbehind⟩ := s.firstWord_text hlead
  obtain ⟨htake, hdrop⟩ :=
    Gap.takeWhile_beginsBlank (Gap.beginsBlank_of_isBlank hgap hne) s.behind
  have hgapBlank := firstWord_blank (Gap.isWhitespace_text hgap) s.behind
  rw [truncatedTable_eq, hfirst, hbehind, htake, hdrop, List.append_nil, s.truncate_word,
    if_pos rfl, nameAfter, hgapBlank.1, hgapBlank.2]
  rfl

/-- Otherwise no name is read. -/
theorem truncatedTable_of_not_spaced (h : ¬s.Spaced) :
    truncatedTable a.isAlphanumeric (String.ofList s.text) s.defaultDb = none := by
  have htruncate : ∀ c ∈ "TRUNCATE".toList.map Char.toLower, c.isAlpha = true :=
    List.all_eq_true.mp (by decide)
  have htable : ∀ c ∈ "TABLE".toList.map Char.toLower, c.isAlpha = true :=
    List.all_eq_true.mp (by decide)
  rw [truncatedTable_eq]
  cases hlead : s.lead.isBlank with
  | false =>
    rw [text_eq]
    obtain ⟨c, rest, hsign, hword⟩ := Gap.firstWord_comment hlead
      (s.truncate ++ (s.gap.text ++ s.behind))
    rw [hword, isKeywordOf_cons_of_not_isAlpha htruncate (sign_spec hsign).2.1]
    rfl
  | true =>
    obtain ⟨hfirst, hbehind⟩ := s.firstWord_text hlead
    rw [hfirst, hbehind]
    cases hbegins : s.gap.beginsBlank with
    | true =>
      obtain ⟨htake, hdrop⟩ := Gap.takeWhile_beginsBlank hbegins s.behind
      have hgap : s.gap.isBlank = false := by
        by_contra hgap
        refine h ⟨hlead, Bool.eq_true_of_not_eq_false hgap, ?_⟩
        intro hnil
        rw [hnil] at hbegins
        cases hbegins
      obtain ⟨c, rest, hsign, hword⟩ := Gap.firstWord_comment hgap s.behind
      rw [htake, hdrop, List.append_nil, s.truncate_word, if_pos rfl, nameAfter, hword,
        isKeywordOf_cons_of_not_isAlpha htable (sign_spec hsign).2.1, if_neg Bool.false_ne_true]
      exact splitQualifiedName_sign a hsign _ _
    | false =>
      -- the word goes on behind its last letter
      obtain ⟨c, rest, hc, htext⟩ : ∃ c rest, isInk c = true ∧ s.gap.text ++ s.behind = c :: rest := by
        by_cases hnil : s.gap = []
        · have happly := s.gap_ne.mt (not_not.mpr hnil)
          obtain ⟨hquoted, hnone⟩ := not_or.mp happly
          have htableNone : s.table = none := by
            cases htable : s.table with
            | none => rfl
            | some word =>
              rw [htable] at hnone
              exact absurd rfl hnone
          obtain ⟨rest, hrest⟩ := s.nameText_quoted (Bool.eq_true_of_not_eq_false hquoted)
          exact ⟨'`', rest, by decide, by rw [hnil, behind, htableNone]; exact hrest⟩
        · obtain ⟨c, rest, hsign, htext⟩ := Gap.text_sign hbegins hnil s.behind
          exact ⟨c, rest, (sign_spec hsign).1, htext⟩
      have hlonger : isKeywordOf "TRUNCATE" (s.truncate ++ c :: rest.takeWhile isInk) = false := by
        by_contra h
        have := (isKeywordOf_truncate (Bool.eq_true_of_not_eq_false h)).2
        rw [List.length_append, List.length_cons, (isKeywordOf_truncate s.truncate_word).2] at this
        omega
      rw [htext, List.takeWhile_cons_of_pos hc, hlonger]
      rfl

/-- What follows a word that no blank follows is no part of a keyword, a name or a point. -/
theorem exists_of_not_beginsBlank {word : List Char × Gap} (hword : word ∈ s.table)
    (h : word.2.beginsBlank = false) : ∃ c rest, word.2.text ++ s.nameText = c :: rest ∧
      isInk c = true ∧ a.isBare c = false ∧ c ≠ '.' := by
  by_cases hnil : word.2 = []
  · have hquoted : s.first.quoted = true := by
      by_contra hbare
      exact s.table_gap_ne word hword (Bool.eq_false_of_not_eq_true hbare) hnil
    obtain ⟨rest, hrest⟩ := s.nameText_quoted hquoted
    refine ⟨'`', rest, ?_, by decide, a.isBare_of_ascii (by decide) (by decide), by decide⟩
    rw [hnil]
    exact hrest
  · obtain ⟨c, rest, hsign, hc⟩ := Gap.text_sign h hnil s.nameText
    obtain ⟨hink, -, hascii, hname, hpoint, -⟩ := sign_spec hsign
    exact ⟨c, rest, hc, hink, a.isBare_of_ascii hascii hname, hpoint⟩

/-- Where no blank follows the word TABLE, it is taken for the name. -/
theorem nameAfter_of_not_beginsBlank {word : List Char × Gap} (htable : s.table = some word)
    (h : word.2.beginsBlank = false) : nameAfter a s.behind s.defaultDb =
      if trim s.defaultDb.toList = [] then none
      else some (String.ofList (trim s.defaultDb.toList), String.ofList word.1) := by
  obtain ⟨hletters, hlength⟩ := isKeywordOf_table (s.table_word word htable)
  obtain ⟨c, rest, hc, hink, hbare, hpoint⟩ := s.exists_of_not_beginsBlank a htable h
  have hne : word.1 ≠ [] := by
    intro h
    rw [h] at hlength
    cases hlength
  have hbehind : s.behind = word.1 ++ c :: rest := by
    rw [behind, htable, ← hc]
  have hfirst : firstWord s.behind = word.1 ++ c :: rest.takeWhile isInk := by
    rw [hbehind, (firstWord_ink hne (fun d hd => (isInk_of_isAlpha (hletters d hd)).1) _).1,
      List.takeWhile_cons_of_pos hink]
  have hlonger : isKeywordOf "TABLE" (word.1 ++ c :: rest.takeWhile isInk) = false := by
    by_contra h
    have := (isKeywordOf_table (Bool.eq_true_of_not_eq_false h)).2
    rw [List.length_append, List.length_cons, hlength] at this
    omega
  have hread : readIdentifier a.isAlphanumeric (word.1 ++ c :: rest.takeWhile isInk) =
      some (word.1, c :: rest.takeWhile isInk) := by
    have hnot : ¬a.isBare c = true := by
      rw [hbare]
      exact Bool.false_ne_true
    have hall : ∀ d ∈ word.1, a.isBare d = true := fun d hd => a.isBare_of_isAlpha (hletters d hd)
    have htake : (word.1 ++ c :: rest.takeWhile isInk).takeWhile a.isBare = word.1 := by
      rw [List.takeWhile_append_of_pos hall, List.takeWhile_cons_of_neg hnot, List.append_nil]
    have hdrop : (word.1 ++ c :: rest.takeWhile isInk).dropWhile a.isBare =
        c :: rest.takeWhile isInk := by
      rw [List.dropWhile_append_of_pos hall, List.dropWhile_cons_of_neg hnot]
    obtain ⟨d, more, hword⟩ := List.exists_cons_of_ne_nil hne
    have hd : d ≠ '`' := by
      rintro rfl
      have := hletters '`' (hword ▸ List.mem_cons_self)
      cases this
    rw [hword, List.cons_append] at htake hdrop ⊢
    rw [readIdentifier_bare a hd, htake, hdrop, if_neg (List.cons_ne_nil _ _)]
  rw [nameAfter, hfirst, hlonger, if_neg Bool.false_ne_true,
    splitQualifiedName_unqualified a _ hread (fun h => hpoint (Option.some.inj h))]
  simp only [hne, or_false]

/-- Where a blank follows it, the name is read behind it, if there are but blanks. -/
theorem nameAfter_of_beginsBlank {word : List Char × Gap} (htable : s.table = some word)
    (h : word.2.beginsBlank = true) : nameAfter a s.behind s.defaultDb =
      if word.2.isBlank then
        splitQualifiedName a.isAlphanumeric (firstWord s.nameText) s.defaultDb
      else none := by
  obtain ⟨hletters, hlength⟩ := isKeywordOf_table (s.table_word word htable)
  have hne : word.1 ≠ [] := by
    intro h
    rw [h] at hlength
    cases hlength
  have hbehind : s.behind = word.1 ++ (word.2.text ++ s.nameText) := by
    rw [behind, htable]
  obtain ⟨hfirst, hrest⟩ := firstWord_ink hne
    (fun c hc => (isInk_of_isAlpha (hletters c hc)).1) (word.2.text ++ s.nameText)
  obtain ⟨htake, hdrop⟩ := Gap.takeWhile_beginsBlank h s.nameText
  rw [nameAfter, hbehind, hfirst, hrest, htake, hdrop, List.append_nil, s.table_word word htable,
    if_pos rfl]
  cases hblank : word.2.isBlank with
  | true => rw [if_pos rfl, (firstWord_blank (Gap.isWhitespace_text hblank) _).1]
  | false =>
    obtain ⟨c, rest, hsign, hword⟩ := Gap.firstWord_comment hblank s.nameText
    rw [hword, if_neg Bool.false_ne_true]
    exact splitQualifiedName_sign a hsign _ _

/-- The statement is recognised as what it is. -/
def Recognised : Prop :=
  truncatedTable a.isAlphanumeric (String.ofList s.text) s.defaultDb = some s.names

/-- **A TRUNCATE statement is recognised** exactly if it is plain, or hits the names by chance. -/
theorem recognised_iff : s.Recognised a ↔ s.Plain a ∨ s.HitsKeyword ∨ s.HitsDefault a := by
  by_cases hspaced : s.Spaced
  · have hplain : s.Plain a ↔
        (∀ word ∈ s.table, word.2.isBlank = true ∧ word.2 ≠ []) ∧ s.NamesPlain a :=
      and_iff_right hspaced
    have hdefault : s.HitsDefault a ↔
        (∀ word ∈ s.table, word.2.isBlank = true ∧ word.2 ≠ []) ∧ s.NamesHit a :=
      and_iff_right hspaced
    have hkeyword : s.HitsKeyword ↔ ∃ word ∈ s.table, word.2.beginsBlank = false ∧
        trim s.defaultDb.toList = s.names.1.toList ∧ s.names.2 = String.ofList word.1 :=
      and_iff_right hspaced
    rw [Recognised, s.truncatedTable_of_spaced a hspaced, hplain, hdefault, hkeyword]
    cases htable : s.table with
    | none =>
      have hnone : ∀ word ∈ (none : Option (List Char × Gap)), word.2.isBlank = true ∧
          word.2 ≠ [] := fun word h => by cases h
      have hbehind : s.behind = s.nameText := by
        rw [behind, htable]
      rw [hbehind, s.nameAfter_nameText_iff a htable, and_iff_right hnone, and_iff_right hnone,
        or_iff_right (show ¬∃ word ∈ (none : Option (List Char × Gap)), _ from ?_)]
      rintro ⟨word, h, -⟩
      cases h
    | some word =>
      have hall : (∀ w ∈ some word, w.2.isBlank = true ∧ w.2 ≠ []) ↔
          word.2.isBlank = true ∧ word.2 ≠ [] :=
        ⟨fun h => h word rfl, fun h w hw => by cases hw; exact h⟩
      have hsome : (∃ w ∈ some word, w.2.beginsBlank = false ∧
          trim s.defaultDb.toList = s.names.1.toList ∧ s.names.2 = String.ofList w.1) ↔
          word.2.beginsBlank = false ∧ trim s.defaultDb.toList = s.names.1.toList ∧
            s.names.2 = String.ofList word.1 := by
        constructor
        · rintro ⟨w, hw, h⟩
          cases hw
          exact h
        · exact fun h => ⟨word, rfl, h⟩
      rw [hall, hsome]
      cases hbegins : word.2.beginsBlank with
      | true =>
        have hne : word.2 ≠ [] := by
          intro h
          rw [h] at hbegins
          cases hbegins
        rw [s.nameAfter_of_beginsBlank a htable hbegins]
        cases hblank : word.2.isBlank with
        | true =>
          rw [if_pos rfl, s.nameText_of_table (by rw [htable]; rfl),
            s.splitQualifiedName_firstWord_iff a]
          simp [hne]
        | false => simp
      | false =>
        have hnot : ¬(word.2.isBlank = true ∧ word.2 ≠ []) := by
          rintro ⟨hblank, hne⟩
          rw [Gap.beginsBlank_of_isBlank hblank hne] at hbegins
          cases hbegins
        rw [s.nameAfter_of_not_beginsBlank a htable hbegins]
        have hschema : s.names.1.toList ≠ [] := by
          cases hsecond : s.second with
          | none =>
            rw [names, hsecond]
            exact fun h => s.default_ne hsecond (String.toList_inj.mp h)
          | some part =>
            rw [names, hsecond]
            dsimp only
            rw [String.toList_ofList]
            exact s.first.ne
        constructor
        · intro h
          split at h
          · cases h
          · obtain ⟨htrim, hname⟩ := s.some_eq_names_iff.mp h
            exact .inr (.inl ⟨rfl, htrim, by rw [hname, String.ofList_toList]⟩)
        · rintro (⟨h, -⟩ | ⟨-, htrim, hname⟩ | ⟨h, -⟩)
          · exact absurd h hnot
          · rw [if_neg (htrim ▸ hschema)]
            exact s.some_eq_names_iff.mpr ⟨htrim, by rw [hname, String.toList_ofList]⟩
          · exact absurd h hnot
  · refine iff_of_false ?_ ?_
    · rw [Recognised, s.truncatedTable_of_not_spaced a hspaced]
      intro h
      cases h
    · rintro (h | h | h)
      · exact hspaced h.1
      · exact hspaced h.1
      · exact hspaced h.1

end TruncateStatement

/-! ## Other statements -/

/-- **No other statement is taken for one**, whatever its text is. -/
theorem truncatedTable_other (a : Alphabet) (o : OtherStatement) (defaultDb : String) :
    truncatedTable a.isAlphanumeric (String.ofList o.text) defaultDb = none := by
  have hletters : ∀ c ∈ "TRUNCATE".toList.map Char.toLower, c.isAlpha = true :=
    List.all_eq_true.mp (by decide)
  suffices h : isKeywordOf "TRUNCATE" (firstWord o.text) = false by
    rw [truncatedTable_eq, h]
    rfl
  rw [OtherStatement.text]
  cases hlead : o.lead.isBlank with
  | false =>
    obtain ⟨c, rest, hsign, hword⟩ := Gap.firstWord_comment hlead (o.word ++ o.rest)
    rw [hword]
    exact isKeywordOf_cons_of_not_isAlpha hletters (sign_spec hsign).2.1 _
  | true =>
    rw [(firstWord_blank (Gap.isWhitespace_text hlead) _).1]
    have hrest : ∀ c more, o.rest = c :: more → c.isAlpha = false := by
      intro c more hc
      by_contra h
      have hname := o.rest_ends c (by rw [hc]; rfl)
      rw [(isInk_of_isAlpha (Bool.eq_true_of_not_eq_false h)).2] at hname
      cases hname
    by_cases hne : o.word = []
    · rw [hne, List.nil_append]
      cases hcons : o.rest with
      | nil => rfl
      | cons c more =>
        have hblank := (o.begins hne c (by rw [hcons]; rfl)).1
        have hink : isInk c = true := by
          rw [isInk, hblank]
          rfl
        rw [firstWord_cons hink]
        exact isKeywordOf_cons_of_not_isAlpha hletters (hrest c more hcons) _
    · have hink : ∀ c ∈ o.word, isInk c = true := by
        intro c hc
        have hall : ∀ n < 128, isNameChar (Char.ofNat n) = true → isInk (Char.ofNat n) = true := by
          decide +kernel
        obtain ⟨hascii, hname⟩ := o.word_chars c hc
        have := hall c.toNat hascii
        rw [Char.ofNat_toNat] at this
        exact this hname
      rw [(firstWord_ink hne hink _).1]
      cases htake : o.rest.takeWhile isInk with
      | nil =>
        rw [List.append_nil]
        exact o.other
      | cons c more =>
        by_contra h
        have hc := (isKeywordOf_truncate (Bool.eq_true_of_not_eq_false h)).1 c
          (List.mem_append_right _ List.mem_cons_self)
        cases hcons : o.rest with
        | nil =>
          rw [hcons] at htake
          cases htake
        | cons d rest =>
          rw [hcons, List.takeWhile_cons] at htake
          split at htake
          · cases htake
            rw [hrest c rest hcons] at hc
            cases hc
          · cases htake

/-- **TRUNCATE statements are recognised** exactly if they are plain, or hit the names by chance, and
other statements never are. -/
theorem truncate_recognised_exactly (a : Alphabet) :
    (∀ s : TruncateStatement, s.Recognised a ↔ s.Plain a ∨ s.HitsKeyword ∨ s.HitsDefault a) ∧
      ∀ (o : OtherStatement) (defaultDb : String),
        truncatedTable a.isAlphanumeric (String.ofList o.text) defaultDb = none :=
  ⟨fun s => s.recognised_iff a, truncatedTable_other a⟩

theorem tail_nil (g : Gap) (rest : List Char) : [] ≠ g.text ++ '.' :: rest :=
  (List.append_ne_nil_of_right_ne_nil _ (List.cons_ne_nil _ _)).symm

theorem tail_semicolon (g : Gap) (rest : List Char) : [';'] ≠ g.text ++ '.' :: rest := by
  intro h
  have hpoint : '.' ∈ [';'] := h ▸ List.mem_append_right _ List.mem_cons_self
  exact absurd hpoint (by decide)

/-- A blank in a quoted name. -/
def quotedBlank : TruncateStatement where
  lead := []
  truncate := "TRUNCATE".toList
  gap := [.blank ' ' (by decide)]
  table := some ("TABLE".toList, [.blank ' ' (by decide)])
  first := ⟨"order items".toList, true, by decide, by decide⟩
  second := none
  tail := []
  defaultDb := "shop"
  truncate_word := by decide
  table_word := by
    rintro _ ⟨⟩
    decide
  first_word := by decide
  gap_ne := by simp
  table_gap_ne := by
    rintro _ ⟨⟩ h
    cases h
  tail_ends := by
    rintro _ ⟨⟩
  tail_unqualified _ := tail_nil
  default_ne := by decide

/-- A comment ahead of the statement. -/
def commentAhead : TruncateStatement where
  lead := [.block " nightly ".toList (fun h => absurd (h.subset List.mem_cons_self) (by decide))
    (by decide) (by decide), .blank ' ' (by decide)]
  truncate := "truncate".toList
  gap := [.blank ' ' (by decide)]
  table := none
  first := ⟨"items".toList, false, by decide, fun _ => List.all_eq_true.mp (by decide)⟩
  second := none
  tail := [';']
  defaultDb := "shop"
  truncate_word := by decide
  table_word := by
    rintro _ ⟨⟩
  first_word _ := by decide
  gap_ne := by simp
  table_gap_ne := by
    rintro _ ⟨⟩
  tail_ends := by
    rintro _ ⟨⟩
    decide
  tail_unqualified _ := tail_semicolon
  default_ne := by decide

/-- A backquote in a name. -/
def doubledBackquote : TruncateStatement :=
  { quotedBlank with
    first := ⟨"a`b".toList, true, by decide, by decide⟩
    first_word := by decide
    gap_ne := by simp [quotedBlank]
    table_gap_ne := by
      rintro _ ⟨⟩ h
      cases h }

/-- Blanks about the point. -/
def blankAboutPoint : TruncateStatement where
  lead := []
  truncate := "TRUNCATE".toList
  gap := [.blank ' ' (by decide)]
  table := some ("TABLE".toList, [.blank ' ' (by decide)])
  first := ⟨"shop".toList, false, by decide, fun _ => List.all_eq_true.mp (by decide)⟩
  second := some ([.blank ' ' (by decide)], [.blank ' ' (by decide)],
    ⟨"items".toList, false, by decide, fun _ => List.all_eq_true.mp (by decide)⟩)
  tail := []
  defaultDb := "app"
  truncate_word := by decide
  table_word := by
    rintro _ ⟨⟩
    decide
  first_word _ := by decide
  gap_ne := by simp
  table_gap_ne := by
    rintro _ ⟨⟩ -
    exact List.cons_ne_nil _ _
  tail_ends := by
    rintro _ ⟨⟩
  tail_unqualified := by simp
  default_ne := by simp

/-- A blank in a name and a comment ahead of the statement hide it, and a doubled backquote and a blank
about the point make another table of it. -/
theorem truncate_not_recognised :
    (∃ s : TruncateStatement, String.ofList s.text = "TRUNCATE TABLE `order items`" ∧
      s.defaultDb = "shop" ∧ s.names = ("shop", "order items") ∧
      truncatedTable Alphabet.latin.isAlphanumeric "TRUNCATE TABLE `order items`" "shop" = none) ∧
    (∃ s : TruncateStatement, String.ofList s.text = "/* nightly */ truncate items;" ∧
      s.defaultDb = "shop" ∧ s.names = ("shop", "items") ∧
      truncatedTable Alphabet.latin.isAlphanumeric "/* nightly */ truncate items;" "shop" = none) ∧
    (∃ s : TruncateStatement, String.ofList s.text = "TRUNCATE TABLE `a``b`" ∧
      s.defaultDb = "shop" ∧ s.names = ("shop", "a`b") ∧
      truncatedTable Alphabet.latin.isAlphanumeric "TRUNCATE TABLE `a``b`" "shop" =
        some ("shop", "a")) ∧
    ∃ s : TruncateStatement, String.ofList s.text = "TRUNCATE TABLE shop . items" ∧
      s.defaultDb = "app" ∧ s.names = ("shop", "items") ∧
      truncatedTable Alphabet.latin.isAlphanumeric "TRUNCATE TABLE shop . items" "app" =
        some ("app", "shop") :=
  ⟨⟨quotedBlank, by decide, by decide, by decide, by decide⟩,
    ⟨commentAhead, by decide, by decide, by decide, by decide⟩,
    ⟨doubledBackquote, by decide, by decide, by decide, by decide⟩,
    ⟨blankAboutPoint, by decide, by decide, by decide, by decide⟩⟩

end Pg2osync
