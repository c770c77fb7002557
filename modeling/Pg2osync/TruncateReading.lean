import Mathlib
import Pg2osync.TruncateStatement
import Pg2osync.Utf8

/-!
# How TRUNCATE statements are read

The text is split at white space. So a comment, a blank in a quoted name or about the point, and a
missing blank in front of a quote each end the word that the name is read from.
-/

namespace Pg2osync

open Identifier

/-! ## Words -/

/-- The first word of a text. -/
def firstWord (text : List Char) : List Char :=
  (text.dropWhile isWhitespace).takeWhile isInk

/-- And what is behind it. -/
def behindWord (text : List Char) : List Char :=
  (text.dropWhile isWhitespace).dropWhile isInk

theorem splitWhitespace_piece {piece : List Char} (h : piece ≠ []) (text : List Char) :
    splitWhitespace piece text =
      (piece ++ text.takeWhile isInk) :: splitWhitespace [] (text.dropWhile isInk) := by
  induction text generalizing piece with
  | nil =>
    rw [splitWhitespace]
    · simp [splitWhitespace]
    · exact h
  | cons c rest ih =>
    rw [splitWhitespace]
    have hempty : piece.isEmpty = false := List.isEmpty_eq_false_iff.mpr h
    cases hc : isWhitespace c with
    | true =>
      have hink : ¬isInk c = true := by simp [isInk, hc]
      rw [if_pos rfl, hempty, List.takeWhile_cons_of_neg hink, List.dropWhile_cons_of_neg hink,
        splitWhitespace, hc, List.append_nil]
      rfl
    | false =>
      have hink : isInk c = true := by simp [isInk, hc]
      rw [if_neg Bool.false_ne_true, ih (by simp), List.takeWhile_cons_of_pos hink,
        List.dropWhile_cons_of_pos hink, List.append_assoc, List.singleton_append]

/-- The words of a text are the first one and those behind it. -/
theorem splitWhitespace_eq (text : List Char) : splitWhitespace [] text =
    if firstWord text = [] then [] else firstWord text :: splitWhitespace [] (behindWord text) := by
  induction text with
  | nil => rfl
  | cons c rest ih =>
    rw [splitWhitespace, firstWord, behindWord]
    cases hc : isWhitespace c with
    | true =>
      rw [List.dropWhile_cons_of_pos hc]
      exact ih
    | false =>
      have hink : isInk c = true := by simp [isInk, hc]
      have hneg : ¬isWhitespace c = true := by simp [hc]
      rw [if_neg Bool.false_ne_true, List.nil_append, List.dropWhile_cons_of_neg hneg,
        List.takeWhile_cons_of_pos hink, List.dropWhile_cons_of_pos hink, if_neg (by simp),
        splitWhitespace_piece (by simp), List.singleton_append]

theorem firstWord_blank {gap : List Char} (h : ∀ c ∈ gap, isWhitespace c = true)
    (text : List Char) : firstWord (gap ++ text) = firstWord text ∧
      behindWord (gap ++ text) = behindWord text := by
  have hdrop : (gap ++ text).dropWhile isWhitespace = text.dropWhile isWhitespace :=
    List.dropWhile_append_of_pos h
  exact ⟨by rw [firstWord, hdrop]; rfl, by rw [behindWord, hdrop]; rfl⟩

variable {word : List Char}

/-- A word goes on up to the next blank. -/
theorem firstWord_ink (hne : word ≠ []) (h : ∀ c ∈ word, isInk c = true) (text : List Char) :
    firstWord (word ++ text) = word ++ text.takeWhile isInk ∧
      behindWord (word ++ text) = text.dropWhile isInk := by
  obtain ⟨c, rest, rfl⟩ := List.exists_cons_of_ne_nil hne
  have hc : ¬isWhitespace c = true := by
    have := h c List.mem_cons_self
    simpa [isInk] using this
  have hdrop : (c :: rest ++ text).dropWhile isWhitespace = c :: rest ++ text :=
    List.dropWhile_cons_of_neg hc
  exact ⟨by rw [firstWord, hdrop, List.takeWhile_append_of_pos h],
    by rw [behindWord, hdrop, List.dropWhile_append_of_pos h]⟩

variable {c : Char}

theorem firstWord_cons (h : isInk c = true) (rest : List Char) :
    firstWord (c :: rest) = c :: rest.takeWhile isInk := by
  have hword : ∀ d ∈ [c], isInk d = true := fun d hd => List.mem_singleton.mp hd ▸ h
  exact (firstWord_ink (List.cons_ne_nil c []) hword rest).1

/-- Dropping stops at what is not dropped. -/
theorem not_of_dropWhile {p : Char → Bool} {text : List Char} {rest : List Char}
    (h : text.dropWhile p = c :: rest) : p c = false := by
  have hnot := List.head?_dropWhile_not p text
  rw [h] at hnot
  simpa using hnot

/-! ## Keywords -/

theorem isAlpha_of_toLower (h : c.toLower.isAlpha = true) : c.isAlpha = true := by
  by_cases hupper : c.isUpper = true
  · simp [Char.isAlpha, hupper]
  · have hsame : c.toLower = c := by
      simp only [Char.isUpper, decide_eq_true_eq] at hupper
      rw [Char.toLower]
      split
      · next hrange => exact absurd hrange hupper
      · rfl
    rwa [hsame] at h

/-- A keyword is written in letters, as many as it has. -/
theorem isKeywordOf_letters {keyword : String}
    (hletters : ∀ c ∈ keyword.toList.map Char.toLower, c.isAlpha = true)
    (h : isKeywordOf keyword word = true) :
    (∀ c ∈ word, c.isAlpha = true) ∧ word.length = keyword.toList.length := by
  have hmap : word.map Char.toLower = keyword.toList.map Char.toLower := by
    simpa [isKeywordOf, Filter.Token.sameWord] using h
  refine ⟨fun c hc => isAlpha_of_toLower (hletters _ ?_), ?_⟩
  · exact hmap ▸ List.mem_map_of_mem hc
  · simpa using congrArg List.length hmap

theorem isKeywordOf_truncate (h : isKeywordOf "TRUNCATE" word = true) :
    (∀ c ∈ word, c.isAlpha = true) ∧ word.length = 8 :=
  isKeywordOf_letters (List.all_eq_true.mp (by decide)) h

theorem isKeywordOf_table (h : isKeywordOf "TABLE" word = true) :
    (∀ c ∈ word, c.isAlpha = true) ∧ word.length = 5 :=
  isKeywordOf_letters (List.all_eq_true.mp (by decide)) h

theorem isKeywordOf_cons_of_not_isAlpha {keyword : String}
    (hletters : ∀ c ∈ keyword.toList.map Char.toLower, c.isAlpha = true) (hc : c.isAlpha = false)
    (rest : List Char) : isKeywordOf keyword (c :: rest) = false := by
  by_contra h
  have := (isKeywordOf_letters hletters (Bool.eq_true_of_not_eq_false h)).1 c List.mem_cons_self
  rw [hc] at this
  cases this

/-- A letter is ASCII. -/
theorem toNat_of_isAlpha (h : c.isAlpha = true) : c.toNat < 128 := by
  have hrange : c.isUpper = true ∨ c.isLower = true := by
    simpa [Char.isAlpha] using h
  have hupper : ∀ {c : Char}, c.isUpper = true → c.toNat ≤ 90 := by
    intro c h
    simp only [Char.isUpper, decide_eq_true_eq] at h
    exact h.2
  have hlower : ∀ {c : Char}, c.isLower = true → c.toNat ≤ 122 := by
    intro c h
    simp only [Char.isLower, Bool.and_eq_true, decide_eq_true_eq] at h
    exact h.2
  obtain h | h := hrange
  · have := hupper h
    omega
  · have := hlower h
    omega

set_option maxRecDepth 4000 in
/-- What a letter is else. -/
theorem isInk_of_isAlpha (h : c.isAlpha = true) : isInk c = true ∧ isNameChar c = true := by
  have hall : ∀ n < 128, (Char.ofNat n).isAlpha = true →
      isInk (Char.ofNat n) = true ∧ isNameChar (Char.ofNat n) = true := by decide
  have hc := hall c.toNat (toNat_of_isAlpha h)
  rw [Char.ofNat_toNat] at hc
  exact hc h

namespace Alphabet

variable (a : Alphabet)

theorem isBare_of_isAlpha (h : c.isAlpha = true) : a.isBare c = true := by
  have halphanum : c.isAlphanum = true := by simp [Char.isAlphanum, h]
  rw [isBare, a.ascii c (toNat_of_isAlpha h), halphanum]
  rfl

/-- What the code reads a name over is no white space. -/
theorem isInk_of_isBare (h : a.isBare c = true) : isInk c = true := by
  rw [isInk]
  cases hc : isWhitespace c with
  | false => rfl
  | true =>
    rw [isBare, a.blank c hc, Bool.false_or, Bool.or_eq_true, decide_eq_true_eq,
      decide_eq_true_eq] at h
    obtain rfl | rfl := h <;> cases hc

/-- In ASCII it is what the server reads one over. -/
theorem isBare_of_ascii (h : c.toNat < 128) (hname : isNameChar c = false) :
    a.isBare c = false := by
  simp only [isNameChar, Bool.or_eq_false_iff] at hname
  rw [isBare, a.ascii c h, hname.1.1.1, hname.1.1.2, hname.1.2]
  rfl

/-- A table of ASCII. -/
def latin : Alphabet where
  isAlphanumeric := Char.isAlphanum
  ascii _ _ := rfl
  blank c hc := by
    by_cases hascii : c.toNat < 128
    · have hall : ∀ n < 128, isWhitespace (Char.ofNat n) = true →
          (Char.ofNat n).isAlphanum = false := by decide +kernel
      have := hall c.toNat hascii
      rw [Char.ofNat_toNat] at this
      exact this hc
    · by_contra h
      have halphanum : c.isAlphanum = true := Bool.eq_true_of_not_eq_false h
      rw [Char.isAlphanum, Bool.or_eq_true] at halphanum
      obtain halpha | hdigit := halphanum
      · exact hascii (toNat_of_isAlpha halpha)
      · have hrange := Encoding.isAscii_of_isDigit hdigit
        omega

end Alphabet

/-! ## The code -/

section

variable (a : Alphabet)

/-- What the code reads behind the first word. -/
def nameAfter (text : List Char) (defaultDb : String) : Option TableName :=
  if isKeywordOf "TABLE" (firstWord text) then
    splitQualifiedName a.isAlphanumeric (firstWord (behindWord text)) defaultDb
  else splitQualifiedName a.isAlphanumeric (firstWord text) defaultDb

theorem truncatedTable_eq (sql : List Char) (defaultDb : String) :
    truncatedTable a.isAlphanumeric (String.ofList sql) defaultDb =
      if isKeywordOf "TRUNCATE" (firstWord sql) then nameAfter a (behindWord sql) defaultDb
      else none := by
  have hnone : splitQualifiedName a.isAlphanumeric [] defaultDb = none := rfl
  rw [truncatedTable, String.toList_ofList, splitWhitespace_eq]
  by_cases hfirst : firstWord sql = []
  · rw [if_pos hfirst, hfirst]
    rfl
  · rw [if_neg hfirst, splitWhitespace_eq]
    by_cases hname : firstWord (behindWord sql) = []
    · rw [if_pos hname, nameAfter, hname]
      simp [isKeywordOf, Filter.Token.sameWord, hnone]
    · rw [if_neg hname]
      dsimp only
      rw [nameAfter, splitWhitespace_eq (behindWord (behindWord sql))]
      by_cases hrest : firstWord (behindWord (behindWord sql)) = []
      · rw [if_pos hrest, hrest, hnone]
        rfl
      · rw [if_neg hrest]
        rfl

end

/-! ## Between the words -/

/-- A sign that a comment begins with. -/
theorem sign_spec (h : c ∈ ['/', '#', '-']) : isInk c = true ∧ c.isAlpha = false ∧
    c.toNat < 128 ∧ isNameChar c = false ∧ c ≠ '.' ∧ c ≠ '`' := by
  simp only [List.mem_cons, List.not_mem_nil, or_false] at h
  obtain rfl | rfl | rfl := h <;> decide

theorem GapPiece.text_blank {p : GapPiece} (h : p.isBlank = true) :
    ∃ c, p.text = [c] ∧ isWhitespace c = true ∧ c.toNat < 128 ∧ isNameChar c = false := by
  cases p with
  | blank c hc =>
    refine ⟨c, rfl, ?_⟩
    simp only [List.mem_cons, List.not_mem_nil, or_false] at hc
    obtain rfl | rfl | rfl | rfl | rfl | rfl := hc <;> decide
  | block _ _ _ _ | hash _ _ | dashes _ _ _ => cases h

theorem GapPiece.text_comment {p : GapPiece} (h : p.isBlank = false) :
    ∃ c rest, p.text = c :: rest ∧ c ∈ ['/', '#', '-'] := by
  cases p with
  | blank c hc => cases h
  | block _ _ _ _ | hash _ _ | dashes _ _ _ => exact ⟨_, _, rfl, by decide⟩

namespace Gap

variable {g : Gap}

theorem isWhitespace_text (h : g.isBlank = true) : ∀ c ∈ g.text, isWhitespace c = true := by
  intro c hc
  obtain ⟨p, hp, hc⟩ := List.mem_flatMap.mp hc
  obtain ⟨d, hd, hblank, -⟩ := GapPiece.text_blank (List.all_eq_true.mp h p hp)
  rw [hd, List.mem_singleton] at hc
  exact hc ▸ hblank

/-- The first word from a comment on begins with its sign. -/
theorem firstWord_comment (h : g.isBlank = false) (text : List Char) :
    ∃ c rest, c ∈ ['/', '#', '-'] ∧ firstWord (g.text ++ text) = c :: rest := by
  induction g with
  | nil => cases h
  | cons p g ih =>
    have htext : Gap.text (p :: g) ++ text = p.text ++ (Gap.text g ++ text) := by
      simp [Gap.text]
    rw [htext]
    cases hp : p.isBlank with
    | true =>
      obtain ⟨c, hc, hblank, -⟩ := GapPiece.text_blank hp
      have hrest : Gap.isBlank g = false := by
        rw [Gap.isBlank, List.all_cons, hp] at h
        exact h
      obtain ⟨d, rest, hd, hword⟩ := ih hrest
      refine ⟨d, rest, hd, ?_⟩
      rw [(firstWord_blank (fun x hx => ?_) _).1, hword]
      rw [hc, List.mem_singleton] at hx
      exact hx ▸ hblank
    | false =>
      obtain ⟨c, rest, hc, hsign⟩ := GapPiece.text_comment hp
      exact ⟨c, _, hsign, by rw [hc, List.cons_append, firstWord_cons (sign_spec hsign).1]⟩

/-- Behind a blank nothing more of the word comes. -/
theorem takeWhile_beginsBlank (h : g.beginsBlank = true) (text : List Char) :
    (g.text ++ text).takeWhile isInk = [] ∧
      (g.text ++ text).dropWhile isInk = g.text ++ text := by
  cases g with
  | nil => cases h
  | cons p g =>
    obtain ⟨c, hc, hblank, -⟩ := GapPiece.text_blank h
    have hink : ¬isInk c = true := by simp [isInk, hblank]
    have htext : Gap.text (p :: g) ++ text = c :: (Gap.text g ++ text) := by
      simp [Gap.text, hc]
    rw [htext, List.takeWhile_cons_of_neg hink, List.dropWhile_cons_of_neg hink]
    exact ⟨rfl, rfl⟩

theorem text_sign (h : g.beginsBlank = false) (hne : g ≠ []) (text : List Char) :
    ∃ c rest, c ∈ ['/', '#', '-'] ∧ g.text ++ text = c :: rest := by
  cases g with
  | nil => exact absurd rfl hne
  | cons p g =>
    obtain ⟨c, rest, hc, hsign⟩ := GapPiece.text_comment h
    exact ⟨c, _, hsign, by simp [Gap.text, hc]; rfl⟩

theorem beginsBlank_of_isBlank (h : g.isBlank = true) (hne : g ≠ []) : g.beginsBlank = true := by
  cases g with
  | nil => exact absurd rfl hne
  | cons p g =>
    rw [isBlank, List.all_cons, Bool.and_eq_true] at h
    exact h.1

end Gap

/-! ## Identifiers -/

section

variable (a : Alphabet)

theorem readIdentifier_bare (hc : c ≠ '`') (rest : List Char) :
    readIdentifier a.isAlphanumeric (c :: rest) = if (c :: rest).takeWhile a.isBare = [] then none
      else some ((c :: rest).takeWhile a.isBare, (c :: rest).dropWhile a.isBare) := by
  rw [readIdentifier]
  · simp only [List.isEmpty_iff]
    rfl
  · exact fun quoted h => hc (List.cons.inj h).1

/-- Nothing is read where no name can begin. -/
theorem splitQualifiedName_cons (hc : c ≠ '`') (hbare : a.isBare c = false) (rest : List Char)
    (defaultDb : String) : splitQualifiedName a.isAlphanumeric (c :: rest) defaultDb = none := by
  rw [splitQualifiedName, readIdentifier_bare a hc, if_pos]
  exact List.takeWhile_cons_of_neg (by rw [hbare]; exact Bool.false_ne_true)

theorem splitQualifiedName_sign (h : c ∈ ['/', '#', '-']) (rest : List Char) (defaultDb : String) :
    splitQualifiedName a.isAlphanumeric (c :: rest) defaultDb = none := by
  obtain ⟨-, -, hascii, hname, -, hquote⟩ := sign_spec h
  exact splitQualifiedName_cons a hquote (a.isBare_of_ascii hascii hname) rest defaultDb

/-- A name that no point follows is the table's. -/
theorem splitQualifiedName_unqualified {word name rest : List Char} (defaultDb : String)
    (h : readIdentifier a.isAlphanumeric word = some (name, rest)) (hrest : rest.head? ≠ some '.') :
    splitQualifiedName a.isAlphanumeric word defaultDb =
      if trim defaultDb.toList = [] ∨ name = [] then none
      else some (String.ofList (trim defaultDb.toList), String.ofList name) := by
  rw [splitQualifiedName, h]
  cases rest with
  | nil => simp
  | cons c rest =>
    have hc : c ≠ '.' := fun h => hrest (by rw [h]; rfl)
    split
    · next heq => cases heq
    · next first after heq =>
      cases heq
      exact absurd rfl hc
    · next first _ _ heq =>
      cases heq
      simp

theorem splitQualifiedName_point {word name rest : List Char} (defaultDb : String)
    (h : readIdentifier a.isAlphanumeric word = some (name, '.' :: rest)) :
    splitQualifiedName a.isAlphanumeric word defaultDb =
      (readIdentifier a.isAlphanumeric rest).bind fun read =>
        if name = [] ∨ read.1 = [] then none
        else some (String.ofList name, String.ofList read.1) := by
  rw [splitQualifiedName, h]
  cases hread : readIdentifier a.isAlphanumeric rest with
  | none => simp [hread]
  | some read => simp [hread]

theorem escaped_of_notMem {name : List Char} (h : ∀ c ∈ name, c ≠ '`') :
    escaped name = name := by
  induction name with
  | nil => rfl
  | cons c rest ih =>
    rw [List.forall_mem_cons] at h
    have hrest := ih h.2
    rw [escaped] at hrest
    rw [escaped, List.flatMap_cons, if_neg h.1, hrest]
    rfl

/-- **What is read of a bare name**: what it begins with that the code takes for one. -/
theorem readIdentifier_written_bare {n more : List Char} (hn : ∀ c ∈ n, isNameChar c = true)
    (hmore : ∀ c ∈ more.head?, c.toNat < 128 ∧ isNameChar c = false ∧ c ≠ '`') :
    readIdentifier a.isAlphanumeric ((n ++ more).takeWhile isInk) =
      if n.takeWhile a.isBare = [] then none
      else some (n.takeWhile a.isBare, (n.dropWhile a.isBare ++ more).takeWhile isInk) := by
  have hsplit := List.takeWhile_append_dropWhile (p := a.isBare) (l := n)
  have hread : ∀ c ∈ n.takeWhile a.isBare, a.isBare c = true := fun c hc => List.mem_takeWhile_imp hc
  have hhead : ∀ c ∈ (n.dropWhile a.isBare ++ more).head?, a.isBare c = false ∧ c ≠ '`' := by
    intro c hc
    cases hleft : n.dropWhile a.isBare with
    | nil =>
      rw [hleft, List.nil_append] at hc
      obtain ⟨hascii, hname, hquote⟩ := hmore c hc
      exact ⟨a.isBare_of_ascii hascii hname, hquote⟩
    | cons d rest =>
      rw [hleft] at hc
      cases hc
      have hmem : c ∈ n := by
        rw [← hsplit, hleft]
        exact List.mem_append_right _ List.mem_cons_self
      refine ⟨not_of_dropWhile hleft, fun h => ?_⟩
      · have := hn c hmem
        rw [h] at this
        cases this
  generalize n.takeWhile a.isBare = y at hsplit hread ⊢
  generalize n.dropWhile a.isBare = left at hsplit hhead ⊢
  subst hsplit
  rw [List.append_assoc, List.takeWhile_append_of_pos fun c hc => a.isInk_of_isBare (hread c hc)]
  have hz : ∀ c ∈ ((left ++ more).takeWhile isInk).head?, a.isBare c = false ∧ c ≠ '`' := by
    intro c hc
    refine hhead c ?_
    cases hall : left ++ more with
    | nil =>
      rw [hall] at hc
      cases hc
    | cons d rest =>
      rw [hall, List.takeWhile_cons] at hc
      split at hc
      · exact hc
      · cases hc
  generalize (left ++ more).takeWhile isInk = z at hz ⊢
  have hzread : z.takeWhile a.isBare = [] ∧ z.dropWhile a.isBare = z := by
    cases z with
    | nil => exact ⟨rfl, rfl⟩
    | cons c rest =>
      have hc : ¬a.isBare c = true := by simp [(hz c rfl).1]
      exact ⟨List.takeWhile_cons_of_neg hc, List.dropWhile_cons_of_neg hc⟩
  have htake : (y ++ z).takeWhile a.isBare = y := by
    rw [List.takeWhile_append_of_pos hread, hzread.1, List.append_nil]
  have hdrop : (y ++ z).dropWhile a.isBare = z := by
    rw [List.dropWhile_append_of_pos hread, hzread.2]
  cases hword : y ++ z with
  | nil =>
    obtain ⟨rfl, rfl⟩ := List.append_eq_nil_iff.mp hword
    rfl
  | cons c rest =>
    have hc : c ≠ '`' := by
      cases y with
      | nil =>
        rw [List.nil_append] at hword
        exact (hz c (by rw [hword]; rfl)).2
      | cons d y =>
        cases hword
        rintro rfl
        have := hread '`' List.mem_cons_self
        rw [a.isBare_of_ascii (by decide) (by decide)] at this
        cases this
    rw [readIdentifier_bare a hc, ← hword, htake, hdrop]

/-- **And of a quoted one**: what is ahead of the first backquote, if there is no white space. -/
theorem readIdentifier_written_quoted (n more : List Char) :
    ∃ z, (n.dropWhile (· ≠ '`') = [] → z = more.takeWhile isInk) ∧
      (n.dropWhile (· ≠ '`') ≠ [] → z.head? = some '`') ∧
      readIdentifier a.isAlphanumeric ((written true n ++ more).takeWhile isInk) =
        if ∀ c ∈ n.takeWhile (· ≠ '`'), isInk c = true then some (n.takeWhile (· ≠ '`'), z)
        else none := by
  have hsplit := List.takeWhile_append_dropWhile (p := fun c => decide (c ≠ '`')) (l := n)
  have hread : ∀ c ∈ n.takeWhile (· ≠ '`'), c ≠ '`' := fun c hc => by
    simpa using List.mem_takeWhile_imp hc
  have hbehind : ∃ after, written true n ++ more =
      '`' :: (n.takeWhile (· ≠ '`') ++ '`' :: after) ∧
        (n.dropWhile (· ≠ '`') = [] → after = more) ∧
        (n.dropWhile (· ≠ '`') ≠ [] → after.head? = some '`') := by
    have hescaped : escaped n =
        n.takeWhile (· ≠ '`') ++ escaped (n.dropWhile (· ≠ '`')) := by
      conv_lhs => rw [← hsplit]
      rw [escaped, List.flatMap_append]
      exact congrArg (· ++ _) (escaped_of_notMem hread)
    rw [written, if_pos rfl, hescaped]
    cases hleft : n.dropWhile (· ≠ '`') with
    | nil => exact ⟨more, by simp [escaped], fun _ => rfl, fun h => absurd rfl h⟩
    | cons c rest =>
      have hc : c = '`' := by simpa using not_of_dropWhile hleft
      subst hc
      refine ⟨'`' :: (escaped rest ++ '`' :: more), ?_, ?_, fun _ => rfl⟩
      · simp [escaped]
      · intro h
        cases h
  obtain ⟨after, htext, hnil, hcons⟩ := hbehind
  have hquote : isInk '`' = true := by decide
  rw [htext, List.takeWhile_cons_of_pos hquote]
  generalize n.takeWhile (· ≠ '`') = y at hread ⊢
  by_cases hink : ∀ c ∈ y, isInk c = true
  · refine ⟨after.takeWhile isInk, fun h => by rw [hnil h], fun h => ?_, ?_⟩
    · have hafter := hcons h
      cases after with
      | nil => cases hafter
      | cons c rest =>
        cases hafter
        rw [List.takeWhile_cons_of_pos hquote]
        rfl
    · have htake : (y ++ '`' :: after.takeWhile isInk).takeWhile (· ≠ '`') = y := by
        rw [List.takeWhile_append_of_pos fun c hc => by simpa using hread c hc]
        simp
      have hdrop : (y ++ '`' :: after.takeWhile isInk).dropWhile (· ≠ '`') =
          '`' :: after.takeWhile isInk := by
        rw [List.dropWhile_append_of_pos fun c hc => by simpa using hread c hc]
        simp
      rw [if_pos hink, List.takeWhile_append_of_pos hink, List.takeWhile_cons_of_pos hquote,
        readIdentifier, hdrop, htake]
  · refine ⟨if n.dropWhile (· ≠ '`') = [] then more.takeWhile isInk else ['`'],
      fun h => if_pos h, fun h => by rw [if_neg h]; rfl, ?_⟩
    have hword : (y ++ '`' :: after).takeWhile isInk = y.takeWhile isInk := by
      rw [List.takeWhile_append, if_neg]
      intro h
      exact hink (List.takeWhile_eq_self_iff.mp ((List.takeWhile_prefix isInk).eq_of_length h))
    have hdrop : (y.takeWhile isInk).dropWhile (· ≠ '`') = [] :=
      List.dropWhile_eq_nil_iff.mpr fun c hc => by
        simpa using hread c ((List.takeWhile_sublist _).subset hc)
    rw [if_neg hink, hword, readIdentifier, hdrop]

/-- What is read of a name, bare or quoted, and that no point is behind it if any of it is left. -/
theorem readIdentifier_written {quoted : Bool} {n more : List Char}
    (hn : quoted = false → ∀ c ∈ n, isNameChar c = true)
    (hmore : ∀ c ∈ more.head?, c.toNat < 128 ∧ isNameChar c = false ∧ c ≠ '`') :
    ∃ z, (n.dropWhile (a.reads quoted) = [] → z = more.takeWhile isInk) ∧
      (n.dropWhile (a.reads quoted) ≠ [] → z.head? ≠ some '.') ∧
      readIdentifier a.isAlphanumeric ((written quoted n ++ more).takeWhile isInk) =
        if (quoted = true ∨ n.takeWhile (a.reads quoted) ≠ []) ∧
          ∀ c ∈ n.takeWhile (a.reads quoted), isInk c = true
        then some (n.takeWhile (a.reads quoted), z) else none := by
  cases quoted with
  | true =>
    obtain ⟨z, hnil, hcons, hread⟩ := readIdentifier_written_quoted a n more
    have hreads : a.reads true = fun c => decide (c ≠ '`') := rfl
    rw [hreads]
    refine ⟨z, hnil, fun h heq => ?_, ?_⟩
    · rw [hcons h] at heq
      cases heq
    · rw [hread]
      simp
  | false =>
    have hreads : a.reads false = a.isBare := rfl
    have hread := readIdentifier_written_bare a (hn rfl) hmore
    have hwritten : written false n = n := rfl
    rw [hreads, hwritten, hread]
    refine ⟨(n.dropWhile a.isBare ++ more).takeWhile isInk, fun h => by rw [h, List.nil_append],
      fun h hpoint => ?_, ?_⟩
    · obtain ⟨d, rest, hd⟩ := List.exists_cons_of_ne_nil h
      rw [hd, List.cons_append, List.takeWhile_cons] at hpoint
      split at hpoint
      · have hmem : d ∈ n := (List.dropWhile_suffix a.isBare).subset (hd ▸ List.mem_cons_self)
        have := hn rfl d hmem
        rw [Option.some.inj hpoint] at this
        cases this
      · cases hpoint
    · by_cases hnone : n.takeWhile a.isBare = []
      · rw [if_pos hnone, if_neg]
        simp [hnone]
      · rw [if_neg hnone, if_pos]
        exact ⟨.inr hnone, fun c hc => a.isInk_of_isBare (List.mem_takeWhile_imp hc)⟩

/-- The second part of a name is read if it is plain and the point is right ahead of it. -/
theorem readIdentifier_second (behind : Gap) (i : Identifier) {tail : List Char}
    (htail : ∀ c ∈ tail.head?, c.toNat < 128 ∧ isNameChar c = false ∧ c ≠ '`') :
    (∃ z, readIdentifier a.isAlphanumeric ((behind.text ++ (i.text ++ tail)).takeWhile isInk) =
      some (i.name, z)) ↔ behind = [] ∧ i.Plain a := by
  by_cases hbehind : behind = []
  · subst hbehind
    obtain ⟨z, -, -, hread⟩ := readIdentifier_written a (n := i.name) i.bare htail
    have htext : Gap.text [] ++ (i.text ++ tail) = written i.quoted i.name ++ tail := rfl
    rw [htext, hread, and_iff_right rfl]
    constructor
    · rintro ⟨z', h⟩
      split at h
      · next hcond =>
        have hself : i.name.takeWhile (a.reads i.quoted) = i.name :=
          congrArg Prod.fst (Option.some.inj h)
        rw [hself] at hcond
        exact fun c hc => ⟨List.takeWhile_eq_self_iff.mp hself c hc, hcond.2 c hc⟩
      · cases h
    · intro hplain
      have hself : i.name.takeWhile (a.reads i.quoted) = i.name :=
        List.takeWhile_eq_self_iff.mpr fun c hc => (hplain c hc).1
      refine ⟨z, ?_⟩
      rw [hself, if_pos ⟨.inr i.ne, fun c hc => (hplain c hc).2⟩]
  · refine iff_of_false ?_ fun h => hbehind h.1
    rintro ⟨z, h⟩
    cases hblank : behind.beginsBlank with
    | true =>
      rw [(Gap.takeWhile_beginsBlank hblank _).1] at h
      cases h
    | false =>
      obtain ⟨c, rest, hsign, hc⟩ := Gap.text_sign hblank hbehind (i.text ++ tail)
      obtain ⟨hink, -, hascii, hname, -, hquote⟩ := sign_spec hsign
      have hbare : ¬a.isBare c = true := by
        rw [a.isBare_of_ascii hascii hname]
        exact Bool.false_ne_true
      rw [hc, List.takeWhile_cons_of_pos hink, readIdentifier_bare a hquote,
        List.takeWhile_cons_of_neg hbare, if_pos rfl] at h
      cases h

/-- What is read from a word has no white space, but for the default database. -/
theorem splitQualifiedName_ink (hword : ∀ c ∈ word, isInk c = true) {defaultDb : String}
    {t : TableName} (h : splitQualifiedName a.isAlphanumeric word defaultDb = some t) :
    (∀ c ∈ t.2.toList, isInk c = true) ∧
      (t.1.toList = trim defaultDb.toList ∨ ∀ c ∈ t.1.toList, isInk c = true) := by
  have hpart : ∀ {text name rest : List Char}, (∀ c ∈ text, isInk c = true) →
      readIdentifier a.isAlphanumeric text = some (name, rest) →
      (∀ c ∈ name, isInk c = true) ∧ ∀ c ∈ rest, isInk c = true := by
    intro text name rest htext hread
    unfold readIdentifier at hread
    split at hread
    · next quoted =>
      rw [List.forall_mem_cons] at htext
      split at hread
      · cases hread
      · next c after hafter =>
        cases hread
        refine ⟨fun c hc => htext.2 c ((List.takeWhile_sublist _).subset hc), fun c hc => ?_⟩
        exact htext.2 c ((List.dropWhile_suffix _).subset (hafter ▸ List.mem_cons_of_mem _ hc))
    · dsimp only at hread
      split at hread
      · cases hread
      · cases hread
        exact ⟨fun c hc => htext c ((List.takeWhile_sublist _).subset hc),
          fun c hc => htext c ((List.dropWhile_suffix _).subset hc)⟩
  cases hread : readIdentifier a.isAlphanumeric word with
  | none =>
    rw [splitQualifiedName, hread] at h
    cases h
  | some read =>
    obtain ⟨name, rest⟩ := read
    obtain ⟨hname, hrest⟩ := hpart hword hread
    by_cases hpoint : rest.head? = some '.'
    · obtain ⟨rest, rfl⟩ : ∃ after, rest = '.' :: after := by
        cases rest with
        | nil => cases hpoint
        | cons c after => exact ⟨after, by rw [Option.some.inj hpoint]⟩
      rw [splitQualifiedName_point a defaultDb hread] at h
      obtain ⟨⟨table, after⟩, htable, h⟩ := Option.bind_eq_some_iff.mp h
      split at h
      · cases h
      · cases h
        have := (hpart (fun c hc => hrest c (List.mem_cons_of_mem _ hc)) htable).1
        simp only [String.toList_ofList]
        exact ⟨this, .inr hname⟩
    · rw [splitQualifiedName_unqualified a defaultDb hread hpoint] at h
      split at h
      · cases h
      · cases h
        rw [String.toList_ofList, String.toList_ofList]
        exact ⟨hname, .inl rfl⟩

end

end Pg2osync
