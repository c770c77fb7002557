import Pg2osync.TypeMap

/-!
# Array literals

The server writes an array of one dimension as its elements between braces, with commas between
them, and puts quotes around an element that would be taken for something else. An array of more
dimensions is an array of arrays, and bounds that are not the usual ones stand ahead of it. The
parser ends at the first brace that closes outside quotes.
-/

namespace Pg2osync

namespace TypeMap

/-! ## What the server writes -/

/-- White space, as the server's scanner has it. -/
def isScannerSpace (c : Char) : Bool :=
  c = ' ' || c = '\t' || c = '\n' || c = '\r' || c = '\x0b' || c = '\x0c'

/-- A character that stands for itself only in quotes. -/
def needsQuote (c : Char) : Bool :=
  c = '"' || c = '\\' || c = '{' || c = '}' || c = ',' || isScannerSpace c

/-- Whether a text is the word NULL, in capitals or not. -/
def spellsNull (text : List Char) : Bool :=
  text.map Char.toLower = ['n', 'u', 'l', 'l']

/-- A character in quotes. -/
def quoteChar (c : Char) : List Char :=
  if c = '"' ∨ c = '\\' then ['\\', c] else [c]

def quoteText (text : List Char) : List Char :=
  '"' :: (text.flatMap quoteChar ++ ['"'])

/-- An element. -/
def writeElement : Option String → List Char
  | none => ['N', 'U', 'L', 'L']
  | some text =>
    if text.toList = [] ∨ spellsNull text.toList = true ∨ text.toList.any needsQuote = true then
      quoteText text.toList
    else text.toList

/-- Parts between braces. -/
def braced (parts : List (List Char)) : List Char :=
  '{' :: (List.intercalate [','] parts ++ ['}'])

/-- An array of one dimension. -/
def writeArray (list : List (Option String)) : String :=
  String.ofList (braced (list.map writeElement))

/-- An array of some dimensions: of none, an element. -/
def Dimensions : ℕ → Type
  | 0 => Option String
  | n + 1 => List (Dimensions n)

/-- An array of some dimensions, as it is written. -/
def writeDimensions : (n : ℕ) → Dimensions n → List Char
  | 0, element => writeElement element
  | n + 1, items => braced (List.map (writeDimensions n) items)

/-- The bounds of each dimension, ahead of an array. -/
def writeBounds (bounds : List (ℤ × ℤ)) : List Char :=
  bounds.flatMap (fun b => '[' :: (Encoding.printInt b.1 ++ ':' :: (Encoding.printInt b.2 ++ [']']))) ++
    ['=']

/-! ## The steps of the parser -/

theorem arrayElements_comma (cur : List Char) (quoted : Bool) (rest : List Char) :
    arrayElements cur false quoted (',' :: rest) =
      (arrayElements [] false false rest).map (makeElement cur quoted :: ·) := by
  cases rest with
  | nil => rfl
  | cons next rest => rfl

theorem arrayElements_brace (cur : List Char) (quoted : Bool) (rest : List Char) :
    arrayElements cur false quoted ('}' :: rest) = some [makeElement cur quoted] := by
  cases rest with
  | nil => rfl
  | cons next rest => rfl

theorem arrayElements_open (cur : List Char) (quoted : Bool) (rest : List Char) :
    arrayElements cur false quoted ('"' :: rest) = arrayElements cur true true rest := by
  cases rest with
  | nil => rfl
  | cons next rest => rfl

/-- A character outside quotes that stands for itself. -/
theorem arrayElements_plain {c : Char} (hquote : c ≠ '"') (hcomma : c ≠ ',') (hbrace : c ≠ '}')
    (cur : List Char) (quoted : Bool) (rest : List Char) :
    arrayElements cur false quoted (c :: rest) = arrayElements (cur ++ [c]) false quoted rest := by
  cases rest with
  | nil => exact if_neg fun h => hbrace h.2
  | cons next rest =>
    rw [arrayElements, if_neg Bool.noConfusion, if_neg hquote, if_neg hcomma, if_neg hbrace]

/-- A character in quotes that stands for itself. -/
theorem arrayElements_inside {c : Char} (hquote : c ≠ '"') (hslash : c ≠ '\\')
    (cur : List Char) (quoted : Bool) (rest : List Char) :
    arrayElements cur true quoted (c :: rest) = arrayElements (cur ++ [c]) true quoted rest := by
  cases rest with
  | nil => rfl
  | cons next rest => rw [arrayElements, if_pos rfl, if_neg hquote, if_neg hslash]

theorem arrayElements_escape (c : Char) (cur : List Char) (quoted : Bool) (rest : List Char) :
    arrayElements cur true quoted ('\\' :: c :: rest) =
      arrayElements (cur ++ [c]) true quoted rest := by
  rw [arrayElements, if_pos rfl, if_neg (by decide), if_pos rfl]

/-- A quote that is not doubled ends the quotes. -/
theorem arrayElements_close (cur : List Char) (quoted : Bool) {c : Char} (hc : c ≠ '"')
    (rest : List Char) :
    arrayElements cur true quoted ('"' :: c :: rest) = arrayElements cur false quoted (c :: rest) := by
  rw [arrayElements, if_pos rfl, if_pos rfl, if_neg hc]

/-! ## What is written is read -/

theorem arrayElements_run {text : List Char} (h : ∀ c ∈ text, needsQuote c = false)
    (cur : List Char) (quoted : Bool) (rest : List Char) :
    arrayElements cur false quoted (text ++ rest) = arrayElements (cur ++ text) false quoted rest := by
  induction text generalizing cur with
  | nil => rw [List.nil_append, List.append_nil]
  | cons c text ih =>
    have hc := h c List.mem_cons_self
    simp only [needsQuote, Bool.or_eq_false_iff, decide_eq_false_iff_not] at hc
    obtain ⟨⟨⟨⟨⟨hquote, -⟩, -⟩, hbrace⟩, hcomma⟩, -⟩ := hc
    rw [List.cons_append, arrayElements_plain hquote hcomma hbrace,
      ih fun d hd => h d (List.mem_cons_of_mem _ hd), List.append_assoc, List.singleton_append]

theorem arrayElements_quoted (text cur : List Char) (quoted : Bool) (rest : List Char) :
    arrayElements cur true quoted (text.flatMap quoteChar ++ rest) =
      arrayElements (cur ++ text) true quoted rest := by
  induction text generalizing cur with
  | nil => rw [List.flatMap_nil, List.nil_append, List.append_nil]
  | cons c text ih =>
    rw [List.flatMap_cons, List.append_assoc, quoteChar]
    split
    · rw [List.cons_append, List.singleton_append, arrayElements_escape, ih, List.append_assoc,
        List.singleton_append]
    · next hc =>
      rw [List.singleton_append, arrayElements_inside (fun h => hc (.inl h)) (fun h => hc (.inr h)),
        ih, List.append_assoc, List.singleton_append]

/-- An element is in quotes or has no character that needs them, and is not taken for a NULL. -/
theorem writeElement_cases (text : String) :
    (writeElement (some text) = quoteText text.toList) ∨
      writeElement (some text) = text.toList ∧ text.toList ≠ [] ∧
        makeElement text.toList false = some text ∧ ∀ c ∈ text.toList, needsQuote c = false := by
  rw [writeElement]
  split
  · exact .inl rfl
  · next h =>
    obtain ⟨hne, hnull, hany⟩ := not_or.mp h |>.imp_right not_or.mp
    refine .inr ⟨rfl, hne, ?_, fun c hc => ?_⟩
    · have hword : text.toList ≠ "NULL".toList := fun heq => hnull (by rw [heq]; rfl)
      rw [makeElement, if_neg fun h => hword h.2, String.ofList_toList]
    · rw [Bool.not_eq_true, List.any_eq_false] at hany
      exact Bool.not_eq_true _ ▸ hany c hc

/-- An element is read, up to what stands behind it. -/
theorem arrayElements_writeElement (element : Option String) {c : Char} (hc : c ≠ '"')
    (rest : List Char) : ∃ cur quoted, makeElement cur quoted = element ∧
      arrayElements [] false false (writeElement element ++ c :: rest) =
        arrayElements cur false quoted (c :: rest) := by
  cases element with
  | none =>
    have hword : ∀ d ∈ writeElement none, needsQuote d = false := by
      simp [writeElement, needsQuote, isScannerSpace]
    exact ⟨['N', 'U', 'L', 'L'], false, rfl, arrayElements_run hword [] false _⟩
  | some text =>
    obtain hquoted | ⟨hplain, -, hmake, hall⟩ := writeElement_cases text
    · refine ⟨text.toList, true, ?_, ?_⟩
      · rw [makeElement, if_neg fun h => Bool.noConfusion h.1, String.ofList_toList]
      · rw [hquoted, quoteText, List.cons_append, arrayElements_open, List.append_assoc,
          arrayElements_quoted, List.nil_append, List.singleton_append, arrayElements_close _ _ hc]
    · exact ⟨text.toList, false, hmake, by rw [hplain, arrayElements_run hall, List.nil_append]⟩

theorem intercalate_cons_cons (part next : List Char) (parts : List (List Char)) :
    List.intercalate [','] (part :: next :: parts) =
      part ++ ',' :: List.intercalate [','] (next :: parts) := by
  simp [List.intercalate]

/-- The elements are read, and what stands behind the brace is not. -/
theorem arrayElements_writeElements {list : List (Option String)} (hne : list ≠ [])
    (rest : List Char) :
    arrayElements [] false false (List.intercalate [','] (list.map writeElement) ++ '}' :: rest) =
      some list := by
  induction list with
  | nil => exact absurd rfl hne
  | cons element list ih =>
    cases list with
    | nil =>
      obtain ⟨cur, quoted, hmake, hread⟩ :=
        arrayElements_writeElement element (show '}' ≠ '"' by decide) rest
      have hone : List.intercalate [','] ([element].map writeElement) = writeElement element := by
        simp [List.intercalate]
      rw [hone, hread, arrayElements_brace, hmake]
    | cons next list =>
      have htail := ih (List.cons_ne_nil _ _)
      rw [List.map_cons] at htail
      obtain ⟨cur, quoted, hmake, hread⟩ := arrayElements_writeElement element
        (show ',' ≠ '"' by decide)
          (List.intercalate [','] (writeElement next :: list.map writeElement) ++ '}' :: rest)
      rw [List.map_cons, List.map_cons, intercalate_cons_cons, List.append_assoc, List.cons_append,
        hread, arrayElements_comma, htail, Option.map_some, hmake]

/-- An element begins with no brace. -/
theorem head_writeElement (element : Option String) :
    ∃ c rest, writeElement element = c :: rest ∧ c ≠ '{' ∧ c ≠ '}' := by
  cases element with
  | none => exact ⟨_, _, rfl, by decide, by decide⟩
  | some text =>
    obtain hquoted | ⟨hplain, hne, -, hall⟩ := writeElement_cases text
    · exact ⟨_, _, hquoted, by decide, by decide⟩
    · obtain ⟨c, rest, hcons⟩ := List.exists_cons_of_ne_nil hne
      have hc := hall c (hcons ▸ List.mem_cons_self)
      simp only [needsQuote, Bool.or_eq_false_iff, decide_eq_false_iff_not] at hc
      exact ⟨c, rest, hplain.trans hcons, hc.1.1.1.2, hc.1.1.2⟩

theorem toList_writeArray_cons (element : Option String) (list : List (Option String)) :
    ∃ c rest, (writeArray (element :: list)).toList = '{' :: c :: rest ∧ c ≠ '{' ∧ c ≠ '}' := by
  obtain ⟨c, rest, hhead, hopen, hclose⟩ := head_writeElement element
  refine ⟨c, ?_, ?_, hopen, hclose⟩
  · exact rest ++ (List.intercalate [','] ((element :: list).map writeElement)).drop
      (writeElement element).length ++ ['}']
  · rw [writeArray, String.toList_ofList, braced]
    cases list with
    | nil => simp [List.intercalate, hhead]
    | cons next list =>
      simp only [List.map_cons, intercalate_cons_cons, List.drop_left]
      simp [hhead]

/-- An array of one dimension is read as it was written. -/
theorem parseArrayLiteral_writeArray (list : List (Option String)) :
    parseArrayLiteral (writeArray list) = .ok list := by
  cases list with
  | nil => rfl
  | cons element list =>
    obtain ⟨c, rest, hlist, -, hclose⟩ := toList_writeArray_cons element list
    have hread := arrayElements_writeElements (List.cons_ne_nil element list) []
    have hbody : List.intercalate [','] ((element :: list).map writeElement) ++ ['}'] = c :: rest := by
      rw [writeArray, String.toList_ofList, braced] at hlist
      exact (List.cons.inj hlist).2
    rw [hbody] at hread
    rw [parseArrayLiteral, hlist]
    split
    · next heq => exact absurd (List.cons.inj (List.cons.inj heq).2).1 hclose
    · next heq =>
      rw [← (List.cons.inj heq).2, hread]
      rfl
    · next hother => exact absurd rfl (hother _)

/-! ## What is refused -/

/-- Where a scan of quotes is. -/
inductive QuoteState : Type where
  | outside : QuoteState
  | inside : QuoteState
  /-- behind a backslash in quotes -/
  | escaped : QuoteState
  deriving DecidableEq, Repr

/-- Whether a brace closes outside quotes. -/
def closes : QuoteState → List Char → Bool
  | _, [] => false
  | .outside, c :: rest =>
    if c = '}' then true else closes (if c = '"' then .inside else .outside) rest
  | .inside, c :: rest =>
    closes (if c = '"' then .outside else if c = '\\' then .escaped else .inside) rest
  | .escaped, _ :: rest => closes .inside rest

/-- Whether a text begins with a brace, and one closes behind it. -/
def Closed (text : String) : Prop :=
  ∃ rest, text.toList = '{' :: rest ∧ closes .outside rest = true

/-- There are elements where a brace closes: a doubled quote leaves the quotes and enters them. -/
theorem isSome_arrayElements (cur : List Char) (inQuotes quoted : Bool) (text : List Char) :
    (arrayElements cur inQuotes quoted text).isSome =
      closes (if inQuotes then .inside else .outside) text := by
  induction cur, inQuotes, quoted, text using arrayElements.induct with
  | case1 cur inQuotes quoted => simp [arrayElements, closes]
  | case2 cur inQuotes quoted c h => simp [arrayElements, closes, h]
  | case3 cur inQuotes quoted c h =>
    cases inQuotes with
    | false =>
      have hc : c ≠ '}' := fun heq => h ⟨rfl, heq⟩
      simp [arrayElements, closes, hc]
    | true => simp [arrayElements, closes]
  | case4 cur quoted rest ih => simp_all [arrayElements, closes]
  | case5 cur quoted next rest h ih => simp_all [arrayElements, closes]
  | case6 cur quoted next rest h ih => simp_all [arrayElements, closes]
  | case7 cur quoted c next rest h ih => simp_all [arrayElements, closes]
  | case8 cur quoted next rest h ih => simp_all [arrayElements, closes]
  | case9 cur quoted next rest h ih => simp_all [arrayElements, closes]
  | case10 cur quoted next rest h ih => simp_all [arrayElements, closes]
  | case11 cur quoted c next rest h ih => simp_all [arrayElements, closes]

/-- There is a list exactly where a brace opens and one closes. -/
theorem parseArrayLiteral_ok_iff {text : String} :
    (∃ list, parseArrayLiteral text = .ok list) ↔ Closed text := by
  have hopen : ∀ rest, text.toList = '{' :: rest → (Closed text ↔ closes .outside rest = true) := by
    intro rest heq
    constructor
    · rintro ⟨rest', heq', hcloses⟩
      rw [heq] at heq'
      rwa [(List.cons.inj heq').2]
    · exact fun hcloses => ⟨rest, heq, hcloses⟩
  rw [parseArrayLiteral]
  split
  · next heq => exact iff_of_true ⟨_, rfl⟩ ((hopen _ heq).mpr rfl)
  · next rest _ heq =>
    have hsome := isSome_arrayElements [] false false rest
    rw [if_neg Bool.noConfusion] at hsome
    rw [hopen _ heq, ← hsome]
    cases arrayElements [] false false rest with
    | none => exact iff_of_false (fun ⟨_, h⟩ => by cases h) Bool.noConfusion
    | some list => exact iff_of_true ⟨_, rfl⟩ rfl
  · next hother =>
    refine iff_of_false (fun h => ?_) fun h => ?_
    · obtain ⟨_, h⟩ := h
      cases h
    · obtain ⟨rest, heq, -⟩ := h
      exact hother rest heq

/-- An element leaves the scan outside quotes, and has no brace there. -/
theorem closes_writeElement (element : Option String) (rest : List Char) :
    closes .outside (writeElement element ++ rest) = closes .outside rest := by
  have hplain : ∀ text : List Char, (∀ c ∈ text, needsQuote c = false) →
      closes .outside (text ++ rest) = closes .outside rest := by
    intro text hall
    induction text with
    | nil => rfl
    | cons c text ih =>
      have hc := hall c List.mem_cons_self
      simp only [needsQuote, Bool.or_eq_false_iff, decide_eq_false_iff_not] at hc
      obtain ⟨⟨⟨⟨⟨hquote, -⟩, -⟩, hbrace⟩, -⟩, -⟩ := hc
      rw [List.cons_append, closes, if_neg hbrace, if_neg hquote]
      exact ih fun d hd => hall d (List.mem_cons_of_mem _ hd)
  have hquoted : ∀ (text : List Char), closes .inside (text.flatMap quoteChar ++ '"' :: rest) =
      closes .outside rest := by
    intro text
    induction text with
    | nil => rfl
    | cons c text ih =>
      rw [List.flatMap_cons, List.append_assoc, quoteChar]
      split
      · exact ih
      · next hc =>
        rw [List.singleton_append, closes, if_neg fun h => hc (.inl h), if_neg fun h => hc (.inr h)]
        exact ih
  cases element with
  | none => exact hplain _ (by simp [writeElement, needsQuote, isScannerSpace])
  | some text =>
    obtain hquote | ⟨hself, -, -, hall⟩ := writeElement_cases text
    · rw [hquote, quoteText, List.cons_append, List.append_assoc, List.singleton_append]
      exact hquoted text.toList
    · rw [hself]
      exact hplain _ hall

/-- Parts that leave a brace to be found leave the one behind all of them to be found. -/
theorem closes_braced {parts : List (List Char)}
    (h : ∀ part ∈ parts, ∀ rest, closes .outside rest = true →
      closes .outside (part ++ rest) = true) (rest : List Char) :
    closes .outside (braced parts ++ rest) = true := by
  have hparts : closes .outside (List.intercalate [','] parts ++ '}' :: rest) = true := by
    induction parts with
    | nil => rfl
    | cons part parts ih =>
      cases parts with
      | nil =>
        have hone : List.intercalate [','] [part] = part := by simp [List.intercalate]
        rw [hone]
        exact h part List.mem_cons_self _ rfl
      | cons next parts =>
        rw [intercalate_cons_cons, List.append_assoc]
        exact h part List.mem_cons_self _ (ih fun p hp => h p (List.mem_cons_of_mem _ hp))
  rw [braced, List.cons_append, List.append_assoc, List.singleton_append]
  exact hparts

theorem closes_writeDimensions (n : ℕ) (body : Dimensions n) {rest : List Char}
    (h : closes .outside rest = true) : closes .outside (writeDimensions n body ++ rest) = true := by
  induction n generalizing rest with
  | zero => exact (closes_writeElement body rest).trans h
  | succ n ih =>
    refine closes_braced (fun part hpart rest hrest => ?_) rest
    obtain ⟨item, -, rfl⟩ := List.mem_map.mp hpart
    exact ih item hrest

/-! ## Arrays -/

/-- What is promised of a text: what is written of a list is read as that list, and anything else
is refused. -/
def ReadExactly (text : String) : Prop :=
  (∀ list, text = writeArray list → parseArrayLiteral text = .ok list) ∧
    ((∀ list, text ≠ writeArray list) → ∃ e, parseArrayLiteral text = .error e)

theorem readExactly_iff (text : String) :
    ReadExactly text ↔ (∃ list, text = writeArray list) ∨ ¬Closed text := by
  have herror : (∃ e, parseArrayLiteral text = .error e) ↔ ¬Closed text := by
    rw [← parseArrayLiteral_ok_iff]
    cases parseArrayLiteral text with
    | error e => exact iff_of_true ⟨e, rfl⟩ fun ⟨_, h⟩ => by cases h
    | ok list => exact iff_of_false (fun ⟨_, h⟩ => by cases h) fun h => h ⟨list, rfl⟩
  have hread : ∀ list, text = writeArray list → parseArrayLiteral text = .ok list :=
    fun list heq => heq ▸ parseArrayLiteral_writeArray list
  rw [ReadExactly, herror, and_iff_right hread]
  constructor
  · intro h
    by_cases hflat : ∃ list, text = writeArray list
    · exact .inl hflat
    · exact .inr (h (not_exists.mp hflat))
  · rintro (⟨list, heq⟩ | hclosed) hnone
    · exact absurd heq (hnone list)
    · exact hclosed

/-- What has bounds ahead of it is refused, whatever follows. -/
theorem not_closed_writeBounds (bounds : List (ℤ × ℤ)) (rest : List Char) :
    ¬Closed (String.ofList (writeBounds bounds ++ rest)) := by
  rintro ⟨body, heq, -⟩
  rw [String.toList_ofList] at heq
  cases bounds with
  | nil => exact absurd (List.cons.inj heq).1 (by decide)
  | cons b bounds => exact absurd (List.cons.inj heq).1 (by decide)

/-- An array of arrays is read, up to the end of the first one. -/
theorem not_readExactly_nested (n : ℕ) (item : Dimensions (n + 1)) (items : List (Dimensions (n + 1))) :
    ¬ReadExactly (String.ofList (writeDimensions (n + 2) (item :: items))) := by
  rw [readExactly_iff]
  -- the text begins with two braces, which no list is written with
  have hfirst : ∀ body parts, ∃ rest,
      List.intercalate [','] (('{' :: body) :: parts) = '{' :: rest := by
    intro body parts
    cases parts with
    | nil => exact ⟨body, by simp [List.intercalate]⟩
    | cons next parts => exact ⟨_, intercalate_cons_cons ('{' :: body) next parts⟩
  obtain ⟨rest, hrest⟩ : ∃ rest, writeDimensions (n + 2) (item :: items) = '{' :: '{' :: rest := by
    obtain ⟨rest, hrest⟩ := hfirst _ (List.map (writeDimensions (n + 1)) items)
    exact ⟨rest ++ ['}'], congrArg (fun text => '{' :: (text ++ ['}'])) hrest⟩
  have hcloses : closes .outside (writeDimensions (n + 2) (item :: items) ++ []) = true := by
    refine closes_braced (fun part hpart rest hrest => ?_) []
    obtain ⟨inner, -, rfl⟩ := List.mem_map.mp hpart
    exact closes_writeDimensions (n + 1) inner hrest
  rw [List.append_nil, hrest] at hcloses
  rintro (⟨list, heq⟩ | hclosed)
  · have hlist := congrArg String.toList heq
    rw [String.toList_ofList, hrest] at hlist
    cases list with
    | nil => exact absurd (List.cons.inj (List.cons.inj hlist).2).1 (by decide)
    | cons element list =>
      obtain ⟨c, body, hcons, hopen, -⟩ := toList_writeArray_cons element list
      rw [hcons] at hlist
      exact hopen (List.cons.inj (List.cons.inj hlist).2).1.symm
  · refine hclosed ⟨'{' :: rest, by rw [String.toList_ofList, hrest], ?_⟩
    exact hcloses

/-- **Array literals are read exactly where they are of one dimension, and refused exactly where no
brace opens at the front or none closes outside quotes.** What has bounds is refused; an array of
arrays never is. -/
theorem array_literals_read_iff (text : String) (bounds : List (ℤ × ℤ)) (n : ℕ) (body : Dimensions n)
    (item : Dimensions (n + 1)) (items : List (Dimensions (n + 1))) :
    (ReadExactly text ↔ (∃ list, text = writeArray list) ∨ ¬Closed text) ∧
    ReadExactly (String.ofList (writeBounds bounds ++ writeDimensions n body)) ∧
    ¬ReadExactly (String.ofList (writeDimensions (n + 2) (item :: items))) :=
  ⟨readExactly_iff text, (readExactly_iff _).mpr (.inr (not_closed_writeBounds bounds _)),
    not_readExactly_nested n item items⟩

/-- An array of two rows is read as the first of them, with a brace in it. -/
theorem nested_array_read :
    writeDimensions 2 [[some "a", some "b"], [some "c", none]] =
      "\x7b\x7ba,b\x7d,\x7bc,NULL\x7d\x7d".toList ∧
    parseArrayLiteral "\x7b\x7ba,b\x7d,\x7bc,NULL\x7d\x7d" = .ok [some "\x7ba", some "b"] ∧
    ¬ReadExactly "\x7b\x7ba,b\x7d,\x7bc,NULL\x7d\x7d" := by
  refine ⟨by decide, by decide, ?_⟩
  exact not_readExactly_nested 0 [some "a", some "b"] [[some "c", none]]

end TypeMap

end Pg2osync
