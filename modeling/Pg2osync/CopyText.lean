import Pg2osync.Utf8

/-!
# Rows of a COPY

The server writes a row as a line, its columns with tabs between them, and puts a backslash ahead
of what would be taken for something else. Control characters have letters, and a NULL is `\N`. The
reader cuts what comes over the network at the newlines, a line at the tabs, and undoes the
backslashes: of the letters it knows `t`, `n` and `r`, and a line without any bytes it passes over.
-/

namespace Pg2osync

namespace Copy

open Encoding

/-! ## What the server writes -/

/-- The letter of a control character. -/
def controlLetter (c : Char) : Option Char :=
  if c = '\x08' then some 'b'
  else if c = '\x09' then some 't'
  else if c = '\x0a' then some 'n'
  else if c = '\x0b' then some 'v'
  else if c = '\x0c' then some 'f'
  else if c = '\x0d' then some 'r'
  else none

/-- A character as a column has it. -/
def escapeChar (c : Char) : List Char :=
  match controlLetter c with
  | some letter => ['\\', letter]
  | none => if c = '\\' then ['\\', '\\'] else [c]

def escapeText (text : List Char) : List Char :=
  text.flatMap escapeChar

/-- A column. -/
def writeField : Option String → List Char
  | none => ['\\', 'N']
  | some text => escapeText text.toList

/-- A row, without the newline that ends it. -/
def writeLine (fields : List (Option String)) : List Char :=
  List.intercalate ['\t'] (fields.map writeField)

/-- The bytes of some rows. -/
def writeRows (rows : List (List (Option String))) : List UInt8 :=
  rows.flatMap fun fields => (writeLine fields).flatMap String.utf8EncodeChar ++ [10]

/-! ## What the reader takes them for -/

/-- The character that a backslash and another one stand for. -/
def unescapeLetter (c : Char) : Char :=
  if c = 't' then '\t'
  else if c = 'n' then '\n'
  else if c = 'r' then '\r'
  -- the backslash itself is of these
  else c

def unescapeChars : List Char → List Char
  | [] => []
  | [c] => if c = '\\' then [] else [c]
  | c :: next :: rest =>
    if c = '\\' then unescapeLetter next :: unescapeChars rest
    else c :: unescapeChars (next :: rest)

/-- A column's bytes; `\N` is the NULL. -/
def unescapeCopy (field : String) : Option (List UInt8) :=
  if field = "\\N" then none
  else some ((unescapeChars field.toList).flatMap String.utf8EncodeChar)

/-- The columns of what is left of a line: `cur` is the one that is read, `escaped` whether a
backslash is ahead. -/
def splitChars (cur : List Char) (escaped : Bool) : List Char → List (List Char)
  | [] => [cur]
  | c :: rest =>
    if escaped then splitChars (cur ++ ['\\', c]) false rest
    else if c = '\\' then splitChars cur true rest
    else if c = '\t' then cur :: splitChars [] false rest
    else splitChars (cur ++ [c]) false rest

def splitCopyLine (line : String) : List String :=
  (splitChars [] false line.toList).map String.ofList

/-- The columns that `build_change` is given of a line. -/
def lineFields (line : List UInt8) : List (Option (List UInt8)) :=
  (splitCopyLine (Encoding.utf8Lossy line)).map unescapeCopy

/-- What a range sends: its rows, and a boundary now and then. -/
inductive RangeEvent : Type where
  | row (fields : List (Option (List UInt8))) : RangeEvent
  | boundary : RangeEvent
  deriving DecidableEq, Repr

def ROWS_PER_BOUNDARY : ℕ := 5000

/-- The lines that are complete, and what is ahead of the next newline. -/
def takeLines (pending : List UInt8) : List UInt8 → List (List UInt8) × List UInt8
  | [] => ([], pending)
  | b :: rest =>
    if b = 10 then (pending :: (takeLines [] rest).1, (takeLines [] rest).2)
    else takeLines (pending ++ [b]) rest

/-- One line: how many rows there were with it, and what it sends. -/
def sendLine (count : ℕ) (line : List UInt8) : ℕ × List RangeEvent :=
  if line = [] then (count, [])
  else (count + 1, .row (lineFields line) ::
    if (count + 1) % ROWS_PER_BOUNDARY = 0 then [.boundary] else [])

def sendLines : ℕ → List (List UInt8) → ℕ × List RangeEvent
  | count, [] => (count, [])
  | count, line :: lines =>
    ((sendLines (sendLine count line).1 lines).1,
      (sendLine count line).2 ++ (sendLines (sendLine count line).1 lines).2)

/-- A range: how many rows it had, and what it sent, from the chunks that come over the network. -/
def readRange (count : ℕ) (pending : List UInt8) : List (List UInt8) → ℕ × List RangeEvent
  | [] => (count, [])
  | chunk :: chunks =>
    let (lines, rest) := takeLines [] (pending ++ chunk)
    let (count, sent) := sendLines count lines
    let (total, more) := readRange count rest chunks
    (total, sent ++ more)

/-- The rows among what was sent. -/
def rowsSent (events : List RangeEvent) : List (List (Option (List UInt8))) :=
  events.filterMap fun
    | .row fields => some fields
    | .boundary => none

example : (readRange 0 [] [[49, 9, 92], [78, 10, 50, 9, 98, 10]]).2 =
    [.row [some [49], none], .row [some [50], some [98]]] := by decide

/-! ## Columns -/

/-- What the reader makes of a character: it does not know three of the letters. -/
def reread (c : Char) : Char :=
  if c = '\x08' then 'b' else if c = '\x0b' then 'v' else if c = '\x0c' then 'f' else c

/-- Whether a text has none of the characters whose letters are not known. -/
def Plain (text : String) : Prop :=
  ∀ c ∈ text.toList, c ≠ '\x08' ∧ c ≠ '\x0b' ∧ c ≠ '\x0c'

theorem reread_eq_self {c : Char} :
    reread c = c ↔ c ≠ '\x08' ∧ c ≠ '\x0b' ∧ c ≠ '\x0c' := by
  unfold reread
  split_ifs with hb hv hf
  · subst hb
    decide
  · subst hv
    decide
  · subst hf
    decide
  · exact iff_of_true rfl ⟨hb, hv, hf⟩

/-- A character is written as itself, or as a backslash and a letter that is no capital N. -/
theorem escapeChar_cases (c : Char) :
    (escapeChar c = [c] ∧ c ≠ '\\' ∧ c ≠ '\t' ∧ c ≠ '\n' ∧ reread c = c) ∨
      ∃ letter, escapeChar c = ['\\', letter] ∧ letter ≠ 'N' ∧ letter ≠ '\n' ∧
        unescapeLetter letter = reread c := by
  have hletter : ∀ d letter, c = d → escapeChar d = ['\\', letter] → letter ≠ 'N' → letter ≠ '\n' →
      unescapeLetter letter = reread d → ∃ letter, escapeChar c = ['\\', letter] ∧ letter ≠ 'N' ∧
        letter ≠ '\n' ∧ unescapeLetter letter = reread c := by
    rintro d letter rfl hpair hnull hline hread
    exact ⟨letter, hpair, hnull, hline, hread⟩
  by_cases hb : c = '\x08'
  · exact .inr (hletter _ 'b' hb (by decide) (by decide) (by decide) (by decide))
  by_cases ht : c = '\x09'
  · exact .inr (hletter _ 't' ht (by decide) (by decide) (by decide) (by decide))
  by_cases hn : c = '\x0a'
  · exact .inr (hletter _ 'n' hn (by decide) (by decide) (by decide) (by decide))
  by_cases hv : c = '\x0b'
  · exact .inr (hletter _ 'v' hv (by decide) (by decide) (by decide) (by decide))
  by_cases hf : c = '\x0c'
  · exact .inr (hletter _ 'f' hf (by decide) (by decide) (by decide) (by decide))
  by_cases hr : c = '\x0d'
  · exact .inr (hletter _ 'r' hr (by decide) (by decide) (by decide) (by decide))
  by_cases hs : c = '\\'
  · exact .inr (hletter _ '\\' hs (by decide) (by decide) (by decide) (by decide))
  have hnone : controlLetter c = none := by
    simp only [controlLetter, hb, ht, hn, hv, hf, hr, if_false]
  refine .inl ⟨?_, hs, ht, hn, reread_eq_self.mpr ⟨hb, hv, hf⟩⟩
  rw [escapeChar, hnone]
  exact if_neg hs

theorem unescapeChars_escape (letter : Char) (rest : List Char) :
    unescapeChars ('\\' :: letter :: rest) = unescapeLetter letter :: unescapeChars rest := by
  rw [unescapeChars, if_pos rfl]

theorem unescapeChars_plain {c : Char} (hc : c ≠ '\\') (rest : List Char) :
    unescapeChars (c :: rest) = c :: unescapeChars rest := by
  cases rest with
  | nil => exact if_neg hc
  | cons next rest => rw [unescapeChars, if_neg hc]

/-- The backslashes are undone, but for three letters. -/
theorem unescapeChars_escapeText (text : List Char) :
    unescapeChars (escapeText text) = text.map reread := by
  induction text with
  | nil => rfl
  | cons c text ih =>
    rw [escapeText, List.flatMap_cons]
    obtain ⟨hself, hslash, -, -, hreread⟩ | ⟨letter, hpair, -, -, hletter⟩ := escapeChar_cases c
    · rw [hself, List.singleton_append, unescapeChars_plain hslash, List.map_cons, hreread]
      exact congrArg _ ih
    · rw [hpair, List.cons_append, List.singleton_append, unescapeChars_escape, List.map_cons, hletter]
      exact congrArg _ ih

/-- No text is written the way a NULL is. -/
theorem escapeText_ne_null (text : List Char) : escapeText text ≠ ['\\', 'N'] := by
  cases text with
  | nil => exact fun h => by cases h
  | cons c text =>
    rw [escapeText, List.flatMap_cons]
    obtain ⟨hself, hslash, -⟩ | ⟨letter, hpair, hletter, -⟩ := escapeChar_cases c
    · rw [hself]
      exact fun h => hslash (List.cons.inj h).1
    · rw [hpair]
      exact fun h => hletter (List.cons.inj (List.cons.inj h).2).1

/-- What is read of a column. -/
theorem unescapeCopy_writeField (field : Option String) :
    unescapeCopy (String.ofList (writeField field)) =
      field.map fun text => (text.toList.map reread).flatMap String.utf8EncodeChar := by
  cases field with
  | none => rfl
  | some text =>
    have hnull : String.ofList (writeField (some text)) ≠ "\\N" := fun h => by
      have hlist := congrArg String.toList h
      rw [String.toList_ofList] at hlist
      exact escapeText_ne_null _ hlist
    rw [unescapeCopy, if_neg hnull, String.toList_ofList, writeField, unescapeChars_escapeText]
    rfl

/-- The bytes of a text are of no other text. -/
theorem encode_injective {text text' : List Char}
    (h : text.flatMap String.utf8EncodeChar = text'.flatMap String.utf8EncodeChar) :
    text = text' := by
  have hback : ∀ text : List Char,
      utf8Lossy (text.flatMap String.utf8EncodeChar) = String.ofList text := fun text => by
    have hread := utf8Lossy_utf8Bytes (String.ofList text)
    rwa [utf8Bytes, String.toList_ofList] at hread
  have hsame := congrArg utf8Lossy h
  rw [hback, hback] at hsame
  exact String.ofList_injective hsame

/-- **A column is read as it was written where it has none of three characters.** -/
theorem field_read_iff (field : Option String) :
    unescapeCopy (String.ofList (writeField field)) = field.map utf8Bytes ↔
      ∀ text, field = some text → Plain text := by
  rw [unescapeCopy_writeField]
  cases field with
  | none => exact iff_of_true rfl fun text h => by cases h
  | some text =>
    have hmap : text.toList.map reread = text.toList ↔ Plain text := by
      conv_lhs => rhs; rw [← List.map_id text.toList]
      rw [List.map_inj_left]
      exact forall₂_congr fun c _ => reread_eq_self
    constructor
    · rintro h text' heq
      cases heq
      exact hmap.mp (encode_injective (Option.some.inj h))
    · intro h
      rw [Option.map_some, hmap.mpr (h text rfl)]
      rfl

/-! ## Lines -/

/-- A column is kept through the split, its backslashes too. -/
theorem splitChars_escapeText (text cur rest : List Char) :
    splitChars cur false (escapeText text ++ rest) =
      splitChars (cur ++ escapeText text) false rest := by
  induction text generalizing cur with
  | nil => rw [escapeText, List.flatMap_nil, List.nil_append, List.append_nil]
  | cons c text ih =>
    have hcons : escapeText (c :: text) = escapeChar c ++ escapeText text := List.flatMap_cons
    rw [hcons]
    obtain ⟨hself, hslash, htab, -⟩ | ⟨letter, hpair, -⟩ := escapeChar_cases c
    · rw [hself, List.singleton_append, List.cons_append, splitChars, if_neg Bool.noConfusion,
        if_neg hslash, if_neg htab, ih, List.append_assoc, List.singleton_append]
    · rw [hpair, List.cons_append, List.singleton_append, List.cons_append, List.cons_append,
        splitChars, if_neg Bool.noConfusion, if_pos rfl, splitChars, if_pos rfl, ih,
        List.append_assoc, List.cons_append, List.singleton_append]

theorem splitChars_writeField (field : Option String) (cur rest : List Char) :
    splitChars cur false (writeField field ++ rest) =
      splitChars (cur ++ writeField field) false rest := by
  cases field with
  | none => rfl
  | some text => exact splitChars_escapeText text.toList cur rest

variable {fields : List (Option String)}

/-- A line is split where it was joined. -/
theorem splitChars_writeLine (hne : fields ≠ []) :
    splitChars [] false (writeLine fields) = fields.map writeField := by
  induction fields with
  | nil => exact absurd rfl hne
  | cons field fields ih =>
    have hfield := splitChars_writeField field []
    cases fields with
    | nil =>
      have hline : writeLine [field] = writeField field := by
        simp [writeLine, List.intercalate]
      have hlast := hfield []
      rw [List.append_nil] at hlast
      rw [hline, hlast]
      rfl
    | cons next fields =>
      have hjoin : writeLine (field :: next :: fields) =
          writeField field ++ '\t' :: writeLine (next :: fields) := by
        simp [writeLine, List.intercalate]
      rw [hjoin, hfield, List.nil_append, splitChars, if_neg Bool.noConfusion,
        if_neg (by decide), if_pos rfl, ih (List.cons_ne_nil _ _)]
      rfl

/-- What is read of a line that has columns. -/
theorem fields_writeLine (hne : fields ≠ []) :
    (splitCopyLine (String.ofList (writeLine fields))).map unescapeCopy =
      fields.map fun field => unescapeCopy (String.ofList (writeField field)) := by
  rw [splitCopyLine, String.toList_ofList, splitChars_writeLine hne, List.map_map, List.map_map]
  rfl

/-- Whether a row has columns, and all of them are read as they were written. -/
def Readable (fields : List (Option String)) : Prop :=
  fields ≠ [] ∧ ∀ text, some text ∈ fields → Plain text

/-- **A line is read as it was written exactly where it is readable.** -/
theorem line_read_iff (fields : List (Option String)) :
    (splitCopyLine (String.ofList (writeLine fields))).map unescapeCopy =
      fields.map (Option.map utf8Bytes) ↔ Readable fields := by
  rcases eq_or_ne fields [] with rfl | hne
  · exact iff_of_false (by decide) fun h => h.1 rfl
  · rw [fields_writeLine hne, List.map_inj_left, Readable, and_iff_right hne]
    constructor
    · exact fun h text htext => (field_read_iff _).mp (h _ htext) text rfl
    · exact fun h field hfield => (field_read_iff _).mpr fun text heq => h text (heq ▸ hfield)

/-! ## Chunks -/

theorem takeLines_notMem {bytes : List UInt8} (h : (10 : UInt8) ∉ bytes)
    (pending rest : List UInt8) :
    takeLines pending (bytes ++ rest) = takeLines (pending ++ bytes) rest := by
  induction bytes generalizing pending with
  | nil => rw [List.nil_append, List.append_nil]
  | cons b bytes ih =>
    have hb : b ≠ 10 := fun heq => h (heq ▸ List.mem_cons_self)
    rw [List.cons_append, takeLines, if_neg hb, ih fun hmem => h (List.mem_cons_of_mem _ hmem),
      List.append_assoc, List.singleton_append]

/-- What is left ahead of the next newline has none in it. -/
theorem notMem_rest {pending : List UInt8} (h : (10 : UInt8) ∉ pending) (bytes : List UInt8) :
    (10 : UInt8) ∉ (takeLines pending bytes).2 := by
  induction bytes generalizing pending with
  | nil => exact h
  | cons b bytes ih =>
    rw [takeLines]
    split
    · exact ih List.not_mem_nil
    · next hb =>
      refine ih fun hmem => ?_
      rcases List.mem_append.mp hmem with hmem | hmem
      · exact h hmem
      · exact hb (List.mem_singleton.mp hmem).symm

/-- Lines are taken of the first bytes, and then of the others behind what is left. -/
theorem takeLines_append (pending bytes more : List UInt8) :
    takeLines pending (bytes ++ more) = ((takeLines pending bytes).1 ++
      (takeLines (takeLines pending bytes).2 more).1, (takeLines (takeLines pending bytes).2 more).2) := by
  induction bytes generalizing pending with
  | nil => rfl
  | cons b bytes ih =>
    rw [List.cons_append, takeLines, takeLines]
    split
    · rw [ih, List.cons_append]
    · exact ih _

theorem sendLines_append (count : ℕ) (lines more : List (List UInt8)) :
    sendLines count (lines ++ more) = ((sendLines (sendLines count lines).1 more).1,
      (sendLines count lines).2 ++ (sendLines (sendLines count lines).1 more).2) := by
  induction lines generalizing count with
  | nil => rfl
  | cons line lines ih => rw [List.cons_append, sendLines, ih, sendLines, List.append_assoc]

/-- **Where the bytes are cut over the network makes no difference**: a range sends what the lines
of all its bytes give. -/
theorem readRange_eq {pending : List UInt8} (h : (10 : UInt8) ∉ pending) (count : ℕ)
    (chunks : List (List UInt8)) :
    readRange count pending chunks = sendLines count (takeLines pending chunks.flatten).1 := by
  induction chunks generalizing count pending with
  | nil => rfl
  | cons chunk chunks ih =>
    -- what was left is read again with the chunk, and has no newline
    have hagain : takeLines [] (pending ++ chunk) = takeLines pending chunk :=
      takeLines_notMem h [] chunk
    rw [readRange, hagain, List.flatten_cons, takeLines_append, sendLines_append]
    dsimp only
    rw [ih (notMem_rest h chunk)]

/-- A line that is written has no newline in it. -/
theorem newline_notMem_writeLine (fields : List (Option String)) : '\n' ∉ writeLine fields := by
  have hchar : ∀ c, '\n' ∉ escapeChar c := fun c hmem => by
    obtain ⟨hself, -, -, hline, -⟩ | ⟨letter, hpair, -, hline, -⟩ := escapeChar_cases c
    · rw [hself] at hmem
      exact hline (List.mem_singleton.mp hmem).symm
    · rw [hpair] at hmem
      simp only [List.mem_cons, List.not_mem_nil, or_false] at hmem
      exact hmem.elim (by decide) fun heq => hline heq.symm
  have hfield : ∀ field, '\n' ∉ writeField field := fun field => by
    cases field with
    | none => simp [writeField]
    | some text =>
      intro hmem
      obtain ⟨c, -, hc⟩ := List.mem_flatMap.mp hmem
      exact hchar c hc
  induction fields with
  | nil => exact List.not_mem_nil
  | cons field fields ih =>
    cases fields with
    | nil => simpa [writeLine, List.intercalate] using hfield field
    | cons next fields =>
      have hjoin : writeLine (field :: next :: fields) =
          writeField field ++ '\t' :: writeLine (next :: fields) := by
        simp [writeLine, List.intercalate]
      rw [hjoin]
      intro hmem
      rcases List.mem_append.mp hmem with hmem | hmem
      · exact hfield field hmem
      · rcases List.mem_cons.mp hmem with heq | hmem
        · exact absurd heq (by decide)
        · exact ih hmem

/-- The lines of the rows are taken one by one, and nothing is left. -/
theorem takeLines_writeRows (rows : List (List (Option String))) :
    takeLines [] (writeRows rows) =
      (rows.map fun fields => (writeLine fields).flatMap String.utf8EncodeChar, []) := by
  induction rows with
  | nil => rfl
  | cons fields rows ih =>
    have hline : (10 : UInt8) ∉ (writeLine fields).flatMap String.utf8EncodeChar := fun hmem => by
      obtain ⟨c, hc, hbyte⟩ := List.mem_flatMap.mp hmem
      have hnewline : c = '\n' :=
        Char.toNat_inj.mp (toNat_of_mem_utf8EncodeChar hbyte (by decide))
      exact newline_notMem_writeLine fields (hnewline ▸ hc)
    have hcons : writeRows (fields :: rows) =
        (writeLine fields).flatMap String.utf8EncodeChar ++ 10 :: writeRows rows := by
      rw [writeRows, List.flatMap_cons, List.append_assoc]
      rfl
    rw [hcons, takeLines_notMem hline, List.nil_append, takeLines, if_pos rfl, ih]
    rfl

theorem rowsSent_sendLines (count : ℕ) (lines : List (List UInt8)) :
    rowsSent (sendLines count lines).2 = (lines.filter fun line => line ≠ []).map lineFields := by
  induction lines generalizing count with
  | nil => rfl
  | cons line lines ih =>
    rw [sendLines, rowsSent, List.filterMap_append]
    have hrest := ih (sendLine count line).1
    rw [rowsSent] at hrest
    rw [hrest, sendLine]
    split
    · next hempty =>
      rw [List.filter_cons_of_neg (by simpa using hempty)]
      rfl
    · next hline =>
      rw [List.filter_cons_of_pos (by simpa using hline), List.map_cons]
      dsimp only
      split <;> rfl

theorem lineFields_writeLine (fields : List (Option String)) :
    lineFields ((writeLine fields).flatMap String.utf8EncodeChar) =
      (splitCopyLine (String.ofList (writeLine fields))).map unescapeCopy := by
  have hread := utf8Lossy_utf8Bytes (String.ofList (writeLine fields))
  rw [utf8Bytes, String.toList_ofList] at hread
  rw [lineFields, hread]

/-! ## Rows -/

/-- A list is that of some other values where each of them is kept and is its own. -/
theorem map_filter_eq_map {α β : Type} (keep : α → Bool) (f g : α → β) (list : List α) :
    (list.filter keep).map f = list.map g ↔ ∀ x ∈ list, keep x = true ∧ f x = g x := by
  constructor
  · intro h
    have hlength := congrArg List.length h
    rw [List.length_map, List.length_map] at hlength
    have hall := List.length_filter_eq_length_iff.mp hlength
    rw [List.filter_eq_self.mpr hall, List.map_inj_left] at h
    exact fun x hx => ⟨hall x hx, h x hx⟩
  · intro h
    rw [List.filter_eq_self.mpr fun x hx => (h x hx).1, List.map_inj_left]
    exact fun x hx => (h x hx).2

/-- A line without any bytes is that of no columns, or of one empty text. -/
theorem writeLine_eq_nil : writeLine fields = [] ↔ fields = [] ∨ fields = [some ""] := by
  constructor
  · intro h
    cases fields with
    | nil => exact .inl rfl
    | cons field fields =>
      cases fields with
      | nil =>
        have hfield : writeField field = [] := by simpa [writeLine, List.intercalate] using h
        cases field with
        | none => cases hfield
        | some text =>
          have hreread := unescapeChars_escapeText text.toList
          rw [show escapeText text.toList = [] from hfield] at hreread
          have hempty : text.toList = [] := List.map_eq_nil_iff.mp hreread.symm
          exact .inr (by rw [String.toList_eq_nil_iff.mp hempty])
      | cons next fields => simp [writeLine, List.intercalate] at h
  · rintro (rfl | rfl)
    · rfl
    · rfl

theorem encode_eq_nil {text : List Char} : text.flatMap String.utf8EncodeChar = [] ↔ text = [] :=
  ⟨fun h => encode_injective (h.trans List.flatMap_nil.symm), fun h => h ▸ List.flatMap_nil⟩

/-- **A COPY is read back exactly where its rows have columns, no row is one empty text and no text
has one of three control characters**: a line, and all rows of a range, however the network cuts
them. -/
theorem copy_read_back_iff (fields : List (Option String)) (rows : List (List (Option String)))
    (chunks : List (List UInt8)) :
    ((splitCopyLine (String.ofList (writeLine fields))).map unescapeCopy =
      fields.map (Option.map Encoding.utf8Bytes) ↔ Readable fields) ∧
    readRange 0 [] chunks = readRange 0 [] [chunks.flatten] ∧
    (rowsSent (readRange 0 [] [writeRows rows]).2 =
      rows.map (List.map (Option.map Encoding.utf8Bytes)) ↔
        ∀ fields ∈ rows, Readable fields ∧ fields ≠ [some ""]) := by
  refine ⟨line_read_iff fields, ?_, ?_⟩
  · rw [readRange_eq List.not_mem_nil, readRange_eq List.not_mem_nil, List.flatten_singleton]
  · rw [readRange_eq List.not_mem_nil, List.flatten_singleton, takeLines_writeRows,
      rowsSent_sendLines, List.filter_map, List.map_map, map_filter_eq_map]
    refine forall₂_congr fun fields _ => ?_
    have hkept : ((fun line => decide (line ≠ [])) ∘ fun fields : List (Option String) =>
        (writeLine fields).flatMap String.utf8EncodeChar) fields = true ↔
          ¬(fields = [] ∨ fields = [some ""]) := by
      rw [Function.comp_apply, decide_eq_true_iff, Ne, encode_eq_nil, writeLine_eq_nil]
    rw [hkept, Function.comp_apply, lineFields_writeLine, line_read_iff]
    constructor
    · exact fun h => ⟨h.2, fun heq => h.1 (.inr heq)⟩
    · exact fun h => ⟨fun hempty => hempty.elim h.1.1 h.2, h.1⟩

/-- A form feed is read as a letter, and a row of one empty text is lost. -/
theorem copy_not_read_back :
    ((splitCopyLine (String.ofList (writeLine [some "a\x0cb"]))).map unescapeCopy = [some [97, 102, 98]] ∧
      [some "a\x0cb"].map (Option.map Encoding.utf8Bytes) = [some [97, 12, 98]]) ∧
    (rowsSent (readRange 0 [] [writeRows [[some ""], [some "x"]]]).2 = [[some [120]]] ∧
      [[some ""], [some "x"]].map (List.map (Option.map Encoding.utf8Bytes)) =
        [[some []], [some [120]]]) := by
  decide

end Copy

end Pg2osync
