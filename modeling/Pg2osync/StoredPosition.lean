import Pg2osync.GtidTracker

/-!
# Positions a checkpoint stores

A checkpoint of a MySQL source stores its position as one text: the file and the offset, and
behind them, each only if there is one, what was consumed and the base of its versions. The text
is split where it has semicolons, so it is read back as what was written as long as the name of
the binlog has none.
-/

namespace Pg2osync

namespace MySql

open Encoding

/-! ## Writing and reading -/

/-- `position_text_full`. -/
def positionTextFull (stem : String) (token base : ℕ) (gtid : Option (List Char)) : List Char :=
  positionText stem (token - base) ++
    ((match gtid with
      | some gtid => [';', 'g', 't', 'i', 'd', '='] ++ gtid
      | none => []) ++
    if 0 < base then [';', 'b', 'a', 's', 'e', '='] ++ Nat.toDigits 10 base else [])

/-- `StoredPosition`, as its text has it. -/
structure ParsedPosition : Type where
  /-- the file of the binlog -/
  file : List Char
  /-- where in it -/
  pos : ℕ
  /-- what was consumed -/
  gtid : Option ConsumedPosition
  /-- what is added to every coordinate -/
  base : ℕ
  deriving DecidableEq

/-- `token`. -/
def ParsedPosition.token (stored : ParsedPosition) : ℕ :=
  saturatingAdd stored.base (positionToken ⟨binlogIndex (String.ofList stored.file), stored.pos⟩)

/-- A field behind the coordinate; one that is not known is passed over. -/
def readField (stored : ParsedPosition) (field : List Char) : ParsedPosition :=
  match splitOnce '=' field with
  | some (key, value) =>
    if key = ['g', 't', 'i', 'd'] then { stored with gtid := ConsumedPosition.parse value }
    else if key = ['b', 'a', 's', 'e'] then
      { stored with base := (parseUnsigned 64 (trim value)).getD 0 }
    else stored
  | none => stored

/-- `parse_stored_position`. -/
def parseStoredPosition (text : List Char) : Option ParsedPosition :=
  match text.splitOn ';' with
  | [] => none
  | coordinate :: fields =>
    (Encoding.rsplitOnce ':' coordinate).bind fun (file, pos) =>
      (parseU32 (trim pos)).map fun pos =>
        fields.foldl readField { file, pos, gtid := none, base := 0 }

/-! ## Positions of MariaDB, there and back -/

variable {c : Char}

namespace MariaGtidPos

/-- A domain whose numbers have the widths of the server's. -/
def Fits (e : ℕ × ℕ × ℕ) : Prop :=
  e.1 < 2 ^ 32 ∧ e.2.1 < 2 ^ 32 ∧ e.2.2 < 2 ^ 64

instance (e : ℕ × ℕ × ℕ) : Decidable (Fits e) :=
  inferInstanceAs (Decidable (_ ∧ _))

theorem mem_entryText {e : ℕ × ℕ × ℕ} (hc : c ∈ entryText e) : c.isDigit = true ∨ c = '-' := by
  rcases List.mem_append.mp hc with hc | hc
  · exact .inl (isDigit_toDigits hc)
  · rcases List.mem_cons.mp hc with hc | hc
    · exact .inr hc
    · rcases List.mem_append.mp hc with hc | hc
      · exact .inl (isDigit_toDigits hc)
      · rcases List.mem_cons.mp hc with hc | hc
        · exact .inr hc
        · exact .inl (isDigit_toDigits hc)

theorem entryText_eq (e : ℕ × ℕ × ℕ) : entryText e = ['-'].intercalate
    [Nat.toDigits 10 e.1, Nat.toDigits 10 e.2.1, Nat.toDigits 10 e.2.2] := by
  simp [entryText, List.intercalate_cons_cons]

theorem entryText_ne_nil (e : ℕ × ℕ × ℕ) : entryText e ≠ [] :=
  List.append_ne_nil_of_right_ne_nil _ (List.cons_ne_nil _ _)

theorem trim_entryText (e : ℕ × ℕ × ℕ) : trim (entryText e) = entryText e :=
  trim_eq_self fun c hc => by
    rcases mem_entryText hc with hc | rfl
    · exact isWhitespace_of_isDigit hc
    · rfl

theorem readEntry_entryText (pos : MariaGtidPos) {e : ℕ × ℕ × ℕ} (h : Fits e) :
    readEntry pos (entryText e) = some ⟨pos.domains.insert e.1 e.2⟩ := by
  have hdash : ∀ part ∈ [Nat.toDigits 10 e.1, Nat.toDigits 10 e.2.1, Nat.toDigits 10 e.2.2],
      '-' ∉ part := by
    simp [notMem_toDigits]
  rw [readEntry, entryText_eq, List.splitOn_intercalate '-' hdash (List.cons_ne_nil _ _)]
  simp only [MySqlGtidSet.trim_toDigits, parseUnsigned_toDigits h.1, parseUnsigned_toDigits h.2.1,
    parseUnsigned_toDigits h.2.2, Option.bind_some, Option.map_some]

theorem foldlM_readEntry (pos : MariaGtidPos) {entries : List (ℕ × ℕ × ℕ)}
    (h : ∀ e ∈ entries, Fits e) : (entries.map entryText).foldlM readEntry pos =
      some ⟨entries.foldl (fun d e => d.insert e.1 e.2) pos.domains⟩ := by
  induction entries generalizing pos with
  | nil => rfl
  | cons e entries ih =>
    obtain ⟨he, hentries⟩ := List.forall_mem_cons.mp h
    rw [List.map_cons, List.foldlM_cons, readEntry_entryText pos he]
    exact ih _ hentries

/-- **A position of MariaDB is read back from its text.** -/
theorem parse_toText {pos : MariaGtidPos} (h : ∀ e ∈ pos.domains.entries, Fits e)
    (hsome : pos.isEmpty = false) : parse pos.toText = some pos := by
  have hentries : pos.domains.entries.map entryText ≠ [] := by
    intro hnil
    rw [List.map_eq_nil_iff] at hnil
    rw [isEmpty, Dictionary.isEmpty, hnil] at hsome
    cases hsome
  have hcomma : ∀ t ∈ pos.domains.entries.map entryText, ',' ∉ t := by
    intro t ht hmem
    obtain ⟨e, -, rfl⟩ := List.mem_map.mp ht
    rcases mem_entryText hmem with hc | hc <;> cases hc
  have htrimmed : (pos.domains.entries.map entryText).map trim =
      pos.domains.entries.map entryText := by
    rw [List.map_map]
    exact List.map_congr_left fun e _ => trim_entryText e
  have hfilled : ∀ t ∈ pos.domains.entries.map entryText, decide (t ≠ []) = true := by
    intro t ht
    obtain ⟨e, -, rfl⟩ := List.mem_map.mp ht
    exact decide_eq_true (entryText_ne_nil e)
  have hsame : (⟨pos.domains.entries.foldl (fun d e => d.insert e.1 e.2) empty.domains⟩ :
      MariaGtidPos) = pos := congrArg MariaGtidPos.mk (Dictionary.ofList_entries pos.domains)
  rw [parse, toText, List.splitOn_intercalate ',' hcomma hentries, htrimmed,
    List.filter_eq_self.mpr hfilled, foldlM_readEntry _ h, hsame, Option.filter_some, hsome]
  rfl

end MariaGtidPos

/-! ## Positions of either server, there and back -/

namespace ConsumedPosition

/-- A position whose text a checkpoint can carry: there is something in it, and its names and
numbers are those of a server. -/
def Rendered : ConsumedPosition → Prop
  | .mySql set => set.isEmpty = false ∧ set.Proper ∧
      ∀ uuid ∈ set.uuids.keys, MySqlGtidSet.IsUuid uuid
  | .mariaDb pos => pos.isEmpty = false ∧ ∀ e ∈ pos.domains.entries, MariaGtidPos.Fits e

theorem mem_intercalate_of_mem {texts : List (List Char)} {t : List Char} (ht : t ∈ texts)
    (hc : c ∈ t) : c ∈ [','].intercalate texts := by
  induction texts with
  | nil => cases ht
  | cons u texts ih =>
    cases texts with
    | nil =>
      rw [List.intercalate_singleton]
      exact List.mem_singleton.mp ht ▸ hc
    | cons v texts =>
      rw [List.intercalate_cons_cons]
      rcases List.mem_cons.mp ht with rfl | ht
      · exact List.mem_append_left _ (List.mem_append_left _ hc)
      · exact List.mem_append_right _ (ih ht)

theorem mem_intercalate {texts : List (List Char)} (hc : c ∈ [','].intercalate texts) :
    c = ',' ∨ ∃ t ∈ texts, c ∈ t := by
  induction texts with
  | nil => cases hc
  | cons t texts ih =>
    cases texts with
    | nil =>
      rw [List.intercalate_singleton] at hc
      exact .inr ⟨t, List.mem_cons_self, hc⟩
    | cons t' texts =>
      rw [List.intercalate_cons_cons] at hc
      rcases List.mem_append.mp hc with hc | hc
      · rcases List.mem_append.mp hc with hc | hc
        · exact .inr ⟨t, List.mem_cons_self, hc⟩
        · exact .inl (List.mem_singleton.mp hc)
      · rcases ih hc with hc | ⟨u, hu, hc⟩
        · exact .inl hc
        · exact .inr ⟨u, List.mem_cons_of_mem _ hu, hc⟩

variable {position : ConsumedPosition}

/-- What the characters of a position's text are. -/
theorem Rendered.chars (h : position.Rendered) (hc : c ∈ position.toText) :
    c = ',' ∨ c = ':' ∨ c = '-' ∨ (hexValue c).isSome = true := by
  have hdigit : ∀ {c : Char}, c.isDigit = true → (hexValue c).isSome = true := by
    intro c hc
    rw [hexValue, if_pos hc]
    rfl
  cases position with
  | mySql set =>
    rcases mem_intercalate hc with hc | ⟨t, ht, hc⟩
    · exact .inl hc
    · obtain ⟨e, he, rfl⟩ := List.mem_map.mp ht
      rcases List.mem_append.mp hc with hc | hc
      · rcases (h.2.2 e.1 (List.mem_map_of_mem he)).2 c hc with hc | hc
        · exact .inr (.inr (.inl hc))
        · exact .inr (.inr (.inr hc))
      · obtain ⟨r, -, hc⟩ := List.mem_flatMap.mp hc
        rcases List.mem_cons.mp hc with hc | hc
        · exact .inr (.inl hc)
        · rcases MySqlGtidSet.mem_rangeText hc with hc | hc
          · exact .inr (.inr (.inr (hdigit hc)))
          · exact .inr (.inr (.inl hc))
  | mariaDb pos =>
    rcases mem_intercalate hc with hc | ⟨t, ht, hc⟩
    · exact .inl hc
    · obtain ⟨e, -, rfl⟩ := List.mem_map.mp ht
      rcases MariaGtidPos.mem_entryText hc with hc | hc
      · exact .inr (.inr (.inr (hdigit hc)))
      · exact .inr (.inr (.inl hc))

theorem Rendered.isWhitespace (h : position.Rendered) :
    ∀ c ∈ position.toText, isWhitespace c = false := by
  intro c hc
  rcases h.chars hc with rfl | rfl | rfl | hhex
  · rfl
  · rfl
  · rfl
  · exact MySqlGtidSet.isWhitespace_of_hexValue hhex

/-- The text of MySQL has a colon. -/
theorem colon_mem_mySql {set : MySqlGtidSet} (h : set.Proper) (hsome : set.isEmpty = false) :
    ':' ∈ set.toText := by
  cases hentries : set.uuids.entries with
  | nil =>
    rw [MySqlGtidSet.isEmpty, Dictionary.isEmpty, hentries] at hsome
    cases hsome
  | cons e rest =>
    obtain ⟨uuid, l⟩ := e
    have hmem : (uuid, l) ∈ set.uuids.entries := hentries ▸ List.mem_cons_self
    cases l with
    | nil => exact absurd (Dictionary.mem_entries_iff.mp hmem) (h.nonempty uuid)
    | cons r l =>
      refine mem_intercalate_of_mem (List.mem_map_of_mem hmem) (List.mem_append_right _ ?_)
      exact List.mem_flatMap.mpr ⟨r, List.mem_cons_self, List.mem_cons_self⟩

/-- The text of MariaDB has none. -/
theorem colon_notMem_mariaDb (pos : MariaGtidPos) : ':' ∉ pos.toText := by
  intro hc
  rcases mem_intercalate hc with hc | ⟨t, ht, hc⟩
  · cases hc
  · obtain ⟨e, -, rfl⟩ := List.mem_map.mp ht
    rcases MariaGtidPos.mem_entryText hc with hc | hc <;> cases hc

theorem toText_ne_nil_of_mariaDb {pos : MariaGtidPos} (hsome : pos.isEmpty = false) :
    pos.toText ≠ [] := by
  cases hentries : pos.domains.entries with
  | nil =>
    rw [MariaGtidPos.isEmpty, Dictionary.isEmpty, hentries] at hsome
    cases hsome
  | cons e rest =>
    have hmem : e ∈ pos.domains.entries := hentries ▸ List.mem_cons_self
    exact List.ne_nil_of_mem (mem_intercalate_of_mem (List.mem_map_of_mem hmem)
      (List.mem_append_right _ List.mem_cons_self))

/-- **A position is read back from its text.** -/
theorem Rendered.parse_toText (h : position.Rendered) : parse position.toText = some position := by
  rw [parse, trim_eq_self h.isWhitespace]
  cases position with
  | mySql set =>
    obtain ⟨hsome, hproper, huuids⟩ := h
    have hcolon := colon_mem_mySql hproper hsome
    rw [toText, if_neg (List.ne_nil_of_mem hcolon), if_pos hcolon,
      hproper.parse_toText huuids hsome]
    rfl
  | mariaDb pos =>
    obtain ⟨hsome, hfits⟩ := h
    rw [toText, if_neg (toText_ne_nil_of_mariaDb hsome), if_neg (colon_notMem_mariaDb pos),
      MariaGtidPos.parse_toText hfits hsome]
    rfl

/-- A position's text ends neither a field nor the coordinate. -/
theorem Rendered.notMem (h : position.Rendered) : ';' ∉ position.toText := by
  intro hc
  rcases h.chars hc with hc | hc | hc | hc <;> cases hc

end ConsumedPosition

/-! ## The whole text, there and back -/

/-- What a stored position has to keep of what was written. -/
structure Survives (stem : String) (token base : ℕ) (gtid : Option ConsumedPosition)
    (stored : ParsedPosition) : Prop where
  file : stored.file = binlogFile stem ((token - base) >>> 32)
  pos : stored.pos = (token - base) % 2 ^ 32
  gtid : stored.gtid.map ConsumedPosition.toText = gtid.map ConsumedPosition.toText
  base : stored.base = base
  token : stored.token = token

variable {stem : String} {token base : ℕ} {gtid : Option ConsumedPosition}

/-- The fields behind the coordinate. -/
def fieldsOf (base : ℕ) (gtid : Option (List Char)) : List (List Char) :=
  (gtid.map fun gtid => ['g', 't', 'i', 'd', '='] ++ gtid).toList ++
    if 0 < base then [['b', 'a', 's', 'e', '='] ++ Nat.toDigits 10 base] else []

theorem positionTextFull_eq (stem : String) (token base : ℕ) (gtid : Option (List Char)) :
    positionTextFull stem token base gtid =
      [';'].intercalate (positionText stem (token - base) :: fieldsOf base gtid) := by
  rw [fieldsOf]
  cases gtid <;> by_cases hbase : 0 < base <;>
    simp [positionTextFull, hbase, List.intercalate_cons_cons]

theorem readField_file (stored : ParsedPosition) (field : List Char) :
    (readField stored field).file = stored.file := by
  rw [readField]
  split
  · split
    · rfl
    · split
      · rfl
      · rfl
  · rfl

theorem foldl_readField_file (stored : ParsedPosition) (fields : List (List Char)) :
    (fields.foldl readField stored).file = stored.file := by
  induction fields generalizing stored with
  | nil => rfl
  | cons field fields ih => exact (ih (readField stored field)).trans (readField_file stored field)

theorem notMem_head_splitOn {sep : Char} {text head : List Char} {tail : List (List Char)}
    (h : text.splitOn sep = head :: tail) : sep ∉ head := by
  by_cases hsep : sep ∈ text
  · obtain ⟨front, back, rfl, hfront⟩ := List.eq_append_cons_of_mem hsep
    rw [List.splitOn_append_cons_self_of_not_mem hfront] at h
    cases h
    exact hfront
  · rw [List.splitOn_eq_singleton hsep] at h
    cases h
    exact hsep

/-- What is read as the file's name has no semicolon. -/
theorem semicolon_notMem_file {text : List Char} {stored : ParsedPosition}
    (h : parseStoredPosition text = some stored) : ';' ∉ stored.file := by
  rw [parseStoredPosition] at h
  split at h
  · cases h
  · next coordinate fields hsplit =>
    obtain ⟨⟨file, pos⟩, hfile, h⟩ := Option.bind_eq_some_iff.mp h
    obtain ⟨offset, -, rfl⟩ := Option.map_eq_some_iff.mp h
    rw [foldl_readField_file]
    by_cases hcolon : ':' ∈ coordinate
    · obtain ⟨front, back, rfl, hback⟩ := exists_last_separator hcolon
      rw [rsplitOnce_append front hback] at hfile
      cases hfile
      exact fun hmem => notMem_head_splitOn hsplit (List.mem_append_left _ hmem)
    · rw [rsplitOnce_of_notMem hcolon] at hfile
      cases hfile

/-- The fields are read as what was written. -/
theorem foldl_readField_fieldsOf (hgtid : ∀ position ∈ gtid, position.Rendered)
    (hbase : base < 2 ^ 64) (file : List Char) (pos : ℕ) :
    (fieldsOf base (gtid.map ConsumedPosition.toText)).foldl readField
      { file, pos, gtid := none, base := 0 } = { file, pos, gtid, base } := by
  have hread : ∀ stored : ParsedPosition, stored.base = 0 →
      (if 0 < base then [['b', 'a', 's', 'e', '='] ++ Nat.toDigits 10 base] else []).foldl readField
        stored = { stored with base } := by
    intro stored hzero
    split
    · have hsplit : splitOnce '=' (['b', 'a', 's', 'e', '='] ++ Nat.toDigits 10 base) =
          some (['b', 'a', 's', 'e'], Nat.toDigits 10 base) :=
        splitOnce_append (show '=' ∉ ['b', 'a', 's', 'e'] by decide) _
      rw [List.foldl_cons, List.foldl_nil, readField, hsplit]
      simp [MySqlGtidSet.trim_toDigits, parseUnsigned_toDigits hbase]
    · next hnone =>
      obtain rfl : base = 0 := Nat.eq_zero_of_not_pos hnone
      rw [← hzero]
      rfl
  rw [fieldsOf, List.foldl_append]
  cases gtid with
  | none => exact hread _ rfl
  | some position =>
    have hsplit : splitOnce '=' (['g', 't', 'i', 'd', '='] ++ position.toText) =
        some (['g', 't', 'i', 'd'], position.toText) :=
      splitOnce_append (show '=' ∉ ['g', 't', 'i', 'd'] by decide) _
    have hfirst : readField { file, pos, gtid := none, base := 0 }
        (['g', 't', 'i', 'd', '='] ++ position.toText) =
          { file, pos, gtid := some position, base := 0 } := by
      rw [readField, hsplit]
      simp [(hgtid position rfl).parse_toText]
    rw [Option.map_some, Option.map_some, Option.toList_some, List.foldl_cons, List.foldl_nil, hfirst]
    exact hread _ rfl

/-- The coordinate is read as what was written. -/
theorem parseStoredPosition_of_notMem (hstem : ';' ∉ stem.toList)
    (hgtid : ∀ position ∈ gtid, position.Rendered) (hbase : base < 2 ^ 64) :
    parseStoredPosition
        (positionTextFull stem token base (gtid.map ConsumedPosition.toText)) =
      some { file := binlogFile stem ((token - base) >>> 32), pos := (token - base) % 2 ^ 32,
             gtid, base } := by
  have hplain : ∀ part ∈ positionText stem (token - base) ::
      fieldsOf base (gtid.map ConsumedPosition.toText), ';' ∉ part := by
    refine List.forall_mem_cons.mpr ⟨?_, fun part hpart => ?_⟩
    · have hpadded : ';' ∉ padded 6 ((token - base) >>> 32) :=
        notMem_padded (by decide)
      have hdigits : ∀ n, ';' ∉ Nat.toDigits 10 n := fun n => notMem_toDigits (by decide)
      simp [positionText, binlogFile, hstem, hpadded, hdigits]
    · rcases List.mem_append.mp hpart with hpart | hpart
      · obtain ⟨text, htext, rfl⟩ := Option.map_eq_some_iff.mp (Option.mem_toList.mp hpart)
        obtain ⟨position, hposition, rfl⟩ := Option.map_eq_some_iff.mp htext
        simp [(hgtid position hposition).notMem]
      · split at hpart
        · rw [List.mem_singleton.mp hpart]
          simp [notMem_toDigits]
        · cases hpart
  have hcolon : ':' ∉ Nat.toDigits 10 ((token - base) % 2 ^ 32) := notMem_toDigits (by decide)
  have hoffset : (token - base) % 2 ^ 32 < 2 ^ 32 := Nat.mod_lt _ (by decide)
  rw [parseStoredPosition, positionTextFull_eq,
    List.splitOn_intercalate ';' hplain (List.cons_ne_nil _ _)]
  simp only [positionText, rsplitOnce_append _ hcolon,
    Option.bind_some, MySqlGtidSet.trim_toDigits, parseU32_toDigits, if_pos hoffset,
    Option.map_some, foldl_readField_fieldsOf hgtid hbase]

theorem binlogIndex_binlogFile (htoken : token < 2 ^ 64) :
    binlogIndex (String.ofList (binlogFile stem ((token - base) >>> 32))) =
      (token - base) >>> 32 :=
  StoredText.binlogIndex_of_toList ⟨stem, token, base, none, htoken⟩ (String.toList_ofList)

/-- Coordinates are in the order of their files and then of their offsets. -/
theorem positionToken_lt_iff {c c' : Coordinate} (hpos : c.pos < 2 ^ 32) (hpos' : c'.pos < 2 ^ 32) :
    positionToken c < positionToken c' ↔ c.file < c'.file ∨ c.file = c'.file ∧ c.pos < c'.pos := by
  obtain ⟨file, pos⟩ := c
  obtain ⟨file', pos'⟩ := c'
  simp only at hpos hpos' ⊢
  rw [positionToken_mk hpos, positionToken_mk hpos']
  omega

/-- A name of the binlog with a semicolon ends ahead of it. -/
theorem semicolon_not_read : ¬∀ (stem : String) (token base : ℕ) (gtid : Option ConsumedPosition),
    (∀ c ∈ stem.toList.getLast?, c.isDigit = false) → token < 2 ^ 64 → base ≤ token →
    (∀ position ∈ gtid, position.Rendered) → ∃ stored,
      parseStoredPosition
          (positionTextFull stem token base (gtid.map ConsumedPosition.toText)) = some stored ∧
        Survives stem token base gtid stored := by
  intro h
  have hstem : ∀ c ∈ "my;bin".toList.getLast?, c.isDigit = false := by
    rintro _ ⟨⟩
    rfl
  obtain ⟨stored, hread, -⟩ := h "my;bin" (4 <<< 32 ||| 157) 0 none hstem (by decide) (by decide)
    (fun position hposition => by cases hposition)
  have hnone : parseStoredPosition (positionTextFull "my;bin" (4 <<< 32 ||| 157) 0 none) = none := by
    decide
  rw [Option.map_none, hnone] at hread
  cases hread

/-- **A stored position survives its text exactly if the binlog's name has no semicolon**, and
tokens are in the order of the binlog. -/
theorem storedPosition_survives_iff (stem : String) (token base : ℕ)
    (gtid : Option ConsumedPosition) (htoken : token < 2 ^ 64) (hbase : base ≤ token)
    (hgtid : ∀ position ∈ gtid, position.Rendered) :
    (∀ c c' : Coordinate, c.pos < 2 ^ 32 → c'.pos < 2 ^ 32 → (positionToken c < positionToken c' ↔
      c.file < c'.file ∨ c.file = c'.file ∧ c.pos < c'.pos)) ∧
    ((∃ stored, parseStoredPosition
        (positionTextFull stem token base (gtid.map ConsumedPosition.toText)) = some stored ∧
      Survives stem token base gtid stored) ↔ ';' ∉ stem.toList) := by
  refine ⟨fun c c' hpos hpos' => positionToken_lt_iff hpos hpos', ?_, fun hstem => ?_⟩
  · rintro ⟨stored, hread, hkept⟩ hmem
    have hfile := semicolon_notMem_file hread
    rw [hkept.file] at hfile
    exact hfile (List.mem_append_left _ hmem)
  · refine ⟨_, parseStoredPosition_of_notMem hstem hgtid (by omega), rfl, rfl, rfl, rfl, ?_⟩
    have hoffset : (token - base) % 2 ^ 32 < 2 ^ 32 := Nat.mod_lt _ (by decide)
    rw [ParsedPosition.token, binlogIndex_binlogFile htoken, positionToken_mk hoffset,
      Nat.shiftRight_eq_div_pow, Nat.div_add_mod', saturatingAdd, Nat.add_sub_cancel' hbase]
    exact min_eq_left (by rw [u64Max]; omega)

/-- A position of MariaDB in the second generation of versions. -/
theorem storedPosition_survives_mariaDb : ∃ stored,
    parseStoredPosition "binlog.000004:157;gtid=0-1-42;base=17179869184".toList = some stored ∧
      Survives "binlog" (8 <<< 32 ||| 157) (4 <<< 32)
        (some (.mariaDb (MariaGtidPos.empty.add 0 1 42))) stored :=
  (storedPosition_survives_iff "binlog" (8 <<< 32 ||| 157) (4 <<< 32)
    (some (.mariaDb (MariaGtidPos.empty.add 0 1 42))) (by decide) (by decide) (by
      rintro position hposition
      cases hposition
      exact ⟨by decide, by decide⟩)).2.mpr (by decide)

end MySql

end Pg2osync
