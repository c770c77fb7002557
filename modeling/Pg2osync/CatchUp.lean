import Pg2osync.BinlogStream
import Pg2osync.ByteOrder

/-!
# Waiting until a checkpoint has caught up

A checkpoint of a MySQL source has the coordinate it is at as text, and behind it, each only if
there is one, a GTID position and the base of its versions. The command that waits for the
source's current coordinate reads that text for itself, without what may be behind the
coordinate, and takes file names to be in order as text. This says when its answer is right.
-/

namespace Pg2osync

namespace MySql

open Encoding

/-! ## GTID positions -/

/-- The numbers of transactions of one server. -/
structure GtidEntry : Type where
  /-- the server -/
  uuid : String
  /-- the first range of them -/
  first : ℕ × ℕ
  /-- those that follow -/
  rest : List (ℕ × ℕ)
  deriving DecidableEq, Repr

/-- Transactions that were consumed. -/
inductive GtidPosition : Type where
  /-- of MySQL, by the servers they came from -/
  | mySql (entries : List GtidEntry) : GtidPosition
  /-- of MariaDB, the newest of each domain, with its server and number -/
  | mariaDb (domains : List (ℕ × ℕ × ℕ)) : GtidPosition
  deriving DecidableEq, Repr

/-- A range as text: one number if it holds no more. -/
def rangeText (r : ℕ × ℕ) : List Char :=
  if r.1 = r.2 then Nat.toDigits 10 r.1 else Nat.toDigits 10 r.1 ++ '-' :: Nat.toDigits 10 r.2

/-- A server with its ranges. -/
def GtidEntry.text (e : GtidEntry) : List Char :=
  e.uuid.toList ++ (e.first :: e.rest).flatMap fun r => ':' :: rangeText r

/-- `to_text`. -/
def GtidPosition.text : GtidPosition → List Char
  | .mySql entries => [','].intercalate (entries.map GtidEntry.text)
  | .mariaDb domains => [','].intercalate (domains.map fun (domain, server, seqNo) =>
    Nat.toDigits 10 domain ++ '-' :: (Nat.toDigits 10 server ++ '-' :: Nat.toDigits 10 seqNo))

/-! ## Positions as text -/

/-- The name of a file of the binlog. -/
def binlogFile (stem : String) (index : ℕ) : List Char :=
  stem.toList ++ '.' :: Encoding.padded 6 index

/-- `position_text`. -/
def positionText (stem : String) (token : ℕ) : List Char :=
  binlogFile stem (token >>> 32) ++ ':' :: Nat.toDigits 10 (token % 2 ^ 32)

/-- What a checkpoint stores. -/
structure StoredText : Type where
  /-- the name of the binlog, without a number -/
  stem : String
  /-- the token -/
  token : ℕ
  /-- what was added to coordinates to make it -/
  base : ℕ
  /-- what was consumed -/
  gtid : Option GtidPosition
  token_lt : token < 2 ^ 64

namespace StoredText

/-- The coordinate, as one number. -/
def coordinate (t : StoredText) : ℕ :=
  t.token - t.base

/-- What is behind the coordinate. -/
def suffix (t : StoredText) : List Char :=
  (match t.gtid with
    | some gtid => [';', 'g', 't', 'i', 'd', '='] ++ gtid.text
    | none => []) ++
  if 0 < t.base then [';', 'b', 'a', 's', 'e', '='] ++ Nat.toDigits 10 t.base else []

/-- `position_text_full`. -/
def text (t : StoredText) : List Char :=
  positionText t.stem t.coordinate ++ t.suffix

/-- The name of the file it is in. -/
def file (t : StoredText) : List Char :=
  binlogFile t.stem (t.coordinate >>> 32)

/-- Where in the file it is. -/
def offset (t : StoredText) : ℕ :=
  t.coordinate % 2 ^ 32

end StoredText

/-! ## The command -/

/-- `str::parse::<u32>`. -/
def parseU32 (text : List Char) : Option ℕ :=
  match text with
  | '-' :: _ => none
  | _ => ((Encoding.readInt text).filter fun n => n < 2 ^ 32).map Int.toNat

/-- `binlog_coordinate`. -/
def readCoordinate (text : List Char) : Option (List Char × ℕ) :=
  (Encoding.rsplitOnce ':' text).bind fun (file, pos) => (parseU32 pos).map fun pos => (file, pos)

/-- A pair is at or past another, the names in the order of texts. -/
def atLeast (have_ want : List Char × ℕ) : Bool :=
  Json.charsBefore want.1 have_.1 || (want.1 = have_.1 && want.2 ≤ have_.2)

/-- `wait_until_caught_up`: the checkpoint has reached the server's coordinate. -/
def caughtUp (position : Option (List Char)) (file : String) (pos : ℕ) : Bool :=
  match position.bind readCoordinate with
  | some coordinate => atLeast coordinate (file.toList, pos)
  | none => false

/-- The order of the binlog: files by their numbers, then offsets. -/
def StoredText.AtOrPast (t : StoredText) (file : String) (pos : ℕ) : Prop :=
  binlogIndex file < t.coordinate >>> 32 ∨ binlogIndex file = t.coordinate >>> 32 ∧ pos ≤ t.offset

instance (t : StoredText) (file : String) (pos : ℕ) : Decidable (t.AtOrPast file pos) :=
  inferInstanceAs (Decidable (_ ∨ _))

/-! ## What the command reads -/

theorem isDigit_toDigits {n : ℕ} {c : Char} (h : c ∈ Nat.toDigits 10 n) : c.isDigit = true :=
  Nat.isDigit_of_mem_toDigits (by decide) (by decide) h

theorem notMem_toDigits {n : ℕ} {c : Char} (h : c.isDigit = false) : c ∉ Nat.toDigits 10 n := by
  intro hmem
  rw [isDigit_toDigits hmem] at h
  cases h

theorem parseU32_toDigits (n : ℕ) :
    parseU32 (Nat.toDigits 10 n) = if n < 2 ^ 32 then some n else none := by
  have hread : readInt (Nat.toDigits 10 n) = some (n : ℤ) := by
    rw [readInt_digits Nat.toDigits_ne_nil
      (List.all_eq_true.mpr fun _ => isDigit_toDigits), Nat.ofDigitChars_ten_toDigits]
  have hsign : ∀ rest, Nat.toDigits 10 n ≠ '-' :: rest := fun rest h =>
    notMem_toDigits (by decide) (h ▸ List.mem_cons_self)
  rw [parseU32]
  · rw [hread]
    by_cases h : n < 2 ^ 32
    · rw [if_pos h, Option.filter_some_pos (by simp; omega)]
      rfl
    · rw [if_neg h, Option.filter_some_neg (by simp; omega)]
      rfl
  · exact fun rest h => hsign rest h

/-- What has more than digits behind its first character is no number. -/
theorem parseU32_of_mem_tail {text : List Char} {c : Char} (hmem : c ∈ text.tail)
    (hc : c.isDigit = false) : parseU32 text = none := by
  rw [parseU32.eq_def]
  split
  · rfl
  · cases hread : readInt text with
    | none => rfl
    | some n =>
      rw [isDigit_of_readInt hread c hmem] at hc
      cases hc

theorem readCoordinate_append (front : List Char) {back : List Char} (h : ':' ∉ back) :
    readCoordinate (front ++ ':' :: back) = (parseU32 back).map fun pos => (front, pos) := by
  rw [readCoordinate, rsplitOnce_append front h]
  rfl

theorem mem_tail_append {c d : Char} {front back : List Char} :
    c ∈ (front ++ d :: c :: back).tail := by
  cases front <;> simp

/-- A suffix without a colon is read as part of the offset, which is then no number. -/
theorem readCoordinate_suffix {front back : List Char} (hfront : ':' ∈ front) {c d : Char}
    (hc : c.isDigit = false) (hcolon : ':' ∉ d :: c :: back) :
    readCoordinate (front ++ d :: c :: back) = none := by
  obtain ⟨file, pos, rfl, hpos⟩ := exists_last_separator hfront
  have hback : ':' ∉ pos ++ d :: c :: back := by
    rw [List.mem_append, not_or]
    exact ⟨hpos, hcolon⟩
  rw [List.append_assoc, List.cons_append, readCoordinate_append file hback,
    parseU32_of_mem_tail mem_tail_append hc]
  rfl

/-! ## What the text ends with -/

/-- The ranges of a server. -/
def GtidEntry.ranges (e : GtidEntry) : List (ℕ × ℕ) :=
  e.first :: e.rest

/-- The last of them. -/
def GtidEntry.last (e : GtidEntry) : ℕ × ℕ :=
  e.ranges.getLast (List.cons_ne_nil _ _)

/-- A server without its last range. -/
def GtidEntry.textAhead (e : GtidEntry) : List Char :=
  e.uuid.toList ++ e.ranges.dropLast.flatMap fun r => ':' :: rangeText r

theorem GtidEntry.text_eq (e : GtidEntry) : e.text = e.textAhead ++ ':' :: rangeText e.last := by
  have hranges : e.ranges = e.ranges.dropLast ++ [e.last] :=
    (List.dropLast_append_getLast (List.cons_ne_nil _ _)).symm
  rw [text, show e.first :: e.rest = e.ranges from rfl, hranges, List.flatMap_append, textAhead]
  simp

theorem colon_notMem_rangeText (r : ℕ × ℕ) : ':' ∉ rangeText r := by
  rw [rangeText]
  split
  · exact notMem_toDigits (by decide)
  · simp [notMem_toDigits]

/-- A range is read as an offset only if it is one number. -/
theorem parseU32_rangeText (r : ℕ × ℕ) :
    parseU32 (rangeText r) = if r.1 = r.2 ∧ r.1 < 2 ^ 32 then some r.1 else none := by
  rw [rangeText]
  by_cases h : r.1 = r.2
  · rw [if_pos h, parseU32_toDigits]
    simp [h]
  · have hne : Nat.toDigits 10 r.1 ≠ [] := Nat.toDigits_ne_nil
    have hmem : '-' ∈ (Nat.toDigits 10 r.1 ++ '-' :: Nat.toDigits 10 r.2).tail := by
      rw [List.tail_append_of_ne_nil hne]
      exact List.mem_append_right _ List.mem_cons_self
    rw [if_neg h, parseU32_of_mem_tail hmem (by decide), if_neg fun hboth => h hboth.1]

namespace StoredText

/-- The one transaction that a text without a base ends with, if it does and its number fits
into 32 bits, and what is ahead of it. -/
def lone (t : StoredText) : Option (List Char × ℕ) :=
  match t.gtid with
  | some (.mySql entries) =>
    if h : entries = [] then none
    else
      let e := entries.getLast h
      if t.base = 0 ∧ e.last.1 = e.last.2 ∧ e.last.1 < 2 ^ 32 then
        some (positionText t.stem t.coordinate ++ [';', 'g', 't', 'i', 'd', '='] ++
          [','].intercalate (entries.dropLast.map GtidEntry.text ++ [e.textAhead]), e.last.1)
      else none
  | _ => none

/-- The answer is right: of a bare coordinate, if the files have one name or names in the order
of the coordinates; with a transaction at the end, which is taken for the offset, if the
server's file is in that order with all that is ahead of it; and with anything else behind the
coordinate, as long as the server is ahead. -/
def WellJudged (t : StoredText) (file : String) (pos : ℕ) : Prop :=
  if t.gtid = none ∧ t.base = 0 then
    file.toList = t.file ∨ (Json.charsBefore file.toList t.file = true ↔ t.AtOrPast file pos)
  else
    match t.lone with
    | some (ahead, gno) =>
      (Json.charsBefore file.toList ahead = true ∨ file.toList = ahead ∧ pos ≤ gno) ↔
        t.AtOrPast file pos
    | none => ¬t.AtOrPast file pos

end StoredText

/-! ## When the answer is right -/

namespace StoredText

variable (t : StoredText)

theorem colon_mem_positionText : ':' ∈ positionText t.stem t.coordinate := by
  simp [positionText]

/-- A bare coordinate is read as it is. -/
theorem readCoordinate_bare (h : t.gtid = none ∧ t.base = 0) :
    readCoordinate t.text = some (t.file, t.offset) := by
  have hbare : t.text = t.file ++ ':' :: Nat.toDigits 10 t.offset := by
    simp [text, suffix, h.1, h.2, positionText, file, offset]
  have hlt : t.offset < 2 ^ 32 := Nat.mod_lt _ (by decide)
  rw [hbare, readCoordinate_append _ (notMem_toDigits (by decide)), parseU32_toDigits, if_pos hlt]
  rfl

theorem colon_notMem_mariaDb (domains : List (ℕ × ℕ × ℕ)) :
    ':' ∉ (GtidPosition.mariaDb domains).text := by
  intro h
  rcases mem_intercalate h with h | ⟨x, hx, h⟩
  · simp at h
  · obtain ⟨⟨domain, server, seqNo⟩, -, rfl⟩ := List.mem_map.mp hx
    simp [notMem_toDigits] at h

/-- With anything behind it, no coordinate is read, but for a transaction at the end. -/
theorem readCoordinate_suffixed (h : ¬(t.gtid = none ∧ t.base = 0)) :
    readCoordinate t.text = t.lone := by
  have hcolon := t.colon_mem_positionText
  rcases Nat.eq_zero_or_pos t.base with hbase | hbase
  · cases hgtid : t.gtid with
    | none => exact absurd ⟨hgtid, hbase⟩ h
    | some gtid =>
      have htext : t.text = positionText t.stem t.coordinate ++
          ([';', 'g', 't', 'i', 'd', '='] ++ gtid.text) := by
        simp [text, suffix, hgtid, hbase]
      cases gtid with
      | mariaDb domains =>
        rw [htext, lone, hgtid]
        exact readCoordinate_suffix hcolon (by decide)
          (by simp [colon_notMem_mariaDb domains])
      | mySql entries =>
        by_cases hnil : entries = []
        · subst hnil
          rw [htext, lone, hgtid]
          exact readCoordinate_suffix hcolon (by decide) (by decide)
        · have hentries : (GtidPosition.mySql entries).text =
              [','].intercalate (entries.dropLast.map GtidEntry.text ++
                  [(entries.getLast hnil).textAhead]) ++
                ':' :: rangeText (entries.getLast hnil).last := by
            rw [← intercalate_append_last, ← GtidEntry.text_eq, GtidPosition.text]
            conv_lhs => rw [← List.dropLast_append_getLast hnil, List.map_append]
            rfl
          rw [htext, hentries, ← List.append_assoc, ← List.append_assoc,
            readCoordinate_append _ (colon_notMem_rangeText _), parseU32_rangeText, lone, hgtid]
          simp only [hnil, dif_neg, not_false_eq_true, hbase, true_and]
          split <;> rfl
  · have hnone : t.lone = none := by
      rw [lone]
      split
      · split
        · rfl
        · rw [if_neg (by omega)]
      · rfl
    have htext : t.text = (positionText t.stem t.coordinate ++
        (match t.gtid with
          | some gtid => [';', 'g', 't', 'i', 'd', '='] ++ gtid.text
          | none => [])) ++ ([';', 'b', 'a', 's', 'e', '='] ++ Nat.toDigits 10 t.base) := by
      simp [text, suffix, hbase]
    rw [hnone, htext]
    exact readCoordinate_suffix (List.mem_append_left _ hcolon) (by decide)
      (by simp [notMem_toDigits])

/-- The number of a file is read from its name. -/
theorem binlogIndex_of_toList {file : String} (h : file.toList = t.file) :
    binlogIndex file = t.coordinate >>> 32 := by
  have hlt : t.coordinate >>> 32 < 2 ^ 32 := by
    have := t.token_lt
    rw [Nat.shiftRight_eq_div_pow, coordinate]
    omega
  have hdigits : ((t.file.reverse.takeWhile fun c => c ≠ '.').reverse) =
      padded 6 (t.coordinate >>> 32) := by
    have hall : ∀ c ∈ (padded 6 (t.coordinate >>> 32)).reverse,
        decide (c ≠ '.') = true := by
      intro c hc
      have hdot : c ≠ '.' := fun heq =>
        notMem_padded (by decide) (heq ▸ List.mem_reverse.mp hc)
      simp [hdot]
    rw [StoredText.file, binlogFile, List.reverse_append, List.reverse_cons, List.append_assoc,
      List.takeWhile_append_of_pos hall]
    simp
  have hdot : '.' ∈ t.file.reverse := by simp [StoredText.file, binlogFile]
  rw [binlogIndex, h, if_pos hdot, hdigits, readInt_padded (by decide)]
  simp only
  rw [if_pos (by omega)]
  rfl

theorem atLeast_iff (have_ want : List Char × ℕ) :
    atLeast have_ want = true ↔
      Json.charsBefore want.1 have_.1 = true ∨ want.1 = have_.1 ∧ want.2 ≤ have_.2 := by
  simp [atLeast]

/-- For every text that is stored and every coordinate of the server, the answer is right under
exactly this condition. -/
theorem judged_iff_wellJudged (file : String) (pos : ℕ) :
    (caughtUp (some t.text) file pos = true ↔ t.AtOrPast file pos) ↔ t.WellJudged file pos := by
  by_cases hbare : t.gtid = none ∧ t.base = 0
  · have hjudged : caughtUp (some t.text) file pos = true ↔
        Json.charsBefore file.toList t.file = true ∨ file.toList = t.file ∧ pos ≤ t.offset := by
      rw [caughtUp, Option.bind_some, t.readCoordinate_bare hbare]
      exact atLeast_iff _ _
    rw [hjudged, WellJudged, if_pos hbare]
    by_cases hfile : file.toList = t.file
    · have hindex := t.binlogIndex_of_toList hfile
      simp [hfile, Json.charsBefore_irrefl, AtOrPast, hindex]
    · simp [hfile]
  · rw [caughtUp, Option.bind_some, t.readCoordinate_suffixed hbare, WellJudged, if_neg hbare]
    cases t.lone with
    | none => simp
    | some coordinate =>
      obtain ⟨ahead, gno⟩ := coordinate
      exact iff_congr (atLeast_iff (ahead, gno) (file.toList, pos)) Iff.rfl

end StoredText

/-! ## Behind a coordinate -/

/-- A checkpoint with what was consumed of one server. -/
def consumedCheckpoint : StoredText :=
  ⟨"binlog", 4 * 2 ^ 32 + 900, 0, some (.mySql [⟨"3e11fa47", (1, 5), []⟩]), by decide⟩

/-- It is at the server's coordinate, and has not caught up. -/
theorem consumed_not_caughtUp :
    ¬(caughtUp (some consumedCheckpoint.text) "binlog.000004" 900 = true ↔
      consumedCheckpoint.AtOrPast "binlog.000004" 900) := by
  decide

end MySql

end Pg2osync
