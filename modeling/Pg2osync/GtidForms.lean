import Pg2osync.GtidSet

/-!
# The forms of a set of transactions

A set of transactions is written into a checkpoint as text and read back from there, and it is
sent to a server in bytes. Both forms list the same intervals, which end with a number in the
text and ahead of one in the bytes.
-/

namespace Pg2osync

namespace MySql

namespace MySqlGtidSet

open Encoding

variable {set : MySqlGtidSet} {uuid : String}

/-! ## Text, there and back -/

/-- A server's name as text has it: groups of hexadecimal digits. -/
def IsUuid (uuid : String) : Prop :=
  (uuid.toList.splitOn '-').map List.length = [8, 4, 4, 4, 12] ∧
    ∀ c ∈ uuid.toList, c = '-' ∨ (Encoding.hexValue c).isSome = true

instance (uuid : String) : Decidable (IsUuid uuid) :=
  @instDecidableAnd _ _ inferInstance (List.decidableBAll _ _)

theorem IsUuid.ne_nil (h : IsUuid uuid) : uuid.toList ≠ [] := by
  intro hnil
  have hparts := h.1
  rw [hnil, List.splitOn_nil] at hparts
  cases hparts

variable {c : Char}

/-- What no server's name has. -/
theorem IsUuid.notMem (h : IsUuid uuid) (hdash : c ≠ '-') (hhex : hexValue c = none) :
    c ∉ uuid.toList := by
  intro hc
  rcases h.2 c hc with hc | hc
  · exact hdash hc
  · rw [hhex] at hc
    cases hc

theorem toNat_of_hexValue (h : (hexValue c).isSome = true) :
    48 ≤ c.toNat ∧ c.toNat ≤ 102 := by
  rw [hexValue] at h
  split at h
  · next hdigit =>
    have := toNat_of_isDigit hdigit
    omega
  · split at h
    · next hlower =>
      have hlow : 97 ≤ c.toNat := hlower.1
      have hhigh : c.toNat ≤ 102 := hlower.2
      omega
    · split at h
      · next hupper =>
        have hlow : 65 ≤ c.toNat := hupper.1
        have hhigh : c.toNat ≤ 70 := hupper.2
        omega
      · cases h

theorem isWhitespace_of_hexValue (h : (hexValue c).isSome = true) :
    isWhitespace c = false := by
  have := toNat_of_hexValue h
  simp only [isWhitespace, Bool.or_eq_false_iff, Bool.and_eq_false_iff, decide_eq_false_iff_not]
  omega

theorem IsUuid.isWhitespace (h : IsUuid uuid) : ∀ c ∈ uuid.toList, isWhitespace c = false := by
  intro c hc
  rcases h.2 c hc with rfl | hhex
  · rfl
  · exact isWhitespace_of_hexValue hhex

variable {r : ℕ × ℕ}

theorem mem_rangeText (hc : c ∈ rangeText r) : c.isDigit = true ∨ c = '-' := by
  rw [rangeText] at hc
  split at hc
  · exact .inl (isDigit_toDigits hc)
  · rcases List.mem_append.mp hc with hc | hc
    · exact .inl (isDigit_toDigits hc)
    · rcases List.mem_cons.mp hc with hc | hc
      · exact .inr hc
      · exact .inl (isDigit_toDigits hc)

theorem trim_toDigits (n : ℕ) : trim (Nat.toDigits 10 n) = Nat.toDigits 10 n :=
  trim_eq_self fun _ hc => isWhitespace_of_isDigit (isDigit_toDigits hc)

/-- An interval is read back from its text. -/
theorem readRange_rangeText (hr : r.1 ≤ r.2) (hmax : r.2 < 2 ^ 64) :
    readRange (rangeText r) = some r := by
  obtain ⟨start, last⟩ := r
  simp only at hr hmax
  have hdash : ∀ n, '-' ∉ Nat.toDigits 10 n := fun _ => notMem_toDigits (by decide)
  rw [readRange, rangeText]
  by_cases hsame : start = last
  · subst hsame
    rw [if_pos rfl, splitOnce_of_notMem (hdash start), trim_toDigits,
      parseUnsigned_toDigits (by omega)]
    simp
  · rw [if_neg hsame, splitOnce_append (hdash start)]
    simp only [trim_toDigits, parseUnsigned_toDigits (show start < 2 ^ 64 by omega),
      parseUnsigned_toDigits hmax, Option.bind_some, Option.map_some, Option.filter_some,
      decide_eq_true hr, if_true]

variable {l : List (ℕ × ℕ)}

theorem mapM_readRange (hvalid : ∀ r ∈ l, r.1 ≤ r.2) (hmax : ∀ r ∈ l, r.2 < 2 ^ 64) :
    (l.map rangeText).mapM readRange = some l := by
  induction l with
  | nil => rfl
  | cons r l ih =>
    obtain ⟨hr, hvalid⟩ := List.forall_mem_cons.mp hvalid
    obtain ⟨hrmax, hmax⟩ := List.forall_mem_cons.mp hmax
    rw [List.map_cons, List.mapM_cons, readRange_rangeText hr hrmax, ih hvalid hmax]
    rfl

theorem entryText_eq (uuid : String) (l : List (ℕ × ℕ)) :
    entryText (uuid, l) = [':'].intercalate (uuid.toList :: l.map rangeText) := by
  rw [entryText]
  induction l generalizing uuid with
  | nil => simp
  | cons r l ih =>
    have := ih (String.ofList (rangeText r))
    simp only [String.toList_ofList] at this
    rw [List.map_cons, List.intercalate_cons_cons, ← this]
    simp

/-- An entry has neither a comma nor white space, and is not empty. -/
theorem entryText_plain (h : IsUuid uuid) (l : List (ℕ × ℕ)) :
    ',' ∉ entryText (uuid, l) ∧ trim (entryText (uuid, l)) = entryText (uuid, l) ∧
      entryText (uuid, l) ≠ [] := by
  have hchars : ∀ c ∈ entryText (uuid, l), c ∈ uuid.toList ∨ c = ':' ∨ c.isDigit = true ∨ c = '-' := by
    intro c hc
    rcases List.mem_append.mp hc with hc | hc
    · exact .inl hc
    · obtain ⟨r, -, hc⟩ := List.mem_flatMap.mp hc
      rcases List.mem_cons.mp hc with hc | hc
      · exact .inr (.inl hc)
      · exact .inr (.inr (mem_rangeText hc))
  refine ⟨fun hc => ?_, trim_eq_self fun c hc => ?_, fun hnil => ?_⟩
  · rcases hchars _ hc with hc | hc | hc | hc
    · exact h.notMem (by decide) (by decide) hc
    · cases hc
    · cases hc
    · cases hc
  · rcases hchars c hc with hc | rfl | hc | rfl
    · exact h.isWhitespace c hc
    · rfl
    · exact isWhitespace_of_isDigit hc
    · rfl
  · exact h.ne_nil (List.append_eq_nil_iff.mp hnil).1

instance : Std.Total pairLe where
  total a b := by
    rw [pairLe, pairLe]
    omega

instance : IsTrans (ℕ × ℕ) pairLe where
  trans a b c hab hbc := by
    rw [pairLe] at *
    omega

/-- Intervals in order are sorted. -/
theorem insertionSort_of_canonical (h : Intervals.Canonical l) : l.insertionSort pairLe = l := by
  refine List.Pairwise.insertionSort_eq (h.apart.imp_of_mem ?_)
  intro a b ha hb hapart
  have := h.nonempty a ha
  exact .inl (by omega)

/-- An entry of a server that has none yet is read back from its text. -/
theorem readEntry_entryText (set : MySqlGtidSet) (h : IsUuid uuid) (hnew : set.intervals uuid = [])
    (hcanonical : Intervals.Canonical l) (hnumbers : Numbers l) (hl : l ≠ []) :
    readEntry set (entryText (uuid, l)) = some ⟨set.uuids.insert uuid l⟩ := by
  have hcolon : ∀ part ∈ uuid.toList :: l.map rangeText, ':' ∉ part := by
    intro part hpart
    rcases List.mem_cons.mp hpart with rfl | hpart
    · exact h.notMem (by decide) (by decide)
    · obtain ⟨r, -, rfl⟩ := List.mem_map.mp hpart
      exact colon_notMem_rangeText r
  have huuid : trim uuid.toList = uuid.toList := trim_eq_self h.isWhitespace
  rw [readEntry, entryText_eq, List.splitOn_intercalate ':' hcolon (List.cons_ne_nil _ _)]
  simp only [huuid, if_neg h.ne_nil, mapM_readRange hcanonical.nonempty
    (fun r hr => lt_trans (hnumbers r hr) (by decide)), Option.bind_some, String.ofList_toList, hnew,
    List.nil_append, if_neg hl, insertionSort_of_canonical hcanonical,
    coalesce_of_canonical hcanonical hnumbers]

/-- What each entry of a set that is read is. -/
structure GoodEntry (e : String × List (ℕ × ℕ)) : Prop where
  uuid : IsUuid e.1
  canonical : Intervals.Canonical e.2
  numbers : Numbers e.2
  nonempty : e.2 ≠ []

/-- Entries of different servers are read back from their texts, one after the other. -/
theorem foldlM_readEntry {entries : List (String × List (ℕ × ℕ))}
    (hkeys : (entries.map Prod.fst).Nodup) (hentries : ∀ e ∈ entries, GoodEntry e)
    (hnew : ∀ e ∈ entries, set.intervals e.1 = []) :
    (entries.map entryText).foldlM readEntry set =
      some ⟨entries.foldl (fun d e => d.insert e.1 e.2) set.uuids⟩ := by
  induction entries generalizing set with
  | nil => rfl
  | cons e entries ih =>
    obtain ⟨uuid, l⟩ := e
    obtain ⟨hfirst, hkeys⟩ := List.nodup_cons.mp hkeys
    obtain ⟨hentry, hentries⟩ := List.forall_mem_cons.mp hentries
    obtain ⟨hempty, hnew⟩ := List.forall_mem_cons.mp hnew
    rw [List.map_cons, List.foldlM_cons, readEntry_entryText set hentry.uuid hempty
      hentry.canonical hentry.numbers hentry.nonempty]
    refine ih hkeys hentries fun e he => ?_
    have hother : uuid ≠ e.1 := by
      intro hsame
      exact hfirst (List.mem_map.mpr ⟨e, he, hsame.symm⟩)
    rw [intervals, Dictionary.get?_insert, if_neg hother]
    exact hnew e he

theorem Proper.goodEntry (h : set.Proper) (huuids : ∀ uuid ∈ set.uuids.keys, IsUuid uuid) :
    ∀ e ∈ set.uuids.entries, GoodEntry e := by
  rintro ⟨uuid, l⟩ he
  have hget : set.uuids.get? uuid = some l := Dictionary.mem_entries_iff.mp he
  have hintervals : set.intervals uuid = l := by rw [intervals, hget]; rfl
  refine ⟨huuids uuid (List.mem_map.mpr ⟨_, he, rfl⟩), ?_, ?_, ?_⟩
  · exact hintervals ▸ h.canonical uuid
  · exact hintervals ▸ h.numbers uuid
  · rintro rfl
    exact h.nonempty uuid hget

/-- **A set is read back from its text.** -/
theorem Proper.parse_toText (h : set.Proper) (huuids : ∀ uuid ∈ set.uuids.keys, IsUuid uuid)
    (hsome : set.isEmpty = false) : parse set.toText = some set := by
  have hgood := h.goodEntry huuids
  have hentries : set.uuids.entries.map entryText ≠ [] := by
    intro hnil
    rw [List.map_eq_nil_iff] at hnil
    rw [isEmpty, Dictionary.isEmpty, hnil] at hsome
    cases hsome
  have hplain : ∀ t ∈ set.uuids.entries.map entryText, ',' ∉ t ∧ trim t = t ∧ t ≠ [] := by
    intro t ht
    obtain ⟨e, he, rfl⟩ := List.mem_map.mp ht
    exact entryText_plain (hgood e he).uuid e.2
  have htrimmed : (set.uuids.entries.map entryText).map trim = set.uuids.entries.map entryText :=
    (List.map_congr_left fun t ht => (hplain t ht).2.1).trans (List.map_id _)
  rw [parse, toText, List.splitOn_intercalate ',' (fun t ht => (hplain t ht).1) hentries, htrimmed,
    List.filter_eq_self.mpr fun t ht => decide_eq_true (hplain t ht).2.2,
    foldlM_readEntry (Dictionary.nodup_keys set.uuids) hgood fun _ _ => rfl]
  have hsame : (⟨set.uuids.entries.foldl (fun d e => d.insert e.1 e.2) MySqlGtidSet.empty.uuids⟩ :
      MySqlGtidSet) = set := congrArg MySqlGtidSet.mk (Dictionary.ofList_entries set.uuids)
  rw [hsame, Option.filter_some, hsome]
  rfl

/-! ## What a server reads of the bytes -/

/-- A number, of eight bytes. -/
def readNumber (bytes : List UInt8) : Option (ℕ × List UInt8) :=
  if 8 ≤ bytes.length then some (Encoding.littleEndian (bytes.take 8), bytes.drop 8) else none

/-- Some things of one kind, one after the other. -/
def readMany {α : Type} (read : List UInt8 → Option (α × List UInt8)) :
    ℕ → List UInt8 → Option (List α × List UInt8)
  | 0, bytes => some ([], bytes)
  | count + 1, bytes => (read bytes).bind fun (first, bytes) =>
      (readMany read count bytes).map fun (rest, bytes) => (first :: rest, bytes)

/-- An interval: its first number, and the first one behind it. -/
def readInterval (bytes : List UInt8) : Option ((ℕ × ℕ) × List UInt8) :=
  (readNumber bytes).bind fun (start, bytes) =>
    (readNumber bytes).map fun (behind, bytes) => ((start, behind), bytes)

/-- A server: its sixteen bytes, the count of its intervals, and these. -/
def readSid (bytes : List UInt8) : Option ((List UInt8 × List (ℕ × ℕ)) × List UInt8) :=
  if 16 ≤ bytes.length then
    (readNumber (bytes.drop 16)).bind fun (count, rest) =>
      (readMany readInterval count rest).map fun (intervals, rest) =>
        ((bytes.take 16, intervals), rest)
  else none

/-- A server as the bytes name it, with its intervals half open. -/
def Sent (e : String × List (ℕ × ℕ)) (sid : List UInt8 × List (ℕ × ℕ)) : Prop :=
  Encoding.readHex (e.1.toList.filter fun c => c ≠ '-') = some sid.1 ∧
    sid.2 = e.2.map fun r => (r.1, r.2 + 1)

theorem readNumber_append (n : ℕ) (rest : List UInt8) :
    readNumber (toLittleEndian 8 n ++ rest) = some (n % 2 ^ 64, rest) := by
  have hlength : (toLittleEndian 8 n).length = 8 := length_toLittleEndian 8 n
  rw [readNumber, if_pos (by rw [List.length_append, hlength]; omega),
    List.take_left' hlength, List.drop_left' hlength, littleEndian_toLittleEndian]
  norm_num

theorem readInterval_append (hr : r.1 ≤ r.2) (hmax : r.2 < 2 ^ 63) (rest : List UInt8) :
    readInterval ((toLittleEndian 8 r.1 ++
      toLittleEndian 8 (nextGno r.2)) ++ rest) = some ((r.1, r.2 + 1), rest) := by
  have hstart : r.1 % 2 ^ 64 = r.1 := Nat.mod_eq_of_lt (by omega)
  have hbehind : (r.2 + 1) % 2 ^ 64 = r.2 + 1 := Nat.mod_eq_of_lt (by omega)
  simp only [readInterval, List.append_assoc, readNumber_append, Option.bind_some,
    Option.map_some, nextGno_of_lt hmax, hstart, hbehind]

theorem readMany_append {α β : Type} {read : List UInt8 → Option (α × List UInt8)}
    {write : β → List UInt8} {what : β → α} {all : List β}
    (h : ∀ b ∈ all, ∀ rest, read (write b ++ rest) = some (what b, rest)) (rest : List UInt8) :
    readMany read all.length (all.flatMap write ++ rest) = some (all.map what, rest) := by
  induction all with
  | nil => rfl
  | cons b all ih =>
    obtain ⟨hb, hall⟩ := List.forall_mem_cons.mp h
    simp only [List.length_cons, readMany, List.flatMap_cons, List.append_assoc, hb,
      Option.bind_some, ih hall, Option.map_some, List.map_cons]

/-- The digits of a name without its dashes. -/
theorem flatten_splitOn (sep : Char) (text : List Char) :
    (text.splitOn sep).flatten = text.filter fun c => c ≠ sep := by
  induction text with
  | nil => rfl
  | cons c text ih =>
    rw [List.splitOn_cons_eq_if_modifyHead]
    by_cases hc : c = sep
    · rw [if_pos (by simpa using hc), List.flatten_cons, ih, List.filter_cons_of_neg (by simpa using hc)]
      rfl
    · rw [if_neg (by simpa using hc), List.filter_cons_of_pos (by simpa using hc), ← ih]
      cases hsplit : text.splitOn sep with
      | nil => exact absurd hsplit (List.splitOn_ne_nil _ _)
      | cons piece pieces => rfl

theorem IsUuid.length_digits (h : IsUuid uuid) :
    (uuid.toList.filter fun c => c ≠ '-').length = 32 := by
  rw [← flatten_splitOn, List.length_flatten, h.1]
  rfl

theorem utf8Size_of_hexValue (h : (hexValue c).isSome = true) :
    c.utf8Size = 1 ∧ c ≠ '+' := by
  obtain ⟨hlow, hhigh⟩ := toNat_of_hexValue h
  constructor
  · have hval : c.val ≤ 0x7f := by
      show c.toNat ≤ 127
      omega
    rw [Char.utf8Size]
    exact if_pos hval
  · rintro rfl
    exact absurd hlow (by decide)

/-- Digits in pairs are read as bytes are from their text. -/
theorem hexPairs_eq {hex : List Char} (h : ∀ c ∈ hex, (hexValue c).isSome = true) :
    hexPairs hex = readHex hex := by
  induction hex using hexPairs.induct with
  | case1 a b rest ih =>
    obtain ⟨ha, h⟩ := List.forall_mem_cons.mp h
    obtain ⟨hb, h⟩ := List.forall_mem_cons.mp h
    rw [hexPairs, readHex, hexByte, if_neg (utf8Size_of_hexValue ha).2, ih h]
    cases hexValue a <;> cases hexValue b <;> rfl
  | case2 => rfl
  | case3 c => rfl

theorem readHex_of_digits {hex : List Char} {n : ℕ}
    (h : ∀ c ∈ hex, (hexValue c).isSome = true) (hlength : hex.length = 2 * n) :
    ∃ raw, readHex hex = some raw ∧ raw.length = n := by
  induction hex using hexPairs.induct generalizing n with
  | case1 a b rest ih =>
    obtain ⟨ha, h⟩ := List.forall_mem_cons.mp h
    obtain ⟨hb, h⟩ := List.forall_mem_cons.mp h
    rw [List.length_cons, List.length_cons] at hlength
    obtain ⟨raw, hraw, hlen⟩ := ih h (n := n - 1) (by omega)
    obtain ⟨high, hhigh⟩ := Option.isSome_iff_exists.mp ha
    obtain ⟨low, hlow⟩ := Option.isSome_iff_exists.mp hb
    refine ⟨UInt8.ofNat (high * 16 + low) :: raw, ?_, ?_⟩
    · rw [readHex, hhigh, hlow, hraw]
      rfl
    · rw [List.length_cons, hlen]
      omega
  | case2 => exact ⟨[], rfl, by rw [List.length_nil] at hlength ⊢; omega⟩
  | case3 c =>
    rw [List.length_singleton] at hlength
    omega

/-- A server's name has sixteen bytes. -/
theorem IsUuid.parseUuid (h : IsUuid uuid) : ∃ raw, MySqlGtidSet.parseUuid uuid = some raw ∧
    readHex (uuid.toList.filter fun c => c ≠ '-') = some raw ∧ raw.length = 16 := by
  have hdigits : ∀ c ∈ uuid.toList.filter fun c => c ≠ '-', (hexValue c).isSome = true := by
    intro c hc
    obtain ⟨hc, hdash⟩ := List.mem_filter.mp hc
    exact (h.2 c hc).resolve_left (of_decide_eq_true hdash)
  obtain ⟨raw, hraw, hlength⟩ := readHex_of_digits hdigits (n := 16) h.length_digits
  refine ⟨raw, ?_, hraw, hlength⟩
  have hsum : ((uuid.toList.filter fun c => c ≠ '-').map Char.utf8Size).sum = 32 := by
    rw [List.map_congr_left fun c hc => (utf8Size_of_hexValue (hdigits c hc)).1, List.map_const',
      List.sum_replicate, h.length_digits]
    rfl
  rw [MySqlGtidSet.parseUuid]
  simp only [hsum, if_true, hexPairs_eq hdigits, hraw]

theorem readSid_entryBytes {raw rest : List UInt8} (hraw : raw.length = 16)
    (h : Intervals.Canonical l) (hnumbers : Numbers l) :
    readSid (entryBytes raw l ++ rest) = some ((raw, l.map fun r => (r.1, r.2 + 1)), rest) := by
  have hcount : l.length % 2 ^ 64 = l.length := by
    have := h.length_le (Nat.zero_le _) (fun _ _ => Nat.zero_le _) hnumbers
    exact Nat.mod_eq_of_lt (by omega)
  have hmany := @readMany_append _ _ readInterval _ (fun r => (r.1, r.2 + 1)) l
    (fun r hr => readInterval_append (h.nonempty r hr) (hnumbers r hr)) rest
  rw [entryBytes, List.append_assoc, readSid, if_pos (by rw [List.length_append]; omega),
    List.drop_left' hraw, List.take_left' hraw, List.append_assoc, readNumber_append, hcount,
    Option.bind_some]
  simp only [hmany, Option.map_some]

/-- A server's block is read as that server with its intervals. -/
theorem GoodEntry.readSid {e : String × List (ℕ × ℕ)} (h : GoodEntry e) :
    ∃ block sid, encodeEntry e = some block ∧ Sent e sid ∧
      ∀ rest, MySqlGtidSet.readSid (block ++ rest) = some (sid, rest) := by
  obtain ⟨raw, hparse, hraw, hlength⟩ := h.uuid.parseUuid
  exact ⟨entryBytes raw e.2, (raw, e.2.map fun r => (r.1, r.2 + 1)),
    by rw [encodeEntry, hparse, Option.map_some], ⟨hraw, rfl⟩,
    fun rest => readSid_entryBytes hlength h.canonical h.numbers⟩

theorem mapM_encodeEntry {entries : List (String × List (ℕ × ℕ))}
    (h : ∀ e ∈ entries, GoodEntry e) : ∃ blocks sids, entries.mapM encodeEntry = some blocks ∧
      List.Forall₂ Sent entries sids ∧ ∀ rest,
        readMany MySqlGtidSet.readSid entries.length (blocks.flatten ++ rest) =
          some (sids, rest) := by
  induction entries with
  | nil => exact ⟨[], [], rfl, .nil, fun _ => rfl⟩
  | cons e entries ih =>
    obtain ⟨he, hentries⟩ := List.forall_mem_cons.mp h
    obtain ⟨block, sid, hblock, hsent, hread⟩ := he.readSid
    obtain ⟨blocks, sids, hblocks, hall, hmany⟩ := ih hentries
    refine ⟨block :: blocks, sid :: sids, ?_, .cons hsent hall, fun rest => ?_⟩
    · rw [List.mapM_cons, hblock, hblocks]
      rfl
    · simp only [List.length_cons, readMany, List.flatten_cons, List.append_assoc, hread,
        Option.bind_some, hmany, Option.map_some]

/-- **What is sent of a set**: the count of its servers, then each with its intervals, and nothing
behind them. -/
theorem Proper.encode (h : set.Proper) (huuids : ∀ uuid ∈ set.uuids.keys, IsUuid uuid) :
    ∃ bytes body sids, MySqlGtidSet.encode set = some bytes ∧
      readNumber bytes = some (set.uuids.entries.length % 2 ^ 64, body) ∧
      readMany readSid set.uuids.entries.length body = some (sids, []) ∧
      List.Forall₂ Sent set.uuids.entries sids := by
  obtain ⟨blocks, sids, hblocks, hall, hmany⟩ := mapM_encodeEntry (h.goodEntry huuids)
  refine ⟨_, blocks.flatten, sids, ?_, readNumber_append _ _, ?_, hall⟩
  · rw [MySqlGtidSet.encode, hblocks, Option.map_some]
  · rw [← hmany [], List.append_nil]

/-! ## Every sequence of additions -/

theorem mem_keys_add {gno : ℕ} {other : String} (h : other ∈ (set.add uuid gno).uuids.keys) :
    other = uuid ∨ other ∈ set.uuids.keys := by
  obtain ⟨l, hl⟩ := Dictionary.mem_keys_iff.mp h
  rw [add, Dictionary.get?_insert] at hl
  split at hl
  · next hsame => exact .inl hsame.symm
  · exact .inr (Dictionary.mem_keys_iff.mpr ⟨l, hl⟩)

theorem mem_keys_addAll {transactions : List (String × ℕ)} {other : String}
    (h : other ∈ (set.addAll transactions).uuids.keys) :
    other ∈ transactions.map Prod.fst ∨ other ∈ set.uuids.keys := by
  induction transactions generalizing set with
  | nil => exact .inr h
  | cons t transactions ih =>
    rcases ih h with h | h
    · exact .inl (List.mem_cons_of_mem _ h)
    · rcases mem_keys_add h with rfl | h
      · exact .inl List.mem_cons_self
      · exact .inr h

/-- What a set is that was made of some transactions, and its forms. -/
structure MadeOf (set : MySqlGtidSet) (transactions : List (String × ℕ)) : Prop where
  /-- in order, without common or adjacent numbers -/
  canonical : ∀ uuid, Intervals.Canonical (set.intervals uuid)
  /-- the numbers that were added, and no others -/
  covers : ∀ uuid n, Intervals.Covers (set.intervals uuid) n ↔ (uuid, n) ∈ transactions
  /-- whatever their order was, and how often each came -/
  order : ∀ transactions', (∀ t, t ∈ transactions' ↔ t ∈ transactions) →
    empty.addAll transactions' = set
  /-- its text is read back as the set, if there is anything in it -/
  text : parse set.toText = if transactions = [] then none else some set
  /-- its bytes list the intervals of each server, half open and counted, and nothing else -/
  wire : ∃ bytes body sids, set.encode = some bytes ∧
    readNumber bytes = some (set.uuids.entries.length % 2 ^ 64, body) ∧
    readMany readSid set.uuids.entries.length body = some (sids, []) ∧
    List.Forall₂ Sent set.uuids.entries sids

/-- The empty set's text is not one that is read. -/
theorem empty_not_read : ¬∀ transactions : List (String × ℕ),
    (∀ t ∈ transactions, IsUuid t.1 ∧ t.2 < 2 ^ 63) →
      parse (empty.addAll transactions).toText = some (empty.addAll transactions) := by
  intro h
  exact absurd (h [] fun t ht => absurd ht List.not_mem_nil) (by decide)

/-- **Sets are canonical**: for any transactions, added in any order. -/
theorem addAll_madeOf (transactions : List (String × ℕ))
    (h : ∀ t ∈ transactions, IsUuid t.1 ∧ t.2 < 2 ^ 63) :
    MadeOf (empty.addAll transactions) transactions := by
  obtain ⟨hproper, hhas⟩ := Proper.of_empty.addAll fun t ht => (h t ht).2
  have hcovers : ∀ uuid n, (empty.addAll transactions).Has uuid n ↔ (uuid, n) ∈ transactions :=
    fun uuid n => (hhas uuid n).trans (or_iff_right Intervals.not_covers_nil)
  have huuids : ∀ uuid ∈ (empty.addAll transactions).uuids.keys, IsUuid uuid := by
    intro uuid huuid
    rcases mem_keys_addAll huuid with huuid | huuid
    · obtain ⟨t, ht, rfl⟩ := List.mem_map.mp huuid
      exact (h t ht).1
    · cases huuid
  refine ⟨hproper.canonical, hcovers, fun transactions' hsame => ?_, ?_, hproper.encode huuids⟩
  · have htransactions' : ∀ t ∈ transactions', t.2 < 2 ^ 63 := fun t ht => (h t ((hsame t).mp ht)).2
    obtain ⟨hproper', hhas'⟩ := Proper.of_empty.addAll htransactions'
    refine hproper'.ext hproper fun uuid n => ?_
    rw [hhas', hcovers, hsame]
    exact or_iff_right Intervals.not_covers_nil
  · cases transactions with
    | nil => rfl
    | cons t transactions =>
      rw [if_neg (List.cons_ne_nil _ _)]
      refine hproper.parse_toText huuids (Bool.eq_false_iff.mpr fun hempty => ?_)
      have hnil : (empty.addAll (t :: transactions)).uuids.entries = [] := List.isEmpty_iff.mp hempty
      have hhere := (hcovers t.1 t.2).mpr List.mem_cons_self
      rw [Has, intervals, Dictionary.get?, hnil] at hhere
      exact Intervals.not_covers_nil hhere

/-- Two servers, with a gap that is closed, a gap that is not, and a repetition. -/
theorem addAll_madeOf_gap : MadeOf (empty.addAll
    [("3e11fa47-71ca-11e1-9e33-c80aa9429562", 7), ("3e11fa47-71ca-11e1-9e33-c80aa9429562", 5),
      ("3e11fa47-71ca-11e1-9e33-c80aa9429562", 6), ("3e11fa47-71ca-11e1-9e33-c80aa9429562", 9),
      ("4e11fa47-71ca-11e1-9e33-c80aa9429562", 1), ("3e11fa47-71ca-11e1-9e33-c80aa9429562", 5)])
    [("3e11fa47-71ca-11e1-9e33-c80aa9429562", 7), ("3e11fa47-71ca-11e1-9e33-c80aa9429562", 5),
      ("3e11fa47-71ca-11e1-9e33-c80aa9429562", 6), ("3e11fa47-71ca-11e1-9e33-c80aa9429562", 9),
      ("4e11fa47-71ca-11e1-9e33-c80aa9429562", 1),
      ("3e11fa47-71ca-11e1-9e33-c80aa9429562", 5)] :=
  addAll_madeOf _ (by decide)

end MySqlGtidSet

end MySql

end Pg2osync
