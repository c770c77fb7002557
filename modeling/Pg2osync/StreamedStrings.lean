import Mathlib.Data.List.DropRight
import Pg2osync.BinlogValue

/-!
# Strings of the binlog

A row image has a string behind its length, and the length in one byte or in two. Which of them
it is follows from the most bytes that the column may hold, and the table map has that number cut
in two for the columns of fixed length: its high bits are in the byte that names the type. Labels
are numbers of one byte or two, and sets are as wide as they have members. The initial load reads
the same values as text. This says for which values the two readers agree.
-/

namespace Encoding

/-! ## Base 64 is read one way -/

theorem idxOf_sextet : ∀ n < 64, alphabet.idxOf (sextet n) = n := by
  decide +kernel

theorem sextet_inj {m n : ℕ} (hm : m < 64) (hn : n < 64) (h : sextet m = sextet n) : m = n := by
  rw [← idxOf_sextet m hm, ← idxOf_sextet n hn, h]

theorem sextet_ne_pad : ∀ n < 64, sextet n ≠ '=' := by
  decide +kernel

/-- Different bytes are different in base 64. -/
theorem base64_injective {xs ys : List UInt8} (h : base64 xs = base64 ys) : xs = ys := by
  have hsame : ∀ {x y : UInt8}, x.toNat = y.toNat → x = y := UInt8.toNat_inj.mp
  induction xs using base64.induct generalizing ys with
  | case1 =>
    rcases ys with _ | ⟨d, _ | ⟨e, _ | ⟨f, ys⟩⟩⟩
    · rfl
    all_goals exact absurd h (by simp [base64])
  | case2 a =>
    have ha := a.toNat_lt
    rcases ys with _ | ⟨d, _ | ⟨e, _ | ⟨f, ys⟩⟩⟩
    · exact absurd h (by simp [base64])
    · have hd := d.toNat_lt
      simp only [base64, List.cons.injEq] at h
      have h1 := sextet_inj (by omega) (by omega) h.1
      have h2 := sextet_inj (by omega) (by omega) h.2.1
      rw [hsame (show a.toNat = d.toNat by omega)]
    · have he := e.toNat_lt
      simp only [base64, List.cons.injEq] at h
      exact absurd h.2.2.1.symm (sextet_ne_pad _ (by omega))
    · have hf := f.toNat_lt
      simp only [base64, List.cons.injEq] at h
      exact absurd h.2.2.1.symm (sextet_ne_pad _ (by omega))
  | case3 a b =>
    have ha := a.toNat_lt
    have hb := b.toNat_lt
    rcases ys with _ | ⟨d, _ | ⟨e, _ | ⟨f, ys⟩⟩⟩
    · exact absurd h (by simp [base64])
    · simp only [base64, List.cons.injEq] at h
      exact absurd h.2.2.1 (sextet_ne_pad _ (by omega))
    · have hd := d.toNat_lt
      have he := e.toNat_lt
      simp only [base64, List.cons.injEq] at h
      have h1 := sextet_inj (by omega) (by omega) h.1
      have h2 := sextet_inj (by omega) (by omega) h.2.1
      have h3 := sextet_inj (by omega) (by omega) h.2.2.1
      rw [hsame (show a.toNat = d.toNat by omega), hsame (show b.toNat = e.toNat by omega)]
    · have hf := f.toNat_lt
      simp only [base64, List.cons.injEq] at h
      exact absurd h.2.2.2.1.symm (sextet_ne_pad _ (by omega))
  | case4 a b c rest ih =>
    have ha := a.toNat_lt
    have hb := b.toNat_lt
    have hc := c.toNat_lt
    rcases ys with _ | ⟨d, _ | ⟨e, _ | ⟨f, ys⟩⟩⟩
    · exact absurd h (by simp [base64])
    · simp only [base64, List.cons.injEq] at h
      exact absurd h.2.2.1 (sextet_ne_pad _ (by omega))
    · simp only [base64, List.cons.injEq] at h
      exact absurd h.2.2.2.1 (sextet_ne_pad _ (by omega))
    · have hd := d.toNat_lt
      have he := e.toNat_lt
      have hf := f.toNat_lt
      simp only [base64, List.cons.injEq] at h
      have h1 := sextet_inj (by omega) (by omega) h.1
      have h2 := sextet_inj (by omega) (by omega) h.2.1
      have h3 := sextet_inj (by omega) (by omega) h.2.2.1
      have h4 := sextet_inj (by omega) (by omega) h.2.2.2.1
      rw [hsame (show a.toNat = d.toNat by omega), hsame (show b.toNat = e.toNat by omega),
        hsame (show c.toNat = f.toNat by omega), ih h.2.2.2.2]

end Encoding

namespace Pg2osync

namespace MySql

open Encoding MySql.TypeMap

/-- A character set: how it stores a text, if it has its characters, and the most bytes that one
of them takes. -/
structure Charset : Type where
  /-- the bytes of a text -/
  store : List Char → Option (List UInt8)
  /-- the most bytes of a character -/
  width : ℕ
  /-- no text takes more -/
  length_le : ∀ {text bytes}, store text = some bytes → bytes.length ≤ width * text.length

/-- The characters of one byte. -/
def Charset.latin1 : Charset where
  store text := if text.all (fun c => c.toNat < 256) then
    some (text.map fun c => UInt8.ofNat c.toNat) else none
  width := 1
  length_le := by
    intro text bytes h
    split at h
    · rw [← Option.some.inj h, List.length_map, Nat.one_mul]
    · cases h

/-- A value as a column holds it, with what the column is declared as. -/
inductive StringValue : Type where
  /-- a CHAR, which has no blanks at its end -/
  | char (charset : Charset) (chars : ℕ) (text : List Char) (bytes : List UInt8)
      (chars_le : chars ≤ 255) (width_le : charset.width ≤ 4)
      (stored : charset.store text = some bytes) (length_le : text.length ≤ chars)
      (trimmed : text.getLast? ≠ some ' ') : StringValue
  /-- a VARCHAR -/
  | varchar (charset : Charset) (chars : ℕ) (text : List Char) (bytes : List UInt8)
      (fits : charset.width * chars < 65536) (stored : charset.store text = some bytes)
      (length_le : text.length ≤ chars) : StringValue
  /-- a BINARY -/
  | binary (bytes : List UInt8) (length_le : bytes.length ≤ 255) : StringValue
  /-- a VARBINARY -/
  | varbinary (most : ℕ) (bytes : List UInt8) (fits : most < 65536)
      (length_le : bytes.length ≤ most) : StringValue
  /-- one of the labels of an ENUM, or none of them -/
  | enum (members : List String) (ordinal : ℕ) (fits : members.length < 65536)
      (ordinal_le : ordinal ≤ members.length) : StringValue
  /-- some of the labels of a SET -/
  | set (members : List String) (mask : ℕ) (fits : members.length ≤ 64)
      (mask_lt : mask < 2 ^ members.length) (plain : ∀ m ∈ members, ',' ∉ m.toList) : StringValue

namespace StringValue

/-! ## What MySQL writes -/

/-- The code of its type. -/
def code : StringValue → ℕ
  | .varchar _ _ _ _ _ _ _ | .varbinary _ _ _ _ => 15
  | .char _ _ _ _ _ _ _ _ _ | .binary _ _ | .enum _ _ _ _ | .set _ _ _ _ _ => 254

/-- What belongs to a column of fixed length: the type and the high bits of the most bytes that it
holds, and the low ones. -/
def fixedMetadata (most : ℕ) : List UInt8 :=
  [UInt8.ofNat (254 ^^^ ((most &&& 0x300) >>> 4)), UInt8.ofNat (most &&& 0xFF)]

/-- How many bytes an ordinal has. -/
def enumBytes (members : ℕ) : ℕ :=
  if members ≤ 255 then 1 else 2

/-- How many bytes a set has. -/
def setBytes (members : ℕ) : ℕ :=
  if 32 < members then 8 else (members + 7) / 8

/-- What belongs to the type in a table map. -/
def metadata : StringValue → List UInt8
  | .char charset chars _ _ _ _ _ _ _ => fixedMetadata (charset.width * chars)
  | .binary bytes _ => fixedMetadata bytes.length
  | .varchar charset chars _ _ _ _ _ => Encoding.toLittleEndian 2 (charset.width * chars)
  | .varbinary most _ _ _ => Encoding.toLittleEndian 2 most
  | .enum members _ _ _ => [247, UInt8.ofNat (enumBytes members.length)]
  | .set members _ _ _ _ => [248, UInt8.ofNat (setBytes members.length)]

/-- What its values are. -/
def shape : StringValue → ValueShape
  | .char _ _ _ _ _ _ _ _ _ | .varchar _ _ _ _ _ _ _ => .text
  | .binary _ _ | .varbinary _ _ _ _ => .bytes
  | .enum members _ _ _ => .enum members
  | .set members _ _ _ _ => .set members

/-- Some bytes behind their number, in two bytes if a column may hold more than one counts. -/
def counted (most : ℕ) (bytes : List UInt8) : List UInt8 :=
  Encoding.toLittleEndian (if most ≤ 255 then 1 else 2) bytes.length ++ bytes

/-- A value in a row image: of a BINARY the zeros at its end are left out. -/
def image : StringValue → List UInt8
  | .char charset chars _ bytes _ _ _ _ _ => counted (charset.width * chars) bytes
  | .binary bytes _ => counted bytes.length (bytes.rdropWhile fun b => b = 0)
  | .varchar charset chars _ bytes _ _ _ => counted (charset.width * chars) bytes
  | .varbinary most bytes _ _ => counted most bytes
  | .enum members ordinal _ _ => Encoding.toLittleEndian (enumBytes members.length) ordinal
  | .set members mask _ _ _ => Encoding.toLittleEndian (setBytes members.length) mask

/-- The members that a mask names. -/
def chosen (members : List String) (mask : ℕ) : List String :=
  (members.zipIdx.filter fun (_, i) => mask.testBit i).map Prod.fst

/-- A value as a query answers it, in UTF-8 where it is text. -/
def text : StringValue → List UInt8
  | .char _ _ text _ _ _ _ _ _ | .varchar _ _ text _ _ _ _ =>
    Encoding.utf8Bytes (String.ofList text)
  | .binary bytes _ | .varbinary _ bytes _ _ => bytes
  | .enum members ordinal _ _ =>
    Encoding.utf8Bytes (if ordinal = 0 then "" else members.getD (ordinal - 1) "")
  | .set members mask _ _ _ => Encoding.utf8Bytes
    (String.ofList (List.intercalate [','] ((chosen members mask).map String.toList)))

/-! ## What is read -/

/-- The values of which the stream reads the same. Where a CHAR or a BINARY may hold so many bytes
that their number is in two, the low byte of the most is 128 or greater, and else it is less; what a
character set stores is UTF-8 for the text; a BINARY ends with no zero; an ENUM has no more than 255
members, and of a SET none that is chosen is empty. -/
def ReadsSame : StringValue → Prop
  | .char charset chars text bytes _ _ _ _ _ =>
    (255 < charset.width * chars ↔ 128 ≤ charset.width * chars % 256) ∧
      Encoding.utf8Lossy bytes = String.ofList text
  | .varchar _ _ text bytes _ _ _ => Encoding.utf8Lossy bytes = String.ofList text
  | .binary bytes _ => bytes.length < 128 ∧ bytes.getLast? ≠ some 0
  | .varbinary _ _ _ _ => True
  | .enum members _ _ _ => members.length ≤ 255
  | .set members mask _ _ _ => "" ∉ chosen members mask

/-- What the load makes of a value. -/
def loaded (parsers : TypeMap.Parsers) (v : StringValue) : Json :=
  TypeMap.convert parsers v.shape (some v.text)

/-- What the stream makes of the bytes at a value, given its column's part of a table map. -/
def streamed (parsers : TypeMap.Parsers) (v : StringValue) (c : TableMapColumn) : R Json :=
  TableMapColumn.decode parsers { c with shape := some v.shape }

end StringValue

/-! ## Table maps -/

/-- A column in a table map: the code of its type, and what belongs to that. -/
structure MappedColumn : Type where
  code : UInt8
  metadata : List UInt8
  length_eq : metadata.length = metaSize code.toNat

/-- Each column of a table map is found with what belongs to it. -/
theorem columnMetas_mapped (columns : List MappedColumn) :
    columnMetas (columns.map MappedColumn.code) (columns.flatMap MappedColumn.metadata) =
      columns.map fun c => ⟨⟨c.code.toNat, c.metadata, none⟩, "", false, false⟩ := by
  induction columns with
  | nil => rfl
  | cons c columns ih =>
    rw [List.map_cons, List.map_cons, List.flatMap_cons, columnMetas, ← c.length_eq]
    rw [if_pos (by simp), List.take_left, List.drop_left, ih]

/-! ## Bytes behind their number -/

/-- Bytes behind their number, of two bytes or of one. -/
def readCounted (wide : Bool) (shape : Option ValueShape) : R Json := do
  let len ← if wide then R.u16v else R.u8v
  return stringLike shape (← R.take len)

variable {bytes : List UInt8} {most : ℕ}

/-- The number's width is read as it was written. -/
theorem readCounted_same (hmost : most < 65536) (hle : bytes.length ≤ most)
    (shape : Option ValueShape) (rest : List UInt8) :
    (readCounted (decide (255 < most)) shape).run (StringValue.counted most bytes ++ rest) =
      .ok (stringLike shape bytes, rest) := by
  have hread : ∀ n, bytes.length < 256 ^ n →
      (R.uint n >>= fun len => R.take len >>= fun raw => pure (stringLike shape raw) : R Json).run
        (toLittleEndian n bytes.length ++ bytes ++ rest) =
          .ok (stringLike shape bytes, rest) := by
    intro n hn
    rw [List.append_assoc, R.run_bind_ok (R.uint_append n (length_toLittleEndian n _)),
      littleEndian_toLittleEndian, Nat.mod_eq_of_lt hn,
      R.run_bind_ok (R.take_append _ rfl)]
    rfl
  rw [readCounted, StringValue.counted]
  by_cases h : 255 < most
  · have hbytes : (if most ≤ 255 then 1 else 2) = 2 := if_neg (by omega)
    rw [hbytes, decide_eq_true h, if_pos rfl]
    exact hread 2 (by omega)
  · have hbytes : (if most ≤ 255 then 1 else 2) = 1 := if_pos (by omega)
    rw [hbytes, decide_eq_false h, if_neg Bool.noConfusion]
    exact hread 1 (by omega)

/-- A number of the other width is read with bytes that are none of it, or without some that are:
what is read never ends where the value does. -/
theorem readCounted_other (hmost : most < 65536) (hle : bytes.length ≤ most)
    (shape : Option ValueShape) (v : Json) :
    (readCounted (!decide (255 < most)) shape).run (StringValue.counted most bytes) ≠
      .ok (v, []) := by
  intro h
  rw [readCounted, StringValue.counted] at h
  by_cases hwide : 255 < most
  · -- the high byte of the number is taken for the first of the value
    have hbytes : (if most ≤ 255 then 1 else 2) = 2 := if_neg (by omega)
    rw [hbytes, decide_eq_true hwide, Bool.not_true, if_neg Bool.noConfusion] at h
    have hnumber : toLittleEndian 2 bytes.length =
        [UInt8.ofNat bytes.length] ++ [UInt8.ofNat (bytes.length / 256)] := rfl
    have hone : R.u8v.run ([UInt8.ofNat bytes.length] ++
        ([UInt8.ofNat (bytes.length / 256)] ++ bytes)) =
          .ok (littleEndian [UInt8.ofNat bytes.length],
            [UInt8.ofNat (bytes.length / 256)] ++ bytes) := R.uint_append 1 rfl
    rw [hnumber, List.append_assoc, R.run_bind_ok hone, StateT.run_bind] at h
    obtain ⟨⟨raw, left⟩, hraw, hleft⟩ := Except.bind_eq_ok h
    have hlength : littleEndian [UInt8.ofNat bytes.length] ≤ bytes.length := by
      simp only [littleEndian, UInt8.toNat_ofNat']
      omega
    cases hleft
    have htake : (R.take (littleEndian [UInt8.ofNat bytes.length])).run
        ([UInt8.ofNat (bytes.length / 256)] ++ bytes) = .ok (raw, []) := hraw
    generalize littleEndian [UInt8.ofNat bytes.length] = len at hlength htake
    simp only [R.take, StateT.run] at htake
    split at htake
    · have hdrop := (Prod.mk.inj (Except.ok.inj htake)).2
      have := congrArg List.length hdrop
      simp only [List.length_drop, List.length_append, List.length_singleton,
        List.length_nil] at this
      omega
    · cases htake
  · -- the first byte of the value is taken for the high one of its number
    have hbytes : (if most ≤ 255 then 1 else 2) = 1 := if_pos (by omega)
    rw [hbytes, decide_eq_false hwide, Bool.not_false, if_pos rfl] at h
    have hnumber : toLittleEndian 1 bytes.length = [UInt8.ofNat bytes.length] := rfl
    rw [hnumber] at h
    cases bytes with
    | nil => cases h
    | cons b bytes =>
      have hsplit : [UInt8.ofNat (b :: bytes).length] ++ b :: bytes =
          [UInt8.ofNat (b :: bytes).length, b] ++ bytes := rfl
      have htwo : R.u16v.run ([UInt8.ofNat (b :: bytes).length, b] ++ bytes) =
          .ok (littleEndian [UInt8.ofNat (b :: bytes).length, b], bytes) :=
        R.uint_append 2 rfl
      rw [hsplit, R.run_bind_ok htwo, StateT.run_bind] at h
      obtain ⟨⟨raw, left⟩, hraw, -⟩ := Except.bind_eq_ok h
      have hlength : bytes.length <
          littleEndian [UInt8.ofNat (b :: bytes).length, b] := by
        rw [List.length_cons] at hle ⊢
        simp only [littleEndian, UInt8.toNat_ofNat']
        omega
      have htake : (R.take (littleEndian [UInt8.ofNat (b :: bytes).length, b])).run bytes =
        .ok (raw, left) := hraw
      generalize littleEndian [UInt8.ofNat (b :: bytes).length, b] = len at hlength htake
      simp only [R.take, StateT.run] at htake
      rw [if_neg (by omega)] at htake
      cases htake

/-! ## The decoder on each type -/

namespace StringValue

theorem decodeValue_varying (parsers : TypeMap.Parsers) (hmost : most < 65536) (unsigned : Bool)
    (shape : Option ValueShape) :
    decodeValue parsers 15 (toLittleEndian 2 most) unsigned shape =
      readCounted (decide (255 < most)) shape := by
  have hmax : (UInt8.ofNat most).toNat + 256 * (UInt8.ofNat (most / 256)).toNat = most := by
    simp only [UInt8.toNat_ofNat']
    omega
  have hdecode : decodeValue parsers 15 (toLittleEndian 2 most) unsigned shape = (do
      let len ← if (UInt8.ofNat most).toNat + 256 * (UInt8.ofNat (most / 256)).toNat < 256
        then R.u8v else R.u16v
      return stringLike shape (← R.take len)) := rfl
  rw [hdecode, hmax, readCounted]
  by_cases h : 255 < most
  · rw [if_neg (by omega), decide_eq_true h]
    rfl
  · rw [if_pos (by omega), decide_eq_false h]
    rfl

/-- The byte with the type and the high bits is never that of a label or a set. -/
theorem fixed_type : ∀ most < 1024, (UInt8.ofNat (254 ^^^ ((most &&& 0x300) >>> 4))).toNat ≠ 247 ∧
    (UInt8.ofNat (254 ^^^ ((most &&& 0x300) >>> 4))).toNat ≠ 248 := by
  decide +kernel

/-- Of a column of fixed length only the low byte of the most is looked at. -/
theorem decodeValue_fixed (parsers : TypeMap.Parsers) (hmost : most < 1024) (unsigned : Bool)
    (shape : Option ValueShape) :
    decodeValue parsers 254 (fixedMetadata most) unsigned shape =
      readCounted (decide (128 ≤ most % 256)) shape := by
  obtain ⟨henum, hset⟩ := fixed_type most hmost
  have hlow : (UInt8.ofNat (most &&& 0xFF)).toNat = most % 256 := by
    rw [show most &&& 0xFF = most % 256 from Nat.and_two_pow_sub_one_eq_mod most 8,
      UInt8.toNat_ofNat', Nat.mod_mod]
  have hdecode : decodeValue parsers 254 (fixedMetadata most) unsigned shape = (do
      let len ← if 128 ≤ (UInt8.ofNat (most &&& 0xFF)).toNat then R.u16v else R.u8v
      return stringLike shape (← R.take len)) := by
    simp only [decodeValue, fixedMetadata, List.headD_cons, List.getD_cons_succ,
      List.getD_cons_zero]
  rw [hdecode, hlow, readCounted]
  by_cases h : 128 ≤ most % 256
  · rw [if_pos h, decide_eq_true h]
    rfl
  · rw [if_neg h, decide_eq_false h]
    rfl

theorem decodeValue_enum (parsers : TypeMap.Parsers) (size : UInt8) (unsigned : Bool)
    (members : List String) : decodeValue parsers 254 [247, size] unsigned (some (.enum members)) =
      (R.u8v >>= fun ordinal => pure (enumLabel members ordinal)) := by
  rfl

theorem decodeValue_set (parsers : TypeMap.Parsers) (size : UInt8) (unsigned : Bool)
    (members : List String) : decodeValue parsers 254 [248, size] unsigned (some (.set members)) =
      (R.readUintN size.toNat >>= fun mask => pure (setLabels members mask)) := by
  rfl

/-! ## Both readers -/

/-- A value's column in a table map. -/
def mapped (v : StringValue) : MappedColumn where
  code := UInt8.ofNat v.code
  metadata := v.metadata
  length_eq := by cases v <;> rfl

/-- The stream reads a value as the load does, and its bytes exactly, with what the table map says
of its column, whichever columns it stands between. -/
def ReadAlike (parsers : TypeMap.Parsers) (v : StringValue) : Prop :=
  ∀ (before after : List MappedColumn) (rest : List UInt8), ∃ c,
    (columnMetas ((before ++ v.mapped :: after).map MappedColumn.code)
      ((before ++ v.mapped :: after).flatMap MappedColumn.metadata))[before.length]? = some c ∧
    (v.streamed parsers c).run (v.image ++ rest) = .ok (v.loaded parsers, rest)

/-- What a value's bytes are decoded as. -/
def decoded (parsers : TypeMap.Parsers) (v : StringValue) : R Json :=
  decodeValue parsers v.code v.metadata false (some v.shape)

variable {parsers : TypeMap.Parsers} {v : StringValue}

theorem readAlike_iff_decoded :
    ReadAlike parsers v ↔
      ∀ rest, (v.decoded parsers).run (v.image ++ rest) = .ok (v.loaded parsers, rest) := by
  have hcode : (UInt8.ofNat v.code).toNat = v.code := by cases v <;> rfl
  have hcolumn : ∀ before after : List MappedColumn,
      (columnMetas ((before ++ v.mapped :: after).map MappedColumn.code)
        ((before ++ v.mapped :: after).flatMap MappedColumn.metadata))[before.length]? =
          some ⟨⟨v.code, v.metadata, none⟩, "", false, false⟩ := by
    intro before after
    rw [columnMetas_mapped, List.map_append, List.map_cons, List.getElem?_append_right (by simp)]
    simp [mapped, hcode]
  constructor
  · intro h rest
    obtain ⟨c, hc, hread⟩ := h [] [] rest
    have heq := (hcolumn [] []).symm.trans hc
    rw [← Option.some.inj heq] at hread
    exact hread
  · intro h before after rest
    exact ⟨_, hcolumn before after, h rest⟩

/-- Bytes behind their number are read alike where the number's width is right and they mean the
same. -/
theorem counted_readAlike {wide : Bool} (hmost : most < 65536) (hle : bytes.length ≤ most)
    (hdecoded : v.decoded parsers = readCounted wide (some v.shape))
    (himage : v.image = counted most bytes) :
    ReadAlike parsers v ↔ wide = decide (255 < most) ∧
      stringLike (some v.shape) bytes = v.loaded parsers := by
  rw [readAlike_iff_decoded, hdecoded, himage]
  by_cases hwide : wide = decide (255 < most)
  · rw [hwide]
    constructor
    · intro h
      have hread := (readCounted_same hmost hle (some v.shape) []).symm.trans (h [])
      exact ⟨rfl, (Prod.mk.inj (Except.ok.inj hread)).1⟩
    · rintro ⟨-, hsame⟩ rest
      rw [readCounted_same hmost hle, hsame]
  · refine iff_of_false (fun h => ?_) (fun h => hwide h.1)
    have hother : wide = !decide (255 < most) := Bool.eq_not.mpr hwide
    have hread := h []
    rw [hother, List.append_nil] at hread
    exact readCounted_other hmost hle _ _ hread

theorem str_eq_ofList {s t : String} : Json.str s = .str t ↔ s = t :=
  ⟨Json.str.inj, congrArg _⟩

/-- A label or a mask is read alike where its bytes are as many as are read, and they mean the
same. -/
theorem number_readAlike {size number : ℕ} {f : ℕ → Json} (hlt : number < 256 ^ size)
    (hdecoded : v.decoded parsers = (R.uint size >>= fun n => pure (f n)))
    (himage : v.image = toLittleEndian size number) :
    ReadAlike parsers v ↔ f number = v.loaded parsers := by
  have hread : ∀ rest, (v.decoded parsers).run (v.image ++ rest) = .ok (f number, rest) := by
    intro rest
    rw [hdecoded, himage,
      R.run_bind_ok (R.uint_append size (length_toLittleEndian size number)),
      littleEndian_toLittleEndian, Nat.mod_eq_of_lt hlt]
    rfl
  rw [readAlike_iff_decoded]
  constructor
  · intro h
    have heq := (hread []).symm.trans (h [])
    exact (Prod.mk.inj (Except.ok.inj heq)).1
  · intro h rest
    rw [hread rest, h]

/-! ## What the values mean -/

theorem loaded_text (parsers : TypeMap.Parsers) (text : List Char) :
    convert parsers .text (some (utf8Bytes (String.ofList text))) =
      .str (String.ofList text) := by
  simp only [convert, utf8Lossy_utf8Bytes]

/-- Leaving out the zeros at the end changes nothing where there are none. -/
theorem rdropWhile_zeros_iff (bytes : List UInt8) :
    (bytes.rdropWhile fun b => b = 0) = bytes ↔ bytes.getLast? ≠ some 0 := by
  rw [List.rdropWhile_eq_self_iff]
  rcases List.eq_nil_or_concat bytes with rfl | ⟨front, b, rfl⟩
  · simp
  · simp

theorem base64_rdropWhile_iff (bytes : List UInt8) :
    stringLike (some .bytes) (bytes.rdropWhile fun b => b = 0) =
        .str (String.ofList (base64 bytes)) ↔ bytes.getLast? ≠ some 0 := by
  rw [← rdropWhile_zeros_iff]
  constructor
  · intro h
    have htext := congrArg String.toList (Json.str.inj h)
    rw [String.toList_ofList, String.toList_ofList] at htext
    exact base64_injective htext
  · intro h
    rw [h]
    rfl

/-- An ordinal names the label that a query answers. -/
theorem enumLabel_eq (parsers : TypeMap.Parsers) (members : List String) (ordinal : ℕ) :
    enumLabel members ordinal = convert parsers (.enum members)
      (some (utf8Bytes (if ordinal = 0 then "" else members.getD (ordinal - 1) ""))) := by
  simp only [convert, utf8Lossy_utf8Bytes, enumLabel]
  split
  · rfl
  · rfl

variable {members : List String}

theorem setLabels_eq (hfits : members.length ≤ 64) (mask : ℕ) :
    setLabels members mask = .arr ((chosen members mask).map Json.str) := by
  have hfilter : (members.zipIdx.filter fun (_, i) => i < 64 ∧ mask.testBit i) =
      members.zipIdx.filter fun (_, i) => mask.testBit i := by
    refine List.filter_congr fun p hp => ?_
    have hlt : p.2 < 64 := by
      have := (List.mem_zipIdx hp).2.1
      omega
    simp [hlt]
  rw [setLabels, hfilter, chosen, List.map_map]
  rfl

theorem mem_of_mem_chosen {mask : ℕ} {m : String} (h : m ∈ chosen members mask) : m ∈ members := by
  obtain ⟨p, hp, rfl⟩ := List.mem_map.mp h
  obtain ⟨-, -, hget⟩ := List.mem_zipIdx (List.mem_of_mem_filter hp)
  rw [hget]
  exact List.getElem_mem _

/-- The members that are chosen are told apart again by the commas between them, but for the empty
one. -/
theorem loaded_set (parsers : TypeMap.Parsers) (members : List String)
    (hplain : ∀ m ∈ members, ',' ∉ m.toList) (mask : ℕ) :
    convert parsers (.set members) (some (utf8Bytes
        (String.ofList (List.intercalate [','] ((chosen members mask).map String.toList))))) =
      .arr (((chosen members mask).filter fun m => m ≠ "").map Json.str) := by
  simp only [convert, utf8Lossy_utf8Bytes, String.toList_ofList]
  have hcomma : ∀ l ∈ (chosen members mask).map String.toList, ',' ∉ l := by
    intro l hl
    obtain ⟨m, hm, rfl⟩ := List.mem_map.mp hl
    exact hplain m (mem_of_mem_chosen hm)
  generalize chosen members mask = labels at hcomma
  cases labels with
  | nil => rfl
  | cons label labels =>
    have hstr : (fun s => Json.str (String.ofList s)) ∘ String.toList = Json.str :=
      funext fun m => congrArg Json.str String.ofList_toList
    rw [List.splitOn_intercalate ',' hcomma (List.cons_ne_nil _ _), List.filter_map, List.map_map,
      hstr]
    refine congrArg (fun labels => Json.arr (labels.map Json.str)) (List.filter_congr ?_)
    intro m _
    have hempty : m.toList = [] ↔ m = "" := String.toList_eq_nil_iff
    simp [hempty]

theorem setLabels_eq_iff (parsers : TypeMap.Parsers) (hfits : members.length ≤ 64)
    (hplain : ∀ m ∈ members, ',' ∉ m.toList) (mask : ℕ) :
    setLabels members mask = convert parsers (.set members)
        (some (utf8Bytes
          (String.ofList (List.intercalate [','] ((chosen members mask).map String.toList))))) ↔
      "" ∉ chosen members mask := by
  rw [setLabels_eq hfits, loaded_set parsers members hplain]
  generalize chosen members mask = labels
  constructor
  · intro h hmem
    have hfilter := List.map_injective_iff.mpr (fun _ _ => Json.str.inj) (Json.arr.inj h)
    rw [hfilter] at hmem
    exact absurd (List.of_mem_filter hmem) (by simp)
  · intro h
    have hfilter : (labels.filter fun m => m ≠ "") = labels := by
      rw [List.filter_eq_self]
      intro m hm
      exact decide_eq_true fun heq => h (heq ▸ hm)
    rw [hfilter]

/-! ## For every value -/

/-- A column of fixed length is read alike where the width of its numbers follows from the low byte
of the most it holds as it does from the most. -/
theorem fixed_readAlike (hmost : most < 1024) (hle : bytes.length ≤ most) (hcode : v.code = 254)
    (hmetadata : v.metadata = fixedMetadata most) (himage : v.image = counted most bytes) :
    ReadAlike parsers v ↔ (255 < most ↔ 128 ≤ most % 256) ∧
      stringLike (some v.shape) bytes = v.loaded parsers := by
  have hdecoded : v.decoded parsers = readCounted (decide (128 ≤ most % 256)) (some v.shape) := by
    rw [decoded, hcode, hmetadata, decodeValue_fixed parsers hmost]
  rw [counted_readAlike (by omega) hle hdecoded himage, decide_eq_decide]
  exact and_congr_left fun _ => Iff.comm

theorem varying_readAlike (hmost : most < 65536) (hle : bytes.length ≤ most) (hcode : v.code = 15)
    (hmetadata : v.metadata = toLittleEndian 2 most)
    (himage : v.image = counted most bytes) :
    ReadAlike parsers v ↔ stringLike (some v.shape) bytes = v.loaded parsers := by
  have hdecoded : v.decoded parsers = readCounted (decide (255 < most)) (some v.shape) := by
    rw [decoded, hcode, hmetadata, decodeValue_varying parsers hmost]
  rw [counted_readAlike hmost hle hdecoded himage]
  exact and_iff_right rfl

/-- An ordinal of two bytes is read as its first, and the second is left to the next column. -/
theorem not_readAlike_of_wide (parsers : TypeMap.Parsers) (members : List String) (ordinal : ℕ)
    (hfits : members.length < 65536) (hle : ordinal ≤ members.length)
    (hwide : 255 < members.length) :
    ¬ReadAlike parsers (.enum members ordinal hfits hle) := by
  intro h
  have hread := readAlike_iff_decoded.mp h []
  have hbytes : enumBytes members.length = 2 := if_neg (by omega)
  have himage : (enum members ordinal hfits hle).image =
      [UInt8.ofNat ordinal] ++ [UInt8.ofNat (ordinal / 256)] := by
    rw [image, hbytes]
    rfl
  have hone : R.u8v.run ([UInt8.ofNat ordinal] ++ [UInt8.ofNat (ordinal / 256)]) =
      .ok (littleEndian [UInt8.ofNat ordinal], [UInt8.ofNat (ordinal / 256)]) :=
    R.uint_append 1 rfl
  have hdecoded : (enum members ordinal hfits hle).decoded parsers =
      (R.u8v >>= fun ordinal => pure (enumLabel members ordinal)) :=
    decodeValue_enum parsers _ false members
  rw [List.append_nil, hdecoded, himage, R.run_bind_ok hone] at hread
  exact absurd (Prod.mk.inj (Except.ok.inj hread)).2 (List.cons_ne_nil _ _)

theorem setBytes_spec {members : ℕ} (h : members ≤ 64) :
    setBytes members ≤ 8 ∧ members ≤ 8 * setBytes members := by
  rw [setBytes]
  split
  · omega
  · omega

/-- Its bytes are decoded as what is loaded exactly where it reads the same. -/
theorem decoded_iff (parsers : TypeMap.Parsers) (v : StringValue) :
    (∀ rest, (v.decoded parsers).run (v.image ++ rest) = .ok (v.loaded parsers, rest)) ↔
      v.ReadsSame := by
  rw [← readAlike_iff_decoded]
  cases v with
  | char charset chars text bytes hchars hwidth hstored hlength htrimmed =>
    have hle : bytes.length ≤ charset.width * chars :=
      (charset.length_le hstored).trans (Nat.mul_le_mul_left _ hlength)
    have hmost : charset.width * chars ≤ 4 * 255 := Nat.mul_le_mul hwidth hchars
    rw [fixed_readAlike (by omega) hle rfl rfl rfl, loaded, StringValue.text, shape, loaded_text]
    exact and_congr_right fun _ => str_eq_ofList
  | varchar charset chars text bytes hfits hstored hlength =>
    have hle : bytes.length ≤ charset.width * chars :=
      (charset.length_le hstored).trans (Nat.mul_le_mul_left _ hlength)
    rw [varying_readAlike hfits hle rfl rfl rfl, loaded, StringValue.text, shape, loaded_text]
    exact str_eq_ofList
  | binary bytes hlength =>
    have hle : (bytes.rdropWhile fun b => b = 0).length ≤ bytes.length :=
      (List.rdropWhile_prefix _ _).length_le
    rw [fixed_readAlike (by omega) hle rfl rfl rfl]
    exact and_congr (by omega) (base64_rdropWhile_iff bytes)
  | varbinary most bytes hfits hlength =>
    rw [varying_readAlike hfits hlength rfl rfl rfl]
    exact iff_of_true rfl trivial
  | enum members ordinal hfits hle =>
    by_cases hwide : 255 < members.length
    · exact iff_of_false (not_readAlike_of_wide parsers members ordinal hfits hle hwide)
        (not_le.mpr hwide)
    · have hbytes : enumBytes members.length = 1 := if_pos (by omega)
      have himage : (enum members ordinal hfits hle).image = toLittleEndian 1 ordinal := by
        rw [image, hbytes]
      have hdecoded : (enum members ordinal hfits hle).decoded parsers =
          (R.uint 1 >>= fun ordinal => pure (enumLabel members ordinal)) :=
        decodeValue_enum parsers _ false members
      rw [number_readAlike (by omega) hdecoded himage]
      exact iff_of_true (enumLabel_eq parsers members ordinal) (not_lt.mp hwide)
  | set members mask hfits hlt hplain =>
    obtain ⟨hsize, hmembers⟩ := setBytes_spec hfits
    have hnat : (UInt8.ofNat (setBytes members.length)).toNat = setBytes members.length := by
      rw [UInt8.toNat_ofNat']
      omega
    have hdecoded : (set members mask hfits hlt hplain).decoded parsers =
        (R.uint (setBytes members.length) >>= fun mask =>
          pure (setLabels members mask)) := by
      refine (decodeValue_set parsers _ false members).trans ?_
      rw [hnat, R.readUintN, min_eq_left hsize]
    have hmask : mask < 256 ^ setBytes members.length := by
      refine hlt.trans_le ?_
      rw [show 256 = 2 ^ 8 by decide, ← pow_mul]
      exact Nat.pow_le_pow_right (by decide) hmembers
    rw [number_readAlike hmask hdecoded rfl]
    exact setLabels_eq_iff parsers hfits hplain mask

/-- A letter in a CHAR(200) of one byte a character. -/
def letter : StringValue :=
  .char .latin1 200 ['a'] [97] (by decide) (by decide) (by decide) (by decide) (by decide)

/-- A letter and a zero in a BINARY(2). -/
def letterAndZero : StringValue :=
  .binary [97, 0] (by decide)

end StringValue

end MySql

end Pg2osync
