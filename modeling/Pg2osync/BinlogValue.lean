import Pg2osync.BinlogRow
import Pg2osync.ByteOrder
import Pg2osync.Calendar
import Pg2osync.Utf8

/-!
# Values of the binlog

A row image has the bytes of its values one after the other, each as its type writes them. The
table map ahead of it names the types; what the bytes of a string mean is the catalogue's to
say. The initial load reads the same values as text.
-/

namespace Pg2osync

namespace MySql

/-! ## Reading bytes -/

/-- Why an event is not read. -/
inductive DecodeError : Type where
  /-- its bytes end too early -/
  | eof : DecodeError
  /-- its rows are of no table -/
  | unknownTable (id : ℕ) : DecodeError
  /-- a column is of a type that is not read -/
  | unsupportedType (ty : ℕ) (col : String) : DecodeError
  /-- it is of no kind -/
  | unknownType (ty : ℕ) : DecodeError
  deriving DecidableEq, Repr

/-- An error as text. -/
def DecodeError.describe : DecodeError → String
  | .eof => "unexpected end of event payload"
  | .unknownTable id => "rows event for unknown table_id " ++ toString id
  | .unsupportedType _ _ => "unsupported mysql column type"
  | .unknownType ty => "unknown event type " ++ toString ty

/-- What is read from some bytes, and the bytes behind it. -/
abbrev R : Type → Type :=
  StateT (List UInt8) (Except DecodeError)

namespace R

/-- The next bytes. -/
def take (n : ℕ) : R (List UInt8) := fun bytes =>
  if n ≤ bytes.length then .ok (bytes.take n, bytes.drop n) else .error .eof

/-- A number of some bytes. -/
def uint (n : ℕ) : R ℕ := do
  return Encoding.littleEndian (← take n)

def u8v : R ℕ := uint 1
def u16v : R ℕ := uint 2
def u24 : R ℕ := uint 3
def u32v : R ℕ := uint 4
def u48 : R ℕ := uint 6
def u64v : R ℕ := uint 8

/-- A length, in as many bytes as it takes. -/
def lenenc : R ℕ := do
  match ← u8v with
  | 0xFB => return 0
  | 0xFC => u16v
  | 0xFD => u24
  | 0xFE => u64v
  | v => return v

/-- `read_uint_n`. -/
def readUintN (n : ℕ) : R ℕ :=
  uint (min n 8)

end R

/-! ## Declared types -/

namespace TypeMap

/-- The labels between quotes, behind one that was begun. A doubled quote is one. -/
def labelsFrom : Option (List Char) → List Char → List String
  | none, [] => []
  | some label, [] => [String.ofList label]
  | none, c :: rest => labelsFrom (if c = '\'' then some [] else none) rest
  | some label, '\'' :: '\'' :: rest => labelsFrom (some (label ++ ['\''])) rest
  | some label, c :: rest =>
    if c = '\'' then String.ofList label :: labelsFrom none rest
    else labelsFrom (some (label ++ [c])) rest

/-- The labels of an `enum` or a `set`. -/
def labels (columnType : String) : List String :=
  match columnType.toList.dropWhile fun c => c ≠ '(' with
  | [] => []
  | _ :: inner => labelsFrom none (inner.reverse.dropWhile fun c => c = ')').reverse

/-- What the values of a column are. -/
def shapeOf (dataType columnType : String) : ValueShape :=
  if dataType ∈ ["tinyint", "smallint", "mediumint", "int", "integer", "bigint", "year"] then .int
  else if dataType ∈ ["float", "double"] then .float
  else if dataType ∈ ["decimal", "numeric"] then .decimal
  else if dataType = "json" then .json
  else if dataType = "bit" then .bits
  else if dataType = "enum" then .enum (labels columnType)
  else if dataType = "set" then .set (labels columnType)
  else if dataType ∈ ["binary", "varbinary", "tinyblob", "blob", "mediumblob", "longblob",
      "geometry", "point", "linestring", "polygon", "multipoint", "multilinestring",
      "multipolygon", "geomcollection", "geometrycollection"] then .bytes
  else .text

/-- What reads a number with a fraction, giving its text, and a document, as text or as the
server stores it. -/
structure Parsers : Type where
  float : String → Option String
  json : List UInt8 → Option Json
  binaryJson : List UInt8 → Option Json

/-- No numbers with a fraction and no documents. -/
def Parsers.nothing : Parsers :=
  ⟨fun _ => none, fun _ => none, fun _ => none⟩

/-- `str::parse::<i64>`. -/
def parseI64 (s : String) : Option ℤ :=
  (Encoding.readInt s.toList).filter fun n => -2 ^ 63 ≤ n ∧ n < 2 ^ 63

/-- Bytes as a number, the high one first. -/
def beUint (bytes : List UInt8) : ℕ :=
  Encoding.bigEndian (bytes.take 8)

/-- A value that the load reads. -/
def convert (parsers : Parsers) (shape : ValueShape) : Option (List UInt8) → Json
  | none => .null
  | some raw =>
    let text := Encoding.utf8Lossy raw
    match shape with
    | .int => (parseI64 text).elim (.str text) .int
    | .float => (parsers.float text).elim (.str text) .float
    | .json => (parsers.json raw).getD (.str text)
    | .bytes => .str (String.ofList (Encoding.base64 raw))
    | .bits => .int (beUint raw)
    | .enum _ => .str text
    | .set _ => .arr (((text.toList.splitOn ',').filter fun s => s ≠ []).map fun s =>
        .str (String.ofList s))
    | .decimal | .text => .str text

/-- The label that an ordinal names. -/
def enumLabel (labels : List String) (ordinal : ℕ) : Json :=
  if ordinal = 0 then .str "" else .str (labels.getD (ordinal - 1) "")

/-- The labels that a mask names, the low bit first. -/
def setLabels (labels : List String) (mask : ℕ) : Json :=
  .arr ((labels.zipIdx.filter fun (_, i) => i < 64 ∧ mask.testBit i).map fun (label, _) =>
    .str label)

end TypeMap

/-! ## Values of a row image -/

/-- An integer in two's complement, which is written out to eight bytes first. -/
def signedInt (nbytes : ℕ) : R Json := do
  let raw ← R.take nbytes
  let fill : UInt8 := if raw.getLastD 0 &&& 0x80 ≠ 0 then 0xFF else 0
  let buf := raw ++ List.replicate (8 - nbytes) fill
  return .int ((Encoding.littleEndian buf : ℤ).bmod (2 ^ 64))

/-- Two digits or more. -/
def twoDigits (n : ℕ) : List Char :=
  Encoding.padded 2 n

/-- A date and a time, with what is behind the seconds. -/
def dateTimeText (date : Calendar.Date) (hour minute second : ℕ) (fraction : List Char) :
    List Char :=
  Encoding.padded 4 date.year ++ '-' :: (twoDigits date.month ++ '-' :: (twoDigits date.day ++
    ' ' :: (twoDigits hour ++ ':' :: (twoDigits minute ++ ':' :: (twoDigits second ++ fraction)))))

/-- `format_unix_ts`. -/
def formatUnixTs (secs micros : ℕ) : String :=
  let days := secs / 86400
  let rem := secs % 86400
  let frac := if 0 < micros then '.' :: Encoding.padded 6 micros else []
  String.ofList (dateTimeText (Calendar.civil (days + 719468)) (rem / 3600) (rem % 3600 / 60)
    (rem % 60) frac)

/-- The bytes of a group of decimal digits. -/
def digBytes (digits : ℕ) : ℕ :=
  [0, 1, 1, 2, 2, 3, 3, 4, 4, 4].getD digits 0

/-- Whole groups of nine digits. -/
def nines (buf : List UInt8) (pos count : ℕ) : List Char :=
  (List.range count).flatMap fun i =>
    Encoding.padded 9 (Encoding.bigEndian ((buf.drop (pos + 4 * i)).take 4))

/-- `decode_decimal`. -/
def decodeDecimal (precision scale : ℕ) : R Json := do
  let intg := precision - scale
  let intg0 := intg / 9
  let intgFirst := intg - intg0 * 9
  let frac0 := scale / 9
  let fracLast := scale - frac0 * 9
  let raw ← R.take (intg0 * 4 + digBytes intgFirst + frac0 * 4 + digBytes fracLast)
  let positive := raw.headD 0 &&& 0x80 ≠ 0
  -- a negative one is stored complemented; the top bit is the sign either way
  let plain := if positive then raw else raw.map fun b => ~~~b
  let buf := (plain.headD 0 &&& 0x7F) :: plain.tail
  let first := if 0 < intgFirst then
      Nat.toDigits 10 (Encoding.bigEndian (buf.take (digBytes intgFirst))) else []
  let fracAt := digBytes intgFirst + 4 * intg0
  let intDigits := (first ++ nines buf (digBytes intgFirst) intg0).dropWhile fun c => c = '0'
  let last := if 0 < fracLast then Encoding.padded fracLast
      (Encoding.bigEndian ((buf.drop (fracAt + 4 * frac0)).take (digBytes fracLast))) else []
  let fracDigits := (nines buf fracAt frac0 ++ last).take scale
  let sign := if positive ∨ intDigits = [] ∧ fracDigits = [] then [] else ['-']
  let whole := if intDigits = [] then ['0'] else intDigits
  let fraction := if scale = 0 then [] else
    '.' :: (if fracDigits = [] then List.replicate scale '0' else fracDigits)
  return .str (String.ofList (sign ++ whole ++ fraction))

/-- The bytes of a string column, of which the declared type says what they are. -/
def stringLike (shape : Option ValueShape) (bytes : List UInt8) : Json :=
  match shape with
  | some .bytes => .str (String.ofList (Encoding.base64 bytes))
  | _ => .str (Encoding.utf8Lossy bytes)

/-- TIMESTAMP2: seconds, then a fraction. -/
def decodeTimestamp (fsp : ℕ) : R Json := do
  let secs := Encoding.bigEndian (← R.take 4)
  let frac := Encoding.littleEndian (← R.take ((fsp + 1) / 2))
  return .str (formatUnixTs secs (frac * 10 ^ (6 - fsp)))

/-- DATETIME2: the parts of a date and a time packed into five bytes, then a fraction. -/
def decodeDatetime (fsp : ℕ) : R Json := do
  let intPart := Encoding.bigEndian (← R.take 5)
  let ym := (intPart >>> 22) &&& 0x1FFFF
  let day := (intPart >>> 17) &&& 0x1F
  let hour := (intPart >>> 12) &&& 0x1F
  let minute := (intPart >>> 6) &&& 0x3F
  let second := intPart &&& 0x3F
  let stored := Encoding.bigEndian (← R.take ((fsp + 1) / 2))
  let micros := if 0 < fsp then stored * 10 ^ (6 - fsp) else stored
  let frac := if 0 < fsp then '.' :: Encoding.padded fsp (micros / 10 ^ (6 - fsp)) else []
  return .str (String.ofList (dateTimeText ⟨ym / 13, ym % 13, day⟩ hour minute second frac))

/-- The text of a packed time; a negative one has its bits inverted. -/
def timeText (nbytes : ℕ) (raw : List UInt8) : List Char :=
  let negative := raw.headD 0 &&& 0x80 = 0
  let v := Encoding.bigEndian (raw.map fun b => if negative then ~~~b else b) &&&
    (2 ^ (8 * nbytes - 1) - 1)
  let hours := v >>> 24
  let minutes := (v >>> 16) &&& 0xFF
  let seconds := (v >>> 8) &&& 0xFF
  let sign := if negative then ['-'] else []
  sign ++ (twoDigits hours ++ ':' :: (twoDigits minutes ++ ':' :: twoDigits seconds))

/-- TIME2: a packed time and a fraction. -/
def decodeTime (fsp : ℕ) : R Json := do
  let nbytes := 3 + (fsp + 1) / 2
  let raw ← R.take nbytes
  return .str (String.ofList (timeText nbytes raw))

/-- `decode_value_inner`. -/
def decodeValue (parsers : TypeMap.Parsers) (ty : ℕ) (metadata : List UInt8) (unsigned : Bool)
    (shape : Option ValueShape) : R Json :=
  let first := (metadata.headD 0).toNat
  let second := (metadata.getD 1 0).toNat
  match ty with
  | 1 => if unsigned then return .int (← R.u8v) else signedInt 1
  | 2 => if unsigned then return .int (← R.u16v) else signedInt 2
  | 9 => do
    let v ← R.u24
    if unsigned then return .int v
    else
      -- up to 32 bits and back, and then as a number without a sign
      let se := ((v * 2 ^ 8 : ℤ).bmod (2 ^ 32)) >>> (8 : ℕ)
      return .int (se % 2 ^ 64)
  | 3 => if unsigned then return .int (← R.u32v) else signedInt 4
  | 8 => if unsigned then return .int (← R.u64v) else signedInt 8
  | 13 => return .int ((← R.u8v) + 1900)
  | 10 | 14 => do
    let v ← R.u24
    let day := v &&& 31
    let month := (v >>> 5) &&& 15
    let year := v >>> 9
    return .str (String.ofList (Encoding.padded 4 year ++ '-' :: (twoDigits month ++
      '-' :: twoDigits day)))
  | 17 => decodeTimestamp first
  | 18 => decodeDatetime first
  | 19 => decodeTime first
  | 246 => decodeDecimal first second
  | 15 | 253 => do
    let maxLen := first + 256 * second
    let len ← if maxLen < 256 then R.u8v else R.u16v
    return stringLike shape (← R.take len)
  | 254 =>
    -- the first byte may hide the real type
    match (metadata.headD 254).toNat with
    | 247 => do
      let ordinal ← R.u8v
      match shape with
      | some (.enum labels) => return TypeMap.enumLabel labels ordinal
      | _ => return .int ordinal
    | 248 => do
      let mask ← R.readUintN (metadata.getD 1 1).toNat
      match shape with
      | some (.set labels) => return TypeMap.setLabels labels mask
      | _ => return .int mask
    | _ => do
      let len ← if 128 ≤ second then R.u16v else R.u8v
      return stringLike shape (← R.take len)
  | 245 => do
    let len ← R.readUintN (metadata.headD 4).toNat
    let bytes ← R.take len
    match parsers.binaryJson bytes with
    | some value => return value
    | none => return .str ("__mysql_json_hex:" ++ String.ofList (Encoding.hex bytes))
  | 249 | 250 | 251 | 252 => do
    let len ← R.readUintN (metadata.headD 1).toNat
    return stringLike shape (← R.take len)
  | 16 => do
    let bits := second * 8 + first
    return .int (TypeMap.beUint (← R.take (max ((bits + 7) / 8) 1)))
  | 255 => do
    let len ← R.readUintN (metadata.headD 1).toNat
    return .str (String.ofList (Encoding.base64 (← R.take len)))
  | 0 => throw (.unsupportedType 0 "decimal")
  | other => throw (.unsupportedType other "?")

/-! ## Table maps -/

/-- What a table map may say besides. -/
structure OptionalMeta : Type where
  /-- the names of the columns -/
  columnNames : List String
  /-- which of them are the key -/
  pkColumnIndexes : List ℕ
  deriving DecidableEq

/-- A column of a table map. -/
structure TableMapColumn extends ColMeta where
  /-- its name -/
  name : String
  /-- whether it has no sign -/
  unsigned : Bool
  /-- whether it is of the key -/
  primaryKey : Bool
  deriving DecidableEq

/-- A table map. -/
structure TableMapEvent : Type where
  /-- the number that stands for the table -/
  tableId : ℕ
  /-- its schema -/
  schema : String
  /-- its name -/
  name : String
  /-- its columns -/
  columns : List TableMapColumn
  /-- what it says besides -/
  optional : OptionalMeta

/-- How many bytes belong to a type. -/
def metaSize : ℕ → ℕ
  | 15 | 253 => 2
  | 254 => 2
  | 246 => 2
  | 16 => 2
  | 17 | 18 | 19 => 1
  | 245 => 1
  | 250 | 251 | 252 => 1
  | _ => 0

/-- The columns of some types, each with its part of what belongs to them. -/
def columnMetas : List UInt8 → List UInt8 → List TableMapColumn
  | [], _ => []
  | ty :: types, area =>
    let size := metaSize ty.toNat
    { typeCode := ty.toNat
      metadata := if size ≤ area.length then area.take size else []
      shape := none
      name := ""
      unsigned := false
      primaryKey := false } :: columnMetas types (area.drop size)

/-- The lengths that some bytes are. -/
def lenencs : ℕ → List UInt8 → List ℕ
  | 0, _ => []
  | fuel + 1, bytes =>
    match R.lenenc.run bytes with
    | .ok (i, rest) => i :: lenencs fuel rest
    | .error _ => []

/-- One field that is optional. -/
def OptionalMeta.put (opt : OptionalMeta) (ty : ℕ) (val : List UInt8) : OptionalMeta :=
  if ty = 3 then
    let names := ((Encoding.utf8Lossy val).toList.splitOn (Char.ofNat 0)).filter fun s => s ≠ []
    { opt with columnNames := names.map String.ofList }
  else if ty = 5 then
    { opt with pkColumnIndexes := opt.pkColumnIndexes ++ lenencs val.length val }
  else opt

/-- The fields that are optional, up to one that is cut off. -/
def optionalFields : ℕ → List UInt8 → OptionalMeta → OptionalMeta
  | 0, _, opt => opt
  | fuel + 1, a :: b :: c :: d :: rest, opt =>
    let len := Encoding.littleEndian [c, d]
    if len ≤ rest.length then
      optionalFields fuel (rest.drop len) (opt.put (Encoding.littleEndian [a, b]) (rest.take len))
    else opt
  | _ + 1, _, opt => opt

/-- What is said of the columns besides. -/
def OptionalMeta.fill (opt : OptionalMeta) (columns : List TableMapColumn) : List TableMapColumn :=
  columns.zipIdx.map fun (c, i) =>
    { c with
      name := (opt.columnNames[i]?).getD c.name
      primaryKey := opt.pkColumnIndexes.contains i }

/-- The body of a table map. -/
def readTableMap : R TableMapEvent := do
  let tableId ← R.u48
  let _flags ← R.u16v
  let schema := Encoding.utf8Lossy (← R.take (← R.u8v))
  let _nul ← R.u8v
  let name := Encoding.utf8Lossy (← R.take (← R.u8v))
  let _nul ← R.u8v
  let ncols ← R.lenenc
  let types ← R.take ncols
  let metaArea ← R.take (← R.lenenc)
  let _nullable ← R.take ((ncols + 7) / 8)
  let rest ← get
  let opt := optionalFields rest.length rest ⟨[], []⟩
  return ⟨tableId, schema, name, opt.fill (columnMetas types metaArea), opt⟩

/-- `parse_table_map`. -/
def parseTableMap (payload : List UInt8) : Except DecodeError TableMapEvent :=
  (readTableMap.run payload).map Prod.fst

/-- The value of a column, from the bytes of a row image. -/
def TableMapColumn.decode (parsers : TypeMap.Parsers) (c : TableMapColumn) : R Json :=
  decodeValue parsers c.typeCode c.metadata c.unsigned c.shape

/-! ## What is read -/

/-- Whatever is read satisfies a condition. -/
def R.Yields {α : Type} (x : R α) (P : α → Prop) : Prop :=
  ∀ bytes r, x.run bytes = .ok r → P r.1

theorem R.Yields.bind {α β : Type} {x : R α} {f : α → R β} {P : β → Prop}
    (h : ∀ a, R.Yields (f a) P) : R.Yields (x >>= f) P := by
  intro bytes r hr
  rw [StateT.run_bind] at hr
  obtain ⟨⟨a, rest⟩, -, hf⟩ := Except.bind_eq_ok hr
  exact h a rest r hf

theorem R.Yields.pure {α : Type} {a : α} {P : α → Prop} (h : P a) : R.Yields (pure a) P := by
  intro bytes r hr
  cases hr
  exact h

/-- What is read first, and then the rest. -/
theorem R.run_bind_ok {α β : Type} {x : R α} {a : α} {bytes rest : List UInt8}
    (h : x.run bytes = .ok (a, rest)) (f : α → R β) : (x >>= f).run bytes = (f a).run rest := by
  rw [StateT.run_bind, h]
  rfl

@[simp] theorem R.take_append (n : ℕ) {raw rest : List UInt8} (h : raw.length = n) :
    (R.take n).run (raw ++ rest) = .ok (raw, rest) := by
  subst h
  simp [R.take, StateT.run]

@[simp] theorem R.uint_append (n : ℕ) {raw rest : List UInt8} (h : raw.length = n) :
    (R.uint n).run (raw ++ rest) = .ok (Encoding.littleEndian raw, rest) := by
  simp only [R.uint, StateT.run_bind, R.take_append n h]
  rfl

variable {c : TableMapColumn}

theorem columnMetas_signed {types area : List UInt8} (hc : c ∈ columnMetas types area) :
    c.unsigned = false := by
  induction types generalizing area with
  | nil => cases hc
  | cons ty types ih =>
    rcases List.mem_cons.mp hc with rfl | hc
    · rfl
    · exact ih hc

theorem OptionalMeta.mem_fill {opt : OptionalMeta} {columns : List TableMapColumn}
    (hc : c ∈ opt.fill columns) : ∃ c' ∈ columns, c.unsigned = c'.unsigned := by
  obtain ⟨⟨c', i⟩, hmem, rfl⟩ := List.mem_map.mp hc
  exact ⟨c', (List.mem_zipIdx hmem).2.2 ▸ List.getElem_mem _, rfl⟩

/-- No table map says that a column has no sign. -/
theorem parseTableMap_signed {payload : List UInt8} {table : TableMapEvent}
    (h : parseTableMap payload = .ok table) (hc : c ∈ table.columns) : c.unsigned = false := by
  have hread : R.Yields readTableMap fun table => ∀ c ∈ table.columns, c.unsigned = false := by
    unfold readTableMap
    repeat refine .bind fun _ => ?_
    refine .pure fun c hc => ?_
    obtain ⟨c', hc', hsign⟩ := OptionalMeta.mem_fill hc
    rw [hsign]
    exact columnMetas_signed hc'
  obtain ⟨⟨read, rest⟩, hrun, rfl⟩ := Except.map_eq_ok h
  exact hread payload _ hrun c hc

end MySql

end Pg2osync
