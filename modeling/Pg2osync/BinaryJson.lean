import Pg2osync.PackedDecimal
import Pg2osync.Reshape
import Pg2osync.Walk

/-!
# JSON as the server stores it

A document is a byte that names its type and what follows it. An object or an array begins with
how many entries it has and how many bytes it takes; an entry is a byte that names a type and either
the value, if that is small enough, or where the value begins, counted from the start of the
container.

The decoder goes where the entries say. So it is given a number of steps here, and what it has made
of a document after them may be that it is still running.
-/

namespace Pg2osync

/-- The double of 64 bits. -/
def Double.ofBits (bits : ℕ) : Double :=
  let negative := decide (bits / 2 ^ 63 % 2 = 1)
  let exponent : ℕ := bits / 2 ^ 52 % 2 ^ 11
  let fraction : ℕ := bits % 2 ^ 52
  if exponent = 2047 then (if fraction = 0 then .infinite negative else .nan)
  else
    let units : ℕ := if exponent = 0 then fraction else (2 ^ 52 + fraction) * 2 ^ (exponent - 1)
    .finite (if negative then -(units : ℤ) else units)

namespace MySql

namespace BinaryJson

/-! ## Type codes -/

def SMALL_OBJECT : ℕ := 0x00
def LARGE_OBJECT : ℕ := 0x01
def SMALL_ARRAY : ℕ := 0x02
def LARGE_ARRAY : ℕ := 0x03
def LITERAL : ℕ := 0x04
def INT16 : ℕ := 0x05
def UINT16 : ℕ := 0x06
def INT32 : ℕ := 0x07
def UINT32 : ℕ := 0x08
def INT64 : ℕ := 0x09
def UINT64 : ℕ := 0x0a
def DOUBLE : ℕ := 0x0b
def STRING : ℕ := 0x0c
def OPAQUE : ℕ := 0x0f

/-! ## Reading -/

/-- `head`: the first bytes. -/
def head (n : ℕ) (data : List UInt8) : Option (List UInt8) :=
  if n ≤ data.length then some (data.take n) else none

/-- `data.get(at..)`. -/
def behind (data : List UInt8) (start : ℕ) : Option (List UInt8) :=
  if start ≤ data.length then some (data.drop start) else none

def literal (code : UInt8) : Option Json :=
  if code = 0 then some .null
  else if code = 1 then some (.bool true)
  else if code = 2 then some (.bool false)
  else none

/-- The groups of seven bits of a length, behind those that were read. -/
def varLenFrom (len i : ℕ) : ℕ → List UInt8 → Option (ℕ × List UInt8)
  | 0, _ | _, [] => none
  | left + 1, byte :: rest =>
    let len := len ||| (byte &&& 0x7F).toNat <<< (7 * i)
    if byte &&& 0x80 = 0 then some (len, rest) else varLenFrom len (i + 1) left rest

/-- `var_len`. -/
def varLen (data : List UInt8) : Option (ℕ × List UInt8) :=
  varLenFrom 0 0 5 data

/-- How many bytes an offset has. -/
def width (large : Bool) : ℕ :=
  if large then 4 else 2

def field (data : List UInt8) (start : ℕ) (large : Bool) : Option ℕ :=
  (behind data start).bind fun data => (head (width large) data).map Encoding.littleEndian

/-- An integer of some bytes, in two's complement. -/
def signed (n : ℕ) (data : List UInt8) : Option Json :=
  (head n data).map fun raw => .int ((Encoding.littleEndian raw : ℤ).bmod (256 ^ n))

/-- And one without a sign. -/
def unsigned (n : ℕ) (data : List UInt8) : Option Json :=
  (head n data).map fun raw => .int (Encoding.littleEndian raw)

/-- `Number::from_f64`: JSON has no way to spell a NaN or an infinity. -/
def fromF64 (serde : SerdeJson) : Double → Option Json
  | .finite units => some (.float (serde.print units))
  | _ => none

/-! ## Opaque values -/

/-- The bytes of a packed decimal. -/
def decimalSize (precision scale : ℕ) : ℕ :=
  let intg := precision - scale
  intg / 9 * 4 + digBytes (intg - intg / 9 * 9) + scale / 9 * 4 + digBytes (scale - scale / 9 * 9)

/-- `decode_packed_decimal`: the sign is looked for in the first byte, which there must be. -/
def decodePackedDecimal (bytes : List UInt8) (precision scale : ℕ) : Walked String :=
  if decimalSize precision scale = 0 then .panics
  else
    match (decodeDecimal precision scale).run bytes with
    | .ok (.str s, _) => .value s
    | _ => .nothing

/-- `packed`: up to eight bytes as one word with a sign. -/
def packed (body : List UInt8) : ℤ :=
  (Encoding.littleEndian (body.take 8) : ℤ).bmod (2 ^ 64)

/-- The parts of a date and a time in one word. -/
structure Parts : Type where
  year : ℤ
  month : ℤ
  day : ℤ
  hour : ℤ
  minute : ℤ
  second : ℤ
  micros : ℤ
  deriving DecidableEq

def parts (packed : ℤ) : Parts :=
  let hms := packed / 2 ^ 24 % 2 ^ 17
  let ymd := packed / 2 ^ 41
  let ym := ymd / 2 ^ 5
  ⟨ym.tdiv 13, ym.tmod 13, ymd % 2 ^ 5, hms / 2 ^ 12, hms / 2 ^ 6 % 64, hms % 64, packed % 2 ^ 24⟩

/-- A number in decimal with zeros ahead of it, and a sign that counts. -/
def signedPadded (width : ℕ) (n : ℤ) : List Char :=
  if n < 0 then '-' :: Encoding.padded (width - 1) n.natAbs else Encoding.padded width n.toNat

def clock (p : Parts) : List Char :=
  signedPadded 2 p.hour ++ ':' :: (signedPadded 2 p.minute ++ ':' :: (signedPadded 2 p.second ++
    if 0 < p.micros then '.' :: signedPadded 6 p.micros else []))

def date (p : Parts) : List Char :=
  signedPadded 4 p.year ++ '-' :: (signedPadded 2 p.month ++ '-' :: signedPadded 2 p.day)

def dateFrom (body : List UInt8) : Json :=
  .str (String.ofList (date (parts (packed body))))

def timeFrom (body : List UInt8) : Json :=
  .str (String.ofList (clock (parts (packed body))))

def datetimeFrom (body : List UInt8) : Json :=
  .str (String.ofList (date (parts (packed body)) ++ ' ' :: clock (parts (packed body))))

variable (serde : SerdeJson)

/-- A decimal, which is a number here as it is in the text that the load reads. -/
def decimalFrom (body : List UInt8) : Walked Json :=
  match body with
  | precision :: scale :: digits =>
    (decodePackedDecimal digits precision.toNat scale.toNat).map fun text =>
      ((Double.read text.toList).bind (fromF64 serde)).getD (.str text)
  | _ => .nothing

/-- What the bytes of a field type are. -/
def opaqueFrom (fieldType : ℕ) (body : List UInt8) : Walked Json :=
  match fieldType with
  | 246 => decimalFrom serde body
  | 10 => .value (dateFrom body)
  | 11 => .value (timeFrom body)
  | 12 | 7 => .value (datetimeFrom body)
  | _ => .value (.str (String.ofList (Encoding.base64 body)))

def decodeOpaque (data : List UInt8) : Walked Json :=
  match data with
  | [] => .nothing
  | fieldType :: rest =>
    match (varLen rest).bind fun (len, rest) => head len rest with
    | none => .nothing
    | some body => opaqueFrom serde fieldType.toNat body

/-! ## Values -/

/-- A value that has no entries. -/
def scalar (typeCode : ℕ) (data : List UInt8) : Walked Json :=
  match typeCode with
  | 0x04 => .ofOption (data.head?.bind literal)
  | 0x05 => .ofOption (signed 2 data)
  | 0x06 => .ofOption (unsigned 2 data)
  | 0x07 => .ofOption (signed 4 data)
  | 0x08 => .ofOption (unsigned 4 data)
  | 0x09 => .ofOption (signed 8 data)
  | 0x0a => .ofOption (unsigned 8 data)
  | 0x0b => .ofOption ((head 8 data).bind fun raw =>
      fromF64 serde (Double.ofBits (Encoding.littleEndian raw)))
  | 0x0c => .ofOption ((varLen data).bind fun (len, rest) =>
      (head len rest).map fun text => .str (Encoding.utf8Lossy text))
  | 0x0f => decodeOpaque serde data
  | _ => .nothing

/-- A value entry: the value, or its type and the bytes where it begins. -/
inductive Entry : Type where
  | inline (v : Json) : Entry
  | refers (typeCode : ℕ) (data : List UInt8) : Entry
  deriving DecidableEq

/-- What an entry holds: the ones that are small enough are in the entry itself. -/
def entryAt (body : List UInt8) (start : ℕ) (large : Bool) : Option Entry :=
  match body[start]?, behind body (start + 1) with
  | some typeCode, some inline =>
    match typeCode.toNat, large with
    | 0x04, _ => (inline.head?.bind literal).map .inline
    | 0x05, _ => (signed 2 inline).map .inline
    | 0x06, _ => (unsigned 2 inline).map .inline
    | 0x07, true => (signed 4 inline).map .inline
    | 0x08, true => (unsigned 4 inline).map .inline
    | typeCode, _ => (field body (start + 1) large).bind fun offset =>
        (behind body offset).map (.refers typeCode)
  | _, _ => none

/-- `entry_value`. -/
def entryValue (decodeValue : ℕ → List UInt8 → Walked Json) : Option Entry → Walked Json
  | none => .nothing
  | some (.inline v) => .value v
  | some (.refers typeCode data) => decodeValue typeCode data

/-- The key of a member. -/
def keyAt (body : List UInt8) (large : Bool) (i : ℕ) : Option String :=
  let start := width large * 2 + i * (width large + 2)
  (field body start large).bind fun offset =>
    (field body (start + width large) false).bind fun len =>
      (behind body offset).bind fun rest => (head len rest).map Encoding.utf8Lossy

/-- Where the value entry of a member is. -/
def memberAt (large : Bool) (count i : ℕ) : ℕ :=
  width large * 2 + count * (width large + 2) + i * (width large + 1)

/-- Where an item's entry is. -/
def itemAt (large : Bool) (i : ℕ) : ℕ :=
  width large * 2 + i * (width large + 1)

/-- One member: its key first, then its value. -/
def memberValue (decodeValue : ℕ → List UInt8 → Walked Json) (body : List UInt8) (large : Bool)
    (count i : ℕ) : Walked (String × Json) :=
  match keyAt body large i with
  | none => .nothing
  | some key => (entryValue decodeValue (entryAt body (memberAt large count i) large)).map (key, ·)

def decodeObject (decodeValue : ℕ → List UInt8 → Walked Json) (body : List UInt8) (large : Bool) :
    Walked Json :=
  match field body 0 large with
  | none => .nothing
  | some count =>
    (Walked.collect (memberValue decodeValue body large count) (List.range count)).map
      fun members => .obj (Json.extendFields [] members)

/-- One item. -/
def itemValue (decodeValue : ℕ → List UInt8 → Walked Json) (body : List UInt8) (large : Bool)
    (i : ℕ) : Walked Json :=
  entryValue decodeValue (entryAt body (itemAt large i) large)

def decodeArray (decodeValue : ℕ → List UInt8 → Walked Json) (body : List UInt8) (large : Bool) :
    Walked Json :=
  match field body 0 large with
  | none => .nothing
  | some count =>
    (Walked.collect (itemValue decodeValue body large) (List.range count)).map .arr

/-- `decode_value`, in so many steps. -/
def decodeValue : ℕ → ℕ → List UInt8 → Walked Json
  | 0, _, _ => .running
  | fuel + 1, typeCode, data =>
    match typeCode with
    | 0x00 => decodeObject (decodeValue fuel) data false
    | 0x01 => decodeObject (decodeValue fuel) data true
    | 0x02 => decodeArray (decodeValue fuel) data false
    | 0x03 => decodeArray (decodeValue fuel) data true
    | _ => scalar serde typeCode data

/-- `decode`, in so many steps. An SQL NULL is stored as no document at all. -/
def decode (fuel : ℕ) : List UInt8 → Walked Json
  | [] => .value .null
  | typeCode :: data => decodeValue serde fuel typeCode.toNat data

end BinaryJson

end MySql

end Pg2osync
