import Pg2osync.BinaryJson
import Pg2osync.CheckedReader

/-!
# Values of the binlog, with what may go wrong

These are the decoders of values with their slices and their arithmetic as they are: an index may
be out of range, and a difference, a power or a shift may leave the range of its type. What the
bytes of the metadata say goes into all of these.
-/

namespace Pg2osync

namespace MySql

namespace Checked

variable {b : Slice}

/-- An integer in two's complement, which is written out to eight bytes first. -/
def signedInt (nbytes : ℕ) : Checked b Json := do
  let raw ← take nbytes
  let filled ← check (Ran.sub 8 nbytes)
  let top ← check (Ran.index raw (← check (Ran.sub nbytes 1)))
  let fill : UInt8 := if top &&& 0x80 ≠ 0 then 0xFF else 0
  let buf := raw ++ List.replicate filled fill
  return .int ((Encoding.littleEndian buf : ℤ).bmod (2 ^ 64))

/-- The bytes of a fraction, each shifted to its place. -/
def fractionFrom (frac i : ℕ) : List UInt8 → Ran DecodeError ℕ
  | [] => .done frac
  | byte :: rest => do
    let shifted ← Ran.shl 32 byte.toNat (8 * i)
    fractionFrom (frac ||| shifted) (i + 1) rest

/-- What a fraction is counted in. -/
def fractionUnit (bits fsp : ℕ) : Ran DecodeError ℕ := do
  Ran.pow bits 10 (← Ran.sub 6 fsp)

/-- TIMESTAMP2: seconds, then a fraction. -/
def decodeTimestamp (fsp : ℕ) : Checked b Json := do
  let secs := Encoding.bigEndian (← take 4)
  let frac ← check (fractionFrom 0 0 (← take ((fsp + 1) / 2)))
  let micros ← check (Ran.mul 32 frac (← check (fractionUnit 32 fsp)))
  return .str (formatUnixTs secs micros)

/-- A fraction, as microseconds and back. -/
def fractionText (fsp stored : ℕ) : Ran DecodeError (List Char) :=
  if 0 < fsp then do
    let micros ← Ran.mul 64 stored (← fractionUnit 64 fsp)
    let unit ← fractionUnit 64 fsp
    return '.' :: Encoding.padded fsp (micros / unit)
  else return []

/-- DATETIME2: the parts of a date and a time packed into five bytes, then a fraction. -/
def decodeDatetime (fsp : ℕ) : Checked b Json := do
  let intPart := Encoding.bigEndian (← take 5)
  let ym := (intPart >>> 22) &&& 0x1FFFF
  let day := (intPart >>> 17) &&& 0x1F
  let hour := (intPart >>> 12) &&& 0x1F
  let minute := (intPart >>> 6) &&& 0x3F
  let second := intPart &&& 0x3F
  -- more than eight bytes would not fit, but then there is no unit either
  let stored := Encoding.bigEndian (← take ((fsp + 1) / 2))
  let frac ← check (fractionText fsp stored)
  return .str (String.ofList (dateTimeText ⟨ym / 13, ym % 13, day⟩ hour minute second frac))

/-- TIME2: a packed time and a fraction; a negative one has its bits inverted. -/
def decodeTime (fsp : ℕ) : Checked b Json := do
  let nbytes := 3 + (fsp + 1) / 2
  let raw ← take nbytes
  let top ← check (Ran.index raw 0)
  let negative := top &&& 0x80 = 0
  let bit ← check (Ran.shl 64 1 (← check (Ran.sub (nbytes * 8) 1)))
  let mask ← check (Ran.sub bit 1)
  let v := Encoding.bigEndian (raw.map fun byte => if negative then ~~~byte else byte) &&& mask
  let hours := v >>> 24
  let minutes := (v >>> 16) &&& 0xFF
  let seconds := (v >>> 8) &&& 0xFF
  let sign := if negative then ['-'] else []
  return .str (String.ofList (sign ++
    (twoDigits hours ++ ':' :: (twoDigits minutes ++ ':' :: twoDigits seconds))))

/-! ## Decimals -/

/-- `dig2bytes` -/
def dig2bytes : List ℕ :=
  [0, 1, 1, 2, 2, 3, 3, 4, 4, 4]

/-- `group`: the number of some digits, and where it ends. -/
def group (buf : List UInt8) (pos digits : ℕ) : Ran DecodeError (ℕ × ℕ) := do
  let nbytes ← Ran.index dig2bytes digits
  let bytes ← Ran.slice buf pos (pos + nbytes)
  return (Encoding.bigEndian bytes, pos + nbytes)

/-- Whole groups of nine digits, and where they end. -/
def groups (buf : List UInt8) : ℕ → ℕ → Ran DecodeError (List Char × ℕ)
  | 0, pos => .done ([], pos)
  | count + 1, pos => do
    let (v, pos) ← group buf pos 9
    let (digits, pos) ← groups buf count pos
    return (Encoding.padded 9 v ++ digits, pos)

/-- The digits that are ahead of the whole groups, without zeros ahead of them. -/
def firstDigits (buf : List UInt8) (digits : ℕ) : Ran DecodeError (List Char × ℕ) :=
  if 0 < digits then do
    let (v, pos) ← group buf 0 digits
    return (Nat.toDigits 10 v, pos)
  else return ([], 0)

/-- And those that are behind them. -/
def lastDigits (buf : List UInt8) (pos digits : ℕ) : Ran DecodeError (List Char) :=
  if 0 < digits then do
    let (v, _) ← group buf pos digits
    return Encoding.padded digits v
  else return []

/-- The digits ahead of the point and those behind it. -/
def decimalDigits (buf : List UInt8) (intg0 intgFirst frac0 fracLast : ℕ) :
    Ran DecodeError (List Char × List Char) := do
  let (first, pos) ← firstDigits buf intgFirst
  let (whole, pos) ← groups buf intg0 pos
  let (fraction, pos) ← groups buf frac0 pos
  let last ← lastDigits buf pos fracLast
  return (first ++ whole, fraction ++ last)

/-- A decimal with its sign, from its digits. -/
def decimalText (positive : Bool) (intDigits fracDigits : List Char) (scale : ℕ) : String :=
  let sign := if positive ∨ intDigits = [] ∧ fracDigits = [] then [] else ['-']
  let whole := if intDigits = [] then ['0'] else intDigits
  let fraction := if scale = 0 then [] else
    '.' :: (if fracDigits = [] then List.replicate scale '0' else fracDigits)
  String.ofList (sign ++ whole ++ fraction)

/-- The bytes of a decimal, which has a sign in the first one. -/
def decimalFrom (intg0 intgFirst frac0 fracLast scale : ℕ) (raw : List UInt8) :
    Ran DecodeError Json := do
  let top ← Ran.index raw 0
  let positive := top &&& 0x80 ≠ 0
  -- a negative one is stored complemented; the top bit is the sign either way
  let plain := if positive then raw else raw.map fun byte => ~~~byte
  let buf := (plain.headD 0 &&& 0x7F) :: plain.tail
  let (intDigits, fracDigits) ← decimalDigits buf intg0 intgFirst frac0 fracLast
  let intDigits := intDigits.dropWhile fun c => c = '0'
  return .str (decimalText positive intDigits (fracDigits.take scale) scale)

/-- `decode_decimal`. -/
def decodeDecimal (precision scale : ℕ) : Checked b Json := do
  let intg := precision - scale
  let intg0 := intg / 9
  let intgFirst ← check (Ran.sub intg (intg0 * 9))
  let frac0 := scale / 9
  let fracLast ← check (Ran.sub scale (frac0 * 9))
  let firstBytes ← check (Ran.index dig2bytes intgFirst)
  let lastBytes ← check (Ran.index dig2bytes fracLast)
  let raw ← take (intg0 * 4 + firstBytes + frac0 * 4 + lastBytes)
  check (decimalFrom intg0 intgFirst frac0 fracLast scale raw)

/-! ## Values -/

/-- What has come of decoding a document; one that is refused is kept as hexadecimal digits. -/
def ofDocument (bytes : List UInt8) : Walked Json → Ran DecodeError Json
  | .running => .running
  | .panics => .panics
  | .value value => .done value
  | .nothing => .done (.str ("__mysql_json_hex:" ++ String.ofList (Encoding.hex bytes)))

variable (serde : SerdeJson) (fuel : ℕ)

/-- `decode_value_inner`, in so many steps. -/
def decodeValueInner (ty : ℕ) (metadata : List UInt8) (unsigned : Bool)
    (shape : Option ValueShape) : Checked b Json :=
  let first := (metadata.headD 0).toNat
  let second := (metadata.getD 1 0).toNat
  match ty with
  | 1 => if unsigned then return .int (← u8v) else signedInt 1
  | 2 => if unsigned then return .int (← u16v) else signedInt 2
  | 9 => do
    let v ← u24
    if unsigned then return .int v
    else
      -- up to 32 bits and back, and then as a number without a sign
      let se := ((v * 2 ^ 8 : ℤ).bmod (2 ^ 32)) >>> (8 : ℕ)
      return .int (se % 2 ^ 64)
  | 3 => if unsigned then return .int (← u32v) else signedInt 4
  | 8 => if unsigned then return .int (← u64v) else signedInt 8
  | 13 => return .int ((← u8v) + 1900)
  | 10 | 14 => do
    let v ← u24
    let day := v &&& 31
    let month := (v >>> 5) &&& 15
    let year := v >>> 9
    return .str (String.ofList (Encoding.padded 4 year ++ '-' :: (twoDigits month ++
      '-' :: twoDigits day)))
  | 17 => decodeTimestamp first
  | 18 => decodeDatetime first
  | 19 => decodeTime first
  | 246 => decodeDecimal first second
  | 15 | 253 => do
    let maxLen := first + 256 * second
    let len ← if maxLen < 256 then u8v else u16v
    return stringLike shape (← take len)
  | 254 =>
    -- the first byte may hide the real type
    match (metadata.headD 254).toNat with
    | 247 => do
      let ordinal ← u8v
      match shape with
      | some (.enum labels) => return TypeMap.enumLabel labels ordinal
      | _ => return .int ordinal
    | 248 => do
      let mask ← readUintN (metadata.getD 1 1).toNat
      match shape with
      | some (.set labels) => return TypeMap.setLabels labels mask
      | _ => return .int mask
    | _ => do
      let len ← if 128 ≤ second then u16v else u8v
      return stringLike shape (← take len)
  | 245 => do
    let len ← readUintN (metadata.headD 4).toNat
    let bytes ← take len
    check (ofDocument bytes (BinaryJson.decode serde fuel bytes))
  | 249 | 250 | 251 | 252 => do
    let len ← readUintN (metadata.headD 1).toNat
    return stringLike shape (← take len)
  | 16 => do
    let bits := second * 8 + first
    return .int (TypeMap.beUint (← take (max ((bits + 7) / 8) 1)))
  | 255 => do
    let len ← readUintN (metadata.headD 1).toNat
    return .str (String.ofList (Encoding.base64 (← take len)))
  | 0 => fail (.unsupportedType 0 "decimal")
  | other => fail (.unsupportedType other "?")

end Checked

end MySql

end Pg2osync
