import Pg2osync.Encoding
import Pg2osync.Json

/-!
# PostgreSQL values as JSON

pgoutput sends every column as its type's text. The conversion is chosen by the type's
object identifier; what it does not know stays a string.
-/

namespace Pg2osync

namespace TypeMap

/-! ## Object identifiers -/

def BOOL : ℕ := 16
def BYTEA : ℕ := 17
def INT8 : ℕ := 20
def INT2 : ℕ := 21
def INT4 : ℕ := 23
def OID : ℕ := 26
def JSON : ℕ := 114
def FLOAT4 : ℕ := 700
def FLOAT8 : ℕ := 701
def JSONB : ℕ := 3802
def BOOL_ARRAY : ℕ := 1000
def INT2_ARRAY : ℕ := 1005
def INT4_ARRAY : ℕ := 1007
def INT8_ARRAY : ℕ := 1016
def JSON_ARRAY : ℕ := 199
def BPCHAR_ARRAY : ℕ := 1014
def TEXT_ARRAY : ℕ := 1009
def VARCHAR_ARRAY : ℕ := 1015
def FLOAT4_ARRAY : ℕ := 1021
def FLOAT8_ARRAY : ℕ := 1022
def JSONB_ARRAY : ℕ := 3807

/-- The element type of an array type that is decoded; `0` is plain text. -/
def elementType (arrayOid : ℕ) : Option ℕ :=
  if arrayOid = BOOL_ARRAY then some BOOL
  else if arrayOid = INT2_ARRAY then some INT2
  else if arrayOid = INT4_ARRAY then some INT4
  else if arrayOid = INT8_ARRAY then some INT8
  else if arrayOid = FLOAT4_ARRAY then some FLOAT4
  else if arrayOid = FLOAT8_ARRAY then some FLOAT8
  else if arrayOid = JSON_ARRAY then some JSON
  else if arrayOid = JSONB_ARRAY then some JSONB
  else if arrayOid = TEXT_ARRAY ∨ arrayOid = VARCHAR_ARRAY ∨ arrayOid = BPCHAR_ARRAY then some 0
  else none

/-! ## Conversion -/

inductive TypeError : Type where
  | badNumber (oid : ℕ) (value : String) : TypeError
  | badArray (lit : String) : TypeError
  | badBytea : TypeError
  deriving DecidableEq, Repr

/-- The message of an error. -/
def TypeError.describe : TypeError → String
  | .badNumber oid value =>
    "cannot parse " ++ toString oid ++ " value " ++ value.quote ++ " as number"
  | .badArray lit => "malformed array literal: " ++ lit
  | .badBytea => "bytea value does not start with \\x prefix"

/-- The parsers a conversion calls: of a float, giving the text of a finite one, and of a
JSON document. -/
structure Parsers : Type where
  float : String → Option String
  json : String → Option Json

/-- `str::parse::<i64>`. -/
def parseI64 (s : String) : Option ℤ :=
  (Encoding.readInt s.toList).filter fun n => -2 ^ 63 ≤ n ∧ n < 2 ^ 63

def decodeBytea (s : String) : Except TypeError Json :=
  match s.toList with
  | '\\' :: 'x' :: digits =>
    match Encoding.readHex digits with
    | some bytes => .ok (.str (String.ofList (Encoding.base64 bytes)))
    | none => .error .badBytea
  | _ => .error .badBytea

/-- An unquoted NULL is a null element. -/
def makeElement (cur : List Char) (quoted : Bool) : Option String :=
  if quoted = false ∧ cur = "NULL".toList then none else some (String.ofList cur)

/-- The elements of an array literal after its opening brace: `cur` is the current one so
far, `quoted` whether it had quotes. -/
def arrayElements (cur : List Char) (inQuotes quoted : Bool) :
    List Char → Option (List (Option String))
  | [] => none
  | [c] => if inQuotes = false ∧ c = '}' then some [makeElement cur quoted] else none
  | c :: next :: rest =>
    if inQuotes then
      if c = '"' then
        if next = '"' then arrayElements (cur ++ ['"']) true quoted rest
        else arrayElements cur false quoted (next :: rest)
      else if c = '\\' then arrayElements (cur ++ [next]) true quoted rest
      else arrayElements (cur ++ [c]) true quoted (next :: rest)
    else if c = '"' then arrayElements cur true true (next :: rest)
    else if c = ',' then
      (arrayElements [] false false (next :: rest)).map (makeElement cur quoted :: ·)
    -- what follows the brace is not looked at
    else if c = '}' then some [makeElement cur quoted]
    else arrayElements (cur ++ [c]) false quoted (next :: rest)

def parseArrayLiteral (lit : String) : Except TypeError (List (Option String)) :=
  match lit.toList with
  | '{' :: '}' :: _ => .ok []
  | '{' :: rest => (arrayElements [] false false rest).elim (.error (.badArray lit)) .ok
  | _ => .error (.badArray lit)

/-- The conversion of a type that is no array. -/
def convertScalar (parsers : Parsers) (typeOid : ℕ) (s : String) : Except TypeError Json :=
  if typeOid = BOOL then
    -- the log has the short form, a cast of the initial load the long one
    if s = "t" ∨ s = "true" then .ok (.bool true)
    else if s = "f" ∨ s = "false" then .ok (.bool false)
    else .error (.badNumber BOOL s)
  else if typeOid = INT2 ∨ typeOid = INT4 ∨ typeOid = INT8 ∨ typeOid = OID then
    (parseI64 s).elim (.error (.badNumber typeOid s)) (.ok ∘ .int)
  else if typeOid = FLOAT4 ∨ typeOid = FLOAT8 then
    (parsers.float s).elim (.error (.badNumber typeOid s)) (.ok ∘ .float)
  else if typeOid = JSON ∨ typeOid = JSONB then
    (parsers.json s).elim (.error (.badArray s)) .ok
  else if typeOid = BYTEA then decodeBytea s
  else .ok (.str s)

/-- One element of an array. -/
def convertElement (parsers : Parsers) (elem : ℕ) : Option String → Except TypeError Json
  | none => .ok .null
  | some text => if elem = 0 then .ok (.str text) else convertScalar parsers elem text

/-- One column value as JSON; no text is an SQL NULL. -/
def convert (parsers : Parsers) (typeOid : ℕ) : Option String → Except TypeError Json
  | none => .ok .null
  | some s =>
    match elementType typeOid with
    | some elem => do
      let elements ← parseArrayLiteral s
      return .arr (← elements.mapM (convertElement parsers elem))
    | none => convertScalar parsers typeOid s

example : convert ⟨fun _ => none, fun _ => none⟩ BYTEA (some "\\x48656c6c6f") =
    .ok (.str "SGVsbG8=") := rfl

example : convert ⟨fun _ => none, fun _ => none⟩ TEXT_ARRAY (some "\x7bred,\"a b\",NULL\x7d") =
    .ok (.arr [.str "red", .str "a b", .null]) := rfl

end TypeMap

end Pg2osync
