import Pg2osync.Classify
import Pg2osync.Drift
import Mathlib.Logic.Function.Basic

/-!
# Rows of the binlog

A row event carries values and no names. The names, the key and what the values mean come
from the catalogue, as it answers when the stream asks; the answers are kept, and an answer
that was dropped is compared with the one that replaces it.
-/

namespace Pg2osync

namespace MySql

/-- What a column's declared type makes of its bytes. -/
inductive ValueShape : Type where
  /-- an integer -/
  | int : ValueShape
  /-- a floating-point number -/
  | float : ValueShape
  /-- a number that stays text -/
  | decimal : ValueShape
  /-- characters -/
  | text : ValueShape
  /-- base 64 -/
  | bytes : ValueShape
  /-- the number of some bits -/
  | bits : ValueShape
  /-- a document -/
  | json : ValueShape
  /-- one of some labels -/
  | enum (labels : List String) : ValueShape
  /-- some of them -/
  | set (labels : List String) : ValueShape
  deriving DecidableEq, Repr

/-- A shape as it is printed. -/
def ValueShape.debug : ValueShape → String
  | .int => "Int"
  | .float => "Float"
  | .decimal => "Decimal"
  | .text => "Text"
  | .bytes => "Bytes"
  | .bits => "Bits"
  | .json => "Json"
  | .enum labels => "Enum([" ++ String.intercalate ", " (labels.map String.quote) ++ "])"
  | .set labels => "Set([" ++ String.intercalate ", " (labels.map String.quote) ++ "])"

/-- A column of a table. -/
structure Column : Type where
  /-- its name -/
  name : String
  /-- what its bytes mean -/
  shape : ValueShape
  deriving DecidableEq, Repr

/-- What the catalogue says of a table. -/
structure TableSchema : Type where
  /-- its columns -/
  columns : List Column
  /-- those of its primary key -/
  pkColumns : List String
  deriving DecidableEq, Repr

/-- `TableSchema::column_names`. -/
def TableSchema.columnNames (schema : TableSchema) : List String :=
  schema.columns.map Column.name

/-- The columns of a table, as drift compares them. -/
def TableSchema.driftColumns (schema : TableSchema) : List (String × ValueShape) :=
  schema.columns.map fun c => (c.name, c.shape)

/-! ## The answers that are kept -/

/-- `SchemaCache`. -/
structure SchemaCache : Type where
  /-- what the catalogue answered -/
  entries : TableName → Option TableSchema
  /-- the answers that were dropped, until their table is asked for again -/
  dropped : TableName → Option TableSchema
  /-- what has to be reported -/
  drift : TableName → Option String

namespace SchemaCache

/-- Nothing was asked yet. -/
def empty : SchemaCache := ⟨fun _ => none, fun _ => none, fun _ => none⟩

/-- `SchemaCache::invalidate`. -/
def invalidate (cache : SchemaCache) (t : TableName) : SchemaCache :=
  match cache.entries t with
  | none => cache
  | some previous =>
    { cache with
      entries := Function.update cache.entries t none
      dropped := Function.update cache.dropped t (some previous) }

/-- `SchemaCache::invalidate_all`. -/
def invalidateAll (cache : SchemaCache) : SchemaCache :=
  { cache with
    entries := fun _ => none
    dropped := fun t => (cache.entries t).or (cache.dropped t) }

/-- The drift of an answer from the one that was dropped. -/
def driftOf (cache : SchemaCache) (t : TableName) (resolved : TableSchema) : Option String :=
  (cache.dropped t).bind fun previous =>
    columnDrift ValueShape.debug previous.driftColumns resolved.driftColumns

/-- `SchemaCache::get`: the catalogue is asked only when nothing is kept. -/
def get (cache : SchemaCache) (catalog : Except CoreError TableSchema) (t : TableName) :
    Except CoreError (TableSchema × SchemaCache) :=
  match cache.entries t with
  | some schema => .ok (schema, cache)
  | none => catalog.map fun resolved =>
    (resolved,
      { entries := Function.update cache.entries t (some resolved)
        dropped := Function.update cache.dropped t none
        drift := Function.update cache.drift t ((cache.driftOf t resolved).or (cache.drift t)) })

/-- `SchemaCache::take_drift`. -/
def takeDrift (cache : SchemaCache) (t : TableName) : Option String × SchemaCache :=
  (cache.drift t, { cache with drift := Function.update cache.drift t none })

end SchemaCache

/-! ## Images -/

/-- What a table map says of a column, and the shape that is filled in. -/
structure ColMeta : Type where
  /-- the code of its type -/
  typeCode : ℕ
  /-- what belongs to it -/
  metadata : List UInt8
  /-- what its bytes mean -/
  shape : Option ValueShape
  deriving DecidableEq

/-- A table, as a table map describes it. -/
structure TableMeta : Type where
  /-- the table -/
  table : TableName
  /-- its columns -/
  columns : List ColMeta

/-- A value of a row image. -/
inductive Cell : Type where
  /-- the image does not have the column -/
  | absent : Cell
  /-- NULL -/
  | null : Cell
  /-- some bytes -/
  | bytes (raw : List UInt8) : Cell
  deriving DecidableEq

/-- A row of a row event, before it is decoded. -/
structure RawRow : Type where
  /-- as it was -/
  before : Option (List Cell)
  /-- as it is, or was in a DELETE -/
  after : Option (List Cell)

/-- What a row event does. -/
inductive RowsKind : Type where
  /-- its rows are new -/
  | write : RowsKind
  /-- they changed -/
  | update : RowsKind
  /-- they are gone -/
  | delete : RowsKind
  deriving DecidableEq, Repr

/-- `decode_image`: what `decode` makes of the bytes of each column. -/
def decodeImage (decode : ColMeta → List UInt8 → Except CoreError Json) :
    List ColMeta → List Cell → Except CoreError Image
  | [], _ => .ok []
  | c :: columns, cells => do
    let value ← match cells.head? with
      | none | some .absent => .ok none
      | some .null => .ok (some .null)
      | some (.bytes raw) => (decode c raw).map some
    let rest ← decodeImage decode columns cells.tail
    return value :: rest

/-- An image that may be missing. -/
def decodeOption (decode : ColMeta → List UInt8 → Except CoreError Json) (columns : List ColMeta) :
    Option (List Cell) → Except CoreError (Option Image)
  | none => .ok none
  | some cells => (decodeImage decode columns cells).map some

/-- `parse_rows`, of one row. -/
def decodeRow (decode : ColMeta → List UInt8 → Except CoreError Json) (columns : List ColMeta)
    (row : RawRow) : Except CoreError RowsRow := do
  let before ← decodeOption decode columns row.before
  let after ← decodeOption decode columns row.after
  return ⟨before, after⟩

/-! ## Building a change -/

/-- A table that row events refer to by a number. -/
structure Registration extends RegisteredTable where
  /-- the columns, by which its images are decoded -/
  metas : List ColMeta
  /-- the columns of its primary key -/
  pkColumns : List String
  /-- whether its rows are only added -/
  appendOnly : Bool

/-- `document`: a column that an image does not have is left out. -/
def document : List String → Image → List (String × Json) → List (String × Json)
  | name :: names, value :: values, fields =>
    document names values (match value with
      | some v => Json.insertField name v fields
      | none => fields)
  | _, _, fields => fields

/-- The columns of a key with their values. -/
def keyFields (columns : List String) (values : Image) :
    List String → List (String × Json) → Except CoreError (List (String × Json))
  | [], fields => .ok fields
  | pk :: rest, fields =>
    match columns.findIdx? fun c => c = pk with
    | none => .error (.source ("primary key column " ++ pk ++ " not present in binlog row"))
    | some idx =>
      match values[idx]? with
      | some (some value) => keyFields columns values rest (Json.insertField pk value fields)
      | _ => .error (.source ("primary key column " ++ pk ++ " missing from row image"))

/-- `primary_key`. -/
def primaryKey (columns : List String) (values : Image) (pkColumns : List String) :
    Except CoreError Json :=
  (keyFields columns values pkColumns []).map fun fields =>
    match fields with
    | [field] => field.2
    | fields => .obj fields

namespace Registration

variable (rt : Registration)

/-- The document of an image. -/
def doc (values : Image) : Json :=
  .obj (document rt.columns values [])

/-- What a row event of an append-only table does that nothing can follow. -/
def appendOnlyError (what : String) : CoreError :=
  .source (rt.table.1 ++ "." ++ rt.table.2 ++ ": " ++ what ++
    " arrived on an append-only table; nothing can say which document it is")

/-- The key of an image. -/
def pk (values : Image) : Except CoreError Json :=
  if rt.appendOnly then .ok .null else primaryKey rt.columns values rt.pkColumns

/-- `build_change`. -/
def buildChange (kind : RowsKind) (row : RowsRow) (version : ℕ) : Except CoreError RowChange :=
  match kind with
  | .write =>
    match row.after with
    | none => .error (.source "row event carries no after image")
    | some after => (rt.pk after).map fun pk => ⟨rt.table, .insert pk (rt.doc after), some version⟩
  | .update =>
    if rt.appendOnly then .error (rt.appendOnlyError "an UPDATE")
    else match row.after with
      | none => .error (.source "row event carries no after image")
      | some after => (rt.pk after).map fun pk =>
        ⟨rt.table, .update pk
          (row.before.bind fun before => (primaryKey rt.columns before rt.pkColumns).toOption)
          (rt.doc after) [] (row.before.map rt.doc), some version⟩
  | .delete =>
    if rt.appendOnly then .error (rt.appendOnlyError "a DELETE")
    else match row.before.or row.after with
      | none => .error (.source "delete event carries no row image")
      | some before => (rt.pk before).map fun pk =>
        ⟨rt.table, .delete pk (some (rt.doc before)), some version⟩

end Registration

end MySql

end Pg2osync
