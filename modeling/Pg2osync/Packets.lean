import Pg2osync.CheckedValues

/-!
# The packets of a dump

The server sends one event a packet: a byte that says whether there is one, a header, and a body
with a checksum behind it. What is read of it depends on its type. Rows are read by the table map
that was accepted for their table; they are read until there are no bytes left.

All slices and loops are as they are in the code, so what has come of a packet after a number of
steps may be that it is still running, or that it has panicked.
-/

namespace Pg2osync

namespace MySql

open Checked

/-! ## Headers and short bodies -/

/-- What is ahead of every event. -/
structure EventHeader : Type where
  /-- when it was written -/
  timestamp : ℕ
  /-- what it is -/
  eventType : ℕ
  /-- how long it is -/
  eventSize : ℕ
  /-- the offset of the event that follows -/
  logPos : ℕ
  /-- who wrote it -/
  serverId : ℕ
  deriving DecidableEq

/-- `HEADER_LEN` -/
def headerLen : ℕ := 19

/-- A number in some bytes. -/
def numberIn (bytes : List UInt8) (start stop : ℕ) : Ran DecodeError ℕ := do
  return Encoding.littleEndian (← Ran.slice bytes start stop)

/-- `parse_header` -/
def parseHeader (ev : List UInt8) : Ran DecodeError (Option EventHeader) :=
  if ev.length < headerLen then return none
  else do
    return some
      { timestamp := ← numberIn ev 0 4
        eventType := (← Ran.index ev 4).toNat
        eventSize := ← numberIn ev 9 13
        logPos := ← numberIn ev 13 17
        serverId := ← numberIn ev 5 9 }

/-- 16 bytes as `8-4-4-4-12`. -/
def formatUuid (raw : List UInt8) : Ran DecodeError String := do
  let hex := Encoding.hex raw
  let a ← Ran.slice hex 0 8
  let b ← Ran.slice hex 8 12
  let c ← Ran.slice hex 12 16
  let d ← Ran.slice hex 16 20
  let e ← Ran.slice hex 20 32
  return String.ofList (a ++ '-' :: (b ++ '-' :: (c ++ '-' :: (d ++ '-' :: e))))

/-- `parse_mysql_gtid`: the number has a sign, and below one there is none. -/
def parseMysqlGtid (body : List UInt8) : Ran DecodeError (Option (String × ℕ)) :=
  if body.length < 25 then return none
  else do
    let gno ← numberIn body 17 25
    if 0 < gno ∧ gno < 2 ^ 63 then return some (← formatUuid (← Ran.slice body 1 17), gno)
    else return none

/-- `parse_maria_gtid` -/
def parseMariaGtid (body : List UInt8) : Ran DecodeError (Option (ℕ × ℕ)) :=
  if body.length < 13 then return none
  else do
    let seqNo ← numberIn body 0 8
    let domain ← numberIn body 8 12
    return if 0 < seqNo then some (domain, seqNo) else none

/-- `parse_fde`: the length of the headers and of the checksums. -/
def parseFde (body : List UInt8) : Ran DecodeError (ℕ × ℕ) :=
  if body.length < 62 then return (19, 4)
  else do
    let headerLen ← Ran.index body 56
    let alg := body.getD (← Ran.sub body.length 5) 1
    return (max headerLen.toNat 19, if alg = 1 then 4 else 0)

/-- Where the log goes on. -/
structure RotateInfo : Type where
  /-- the file -/
  nextFile : String
  /-- and where in it -/
  position : ℕ
  deriving DecidableEq

/-- `.ok()` -/
def okOf {ε ε' α : Type} : Ran ε α → Ran ε' (Option α)
  | .running => .running
  | .panics => .panics
  | .failed _ => .done none
  | .done a => .done (some a)

/-- The name of a file up to its end, for which the first NUL behind the position is looked for. -/
def rotateName {b : Slice} (r : Reader b) : Ran DecodeError String := do
  let stop := (r.rest.findIdx? fun byte => byte = 0).getD b.bytes.length
  return Encoding.utf8Lossy (← Ran.slice b.bytes r.pos stop)

/-- `parse_rotate` -/
def parseRotate (b : Slice) : Ran DecodeError (Option RotateInfo) := do
  match ← okOf (u64v.run (Reader.new b)) with
  | none => return none
  | some (position, r) => return some ⟨← rotateName r, position⟩

/-- A statement. -/
structure QueryInfo : Type where
  /-- the database it was issued in -/
  database : String
  /-- its text -/
  sql : String
  deriving DecidableEq

/-- The body of a statement, which has what it was issued under ahead of it. -/
def readQuery {b : Slice} : Checked b QueryInfo := do
  let _threadId ← u32v
  let _execTime ← u32v
  let dbLen ← u8v
  let _errCode ← u16v
  let statusLen ← u16v
  let _status ← take statusLen
  let database := Encoding.utf8Lossy (← take dbLen)
  -- the name of the database ends with a NUL
  let _nul ← u8v
  let r ← get
  return ⟨database, Encoding.utf8Lossy r.rest⟩

/-- `parse_query` -/
def parseQuery (b : Slice) : Ran DecodeError (Option QueryInfo) :=
  okOf (readQuery.run (Reader.new b)) >>= fun read => return read.map Prod.fst

/-! ## Table maps -/

/-- Lengths one after the other, up to one that is cut off. -/
def lengths {b : Slice} : ℕ → Reader b → Ran DecodeError (List ℕ)
  | 0, _ => .running
  | fuel + 1, r => do
    match ← okOf (lenenc.run r) with
    | none => return []
    | some (i, r') => return i :: (← lengths fuel r')

/-- One field that is optional. -/
def putField (fuel : ℕ) (opt : OptionalMeta) (ty : ℕ) (val : Slice) :
    Ran DecodeError OptionalMeta :=
  if ty = 3 then
    let names :=
      ((Encoding.utf8Lossy val.bytes).toList.splitOn (Char.ofNat 0)).filter fun s => s ≠ []
    return { opt with columnNames := names.map String.ofList }
  else if ty = 5 then do
    let indexes ← lengths fuel (Reader.new val)
    return { opt with pkColumnIndexes := opt.pkColumnIndexes ++ indexes }
  else return opt

/-- The type of a field and its bytes. -/
def readOptionalField {b : Slice} : Checked b (ℕ × Slice) := do
  let ty ← u16v
  let len ← u16v
  let r ← get
  let _val ← take len
  return (ty, b.part r.pos len)

/-- The fields that are optional, up to one that is cut off. -/
def readFields {b : Slice} : ℕ → OptionalMeta → Reader b → Ran DecodeError OptionalMeta
  | 0, _, _ => .running
  | fuel + 1, opt, r =>
    if r.restLen < 4 then return opt
    else do
      match ← okOf (readOptionalField.run r) with
      | none => return opt
      | some ((ty, val), r') => readFields fuel (← putField fuel opt ty val) r'

/-- What a table map begins with: the number, the schema and the name of the table. -/
def tableNames {b : Slice} : Checked b (ℕ × String × String) := do
  let tableId ← u48
  let _flags ← u16v
  let schema := Encoding.utf8Lossy (← take (← u8v))
  let _nul ← u8v
  let name := Encoding.utf8Lossy (← take (← u8v))
  let _nul ← u8v
  return (tableId, schema, name)

/-- The columns of a table map, and what it says of them besides. -/
def tableColumns {b : Slice} (fuel : ℕ) (names : ℕ × String × String) :
    Checked b TableMapEvent := do
  let ncols ← lenenc
  let types ← take ncols
  let metaArea ← take (← lenenc)
  let _nullable ← take ((ncols + 7) / 8)
  let r ← get
  let rest := b.part r.pos r.restLen
  let opt ← check (readFields fuel ⟨[], []⟩ (Reader.new rest))
  return ⟨names.1, names.2.1, names.2.2, opt.fill (columnMetas types metaArea), opt⟩

/-- `parse_table_map`, in so many steps. -/
def checkedTableMap (fuel : ℕ) (b : Slice) : Ran DecodeError TableMapEvent :=
  (tableNames >>= tableColumns fuel).run (Reader.new b) >>= fun read => return read.1

/-- The columns with what the catalogue says of each. -/
def fillResolved : List TableMapColumn → List Column → List TableMapColumn
  | c :: columns, resolved :: rest =>
    { c with shape := some resolved.shape } :: fillResolved columns rest
  | columns, _ => columns

/-- A table that a number stands for: its table map was accepted. -/
structure MappedTable : Type where
  /-- its columns -/
  columns : List TableMapColumn
  /-- they are those of a table map -/
  accepted : ∃ payload table resolved, parseTableMap payload = .ok table ∧
    columns = fillResolved table.columns resolved

/-! ## Rows -/

/-- `rows_kind_for_type` -/
def rowsKindForType : ℕ → Option RowsKind
  | 20 | 30 | 23 => some .write
  | 21 | 31 | 24 => some .update
  | 22 | 32 | 25 => some .delete
  | _ => none

/-- `bmp_bit` -/
def bmpBit (bmp : List UInt8) (i : ℕ) : Bool :=
  (bmp.getD (i / 8) 0).toNat.testBit (i % 8)

/-- What a row event says ahead of its rows. -/
structure RowsHead : Type where
  /-- the number of the table -/
  tableId : ℕ
  /-- how many columns it has -/
  ncols : ℕ
  /-- which of them the row after the change has -/
  after : List UInt8
  /-- and which the row ahead of it -/
  before : List UInt8

/-- The bytes of so many bits. -/
def bitmapLen (n : ℕ) : ℕ :=
  (n + 7) / 8

/-- The events of MySQL's second version have data of their own, which say how long they are. -/
def readExtra {b : Slice} (evType : ℕ) : Checked b Unit :=
  if evType ∈ [30, 31, 32] then do
    let extra ← u16v
    let _extra ← take (extra - 2)
  else return ()

/-- What is ahead of the rows. -/
def readRowsHead {b : Slice} (evType : ℕ) (kind : RowsKind) : Checked b RowsHead := do
  let tableId ← u48
  let _flags ← u16v
  readExtra evType
  let ncols ← lenenc
  let after ← take (bitmapLen ncols)
  let before ← if kind = .update then take (bitmapLen ncols) else pure []
  return ⟨tableId, ncols, after, before⟩

section

variable (serde : SerdeJson) (fuel : ℕ) {b : Slice}

/-- The values of an image, of which `nth` are read: of a column that is not present there is
none. -/
def imageValues (present nullBmp : List UInt8) :
    List TableMapColumn → ℕ → ℕ → Checked b Image
  | [], _, _ => return []
  | c :: columns, i, nth =>
    if bmpBit present i then do
      let value ← if bmpBit nullBmp nth then pure Json.null else
        decodeValueInner serde fuel c.typeCode c.metadata c.unsigned c.shape
      return some value :: (← imageValues present nullBmp columns (i + 1) (nth + 1))
    else do
      return none :: (← imageValues present nullBmp columns (i + 1) nth)

/-- How many columns an image has. -/
def presentCount (ncols : ℕ) (present : List UInt8) : ℕ :=
  (List.range ncols).countP (bmpBit present)

/-- `decode_image`: the bits that are set for NULL are those of the columns that are present. -/
def readImage (columns : List TableMapColumn) (ncols : ℕ) (present : List UInt8) :
    Checked b Image := do
  let nullBmp ← take (bitmapLen (presentCount ncols present))
  imageValues serde fuel present nullBmp columns 0 0

/-- A row: an update has it as it was, too. -/
def readRow (columns : List TableMapColumn) (kind : RowsKind) (head : RowsHead) :
    Checked b RowsRow := do
  let before ← if kind = .update then some <$> readImage serde fuel columns head.ncols head.before
    else pure none
  let after ← readImage serde fuel columns head.ncols head.after
  return ⟨before, some after⟩

/-- The rows, up to the end or to one that is cut off. -/
def readRows (columns : List TableMapColumn) (kind : RowsKind) (head : RowsHead) :
    ℕ → Reader b → Ran DecodeError (List RowsRow)
  | 0, _ => .running
  | left + 1, r =>
    if r.restLen = 0 then return []
    else
      match (readRow serde fuel columns kind head).run r with
      | .running => .running
      | .panics => .panics
      | .failed .eof => .done []
      | .failed e => .failed e
      | .done (row, r') => do return row :: (← readRows columns kind head left r')

end

/-- The rows of a row event. -/
structure RowsRowSet : Type where
  /-- the number of the table -/
  tableId : ℕ
  /-- what has become of them -/
  kind : RowsKind
  /-- the rows -/
  rows : List RowsRow

/-- `parse_rows`, in so many steps. -/
def parseRows (serde : SerdeJson) (fuel evType : ℕ) (columns : List TableMapColumn) (b : Slice) :
    Ran DecodeError RowsRowSet :=
  match rowsKindForType evType with
  | none => .failed (.unknownType evType)
  | some kind => do
    let (head, r) ← (readRowsHead evType kind).run (Reader.new b)
    return ⟨head.tableId, kind, ← readRows serde fuel columns kind head fuel r⟩

/-! ## Packets -/

/-- Why a stream is given up. -/
inductive StreamError : Type where
  /-- the server does not keep to its protocol, or says so -/
  | protocol (message : String) : StreamError
  /-- it does what it was asked not to do -/
  | config (message : String) : StreamError
  /-- an event is not read -/
  | decode (e : DecodeError) : StreamError
  deriving DecidableEq

/-- What is read of an event. -/
inductive EventRead : Type where
  /-- the length of the checksums that follow -/
  | formatDescription (checksumLen : ℕ) : EventRead
  /-- where the log goes on -/
  | rotate (next : Option RotateInfo) : EventRead
  /-- a statement -/
  | query (statement : Option QueryInfo) : EventRead
  /-- the transaction that follows, as MySQL names it -/
  | mysqlGtid (gtid : Option (String × ℕ)) : EventRead
  /-- and as MariaDB does -/
  | mariaGtid (gtid : Option (ℕ × ℕ)) : EventRead
  /-- a transaction that cannot be named -/
  | noGtid : EventRead
  /-- where the stream is -/
  | heartbeat : EventRead
  /-- the end of a transaction -/
  | xid : EventRead
  /-- a table -/
  | tableMap (table : TableMapEvent) : EventRead
  /-- rows of no table that is registered -/
  | unregistered (tableId : ℕ) : EventRead
  /-- rows -/
  | rows (set : RowsRowSet) : EventRead
  /-- nothing that is acted on -/
  | other : EventRead

/-- What a stream reads its packets by. -/
structure PacketContext : Type where
  /-- how a double is written -/
  serde : SerdeJson
  /-- whether the transactions are recorded by name -/
  tracking : Bool
  /-- the length of a checksum -/
  checksumLen : ℕ
  /-- the tables that numbers stand for -/
  registered : ℕ → Option MappedTable

/-- `event_body`: what is behind the header, without the checksum. -/
def eventBody (ev : Slice) (eventType checksumLen : ℕ) : Ran StreamError Slice :=
  let stop := ev.bytes.length - checksumLen
  if headerLen ≤ stop then .done (ev.part headerLen (stop - headerLen))
  else .failed (.protocol ("binlog event type " ++ toString eventType ++ " is " ++
    toString ev.bytes.length ++ " bytes, too short for its header and " ++ toString checksumLen ++
    "-byte checksum"))

/-- An error of a decoder gives up the stream. -/
def decoded {α : Type} : Ran DecodeError α → Ran StreamError α
  | .running => .running
  | .panics => .panics
  | .failed e => .failed (.decode e)
  | .done a => .done a

variable (ctx : PacketContext)

/-- The rows of a table that is registered. -/
def readRowsEvent (fuel eventType : ℕ) (body : Slice) : Ran DecodeError EventRead := do
  let tableId := Encoding.littleEndian (← Ran.slice body.bytes 0 6)
  match ctx.registered tableId with
  | none => return .unregistered tableId
  | some table => return .rows (← parseRows ctx.serde fuel eventType table.columns body)

/-- What is read of an event, by its type. -/
def readEvent (fuel eventType : ℕ) (ev body : Slice) : Ran StreamError EventRead :=
  match eventType with
  | 15 => decoded do
    let (_, checksumLen) ← parseFde (← Ran.slice ev.bytes headerLen ev.bytes.length)
    return .formatDescription checksumLen
  | 4 => decoded do return .rotate (← parseRotate body)
  | 2 => decoded do return .query (← parseQuery body)
  | 33 => if ctx.tracking then decoded do return .mysqlGtid (← parseMysqlGtid body.bytes)
    else return .other
  | 162 => if ctx.tracking then decoded do return .mariaGtid (← parseMariaGtid body.bytes)
    else return .other
  | 34 | 42 => if ctx.tracking then return .noGtid else return .other
  | 27 => return .heartbeat
  | 16 => return .xid
  | 19 => decoded do return .tableMap (← checkedTableMap fuel body)
  | 39 => .failed (.config ("the server sent a partial JSON update, which is not decoded here; " ++
      "set binlog_row_value_options to the empty string"))
  | eventType =>
    match rowsKindForType eventType with
    | some _ => decoded (readRowsEvent ctx fuel eventType body)
    | none => return .other

/-- What `stream` reads of a packet, in so many steps; one without a header is skipped. -/
def readPacket (fuel : ℕ) (pkt : Slice) : Ran StreamError (Option (EventHeader × EventRead)) :=
  if pkt.bytes.head? = some 0xFF then
    .failed (.protocol ("server error: " ++ Encoding.utf8Lossy (pkt.bytes.drop 9)))
  else do
    let _ev ← Ran.slice pkt.bytes 1 pkt.bytes.length
    let ev := pkt.part 1 (pkt.bytes.length - 1)
    match ← decoded (parseHeader ev.bytes) with
    | none => return none
    | some header => do
      let body ← eventBody ev header.eventType ctx.checksumLen
      return some (header, ← readEvent ctx fuel header.eventType ev body)

end MySql

end Pg2osync
