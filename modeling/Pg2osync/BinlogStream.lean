import Pg2osync.BinlogRow
import Pg2osync.Encoding
import Pg2osync.Held
import Pg2osync.Statement
import Pg2osync.VersionBase

/-!
# The stream of a MySQL source

The source takes the events of a binlog dump one after the other. It keeps the file and
the offset it is at, which make the token of all it sends, the tables that row events refer
to, and what it holds for the end of the transaction. A transaction ends with an XID; a
statement is looked at for what it does to a table.
-/

namespace Pg2osync

namespace MySql

/-- `split_binlog_file`, of which the number is used: that behind the last point, or
zero. -/
def binlogIndex (file : String) : ℕ :=
  let text := file.toList.reverse
  if '.' ∈ text then
    match Encoding.readInt (text.takeWhile (· ≠ '.')).reverse with
    | some n => if 0 ≤ n ∧ n < 2 ^ 32 then n.toNat else 0
    | none => 0
  else 0

/-- What an event of the binlog is. -/
inductive BinlogBody : Type where
  /-- there is nothing else to send -/
  | heartbeat : BinlogBody
  /-- the format of a file -/
  | formatDescription : BinlogBody
  /-- the file that follows, and where in it, if that can be read -/
  | rotate (next : Option (String × ℕ)) : BinlogBody
  /-- a statement, with the database it was issued in, if that can be read -/
  | query (statement : Option (String × String)) : BinlogBody
  /-- the end of a transaction -/
  | xid : BinlogBody
  /-- the table that a number stands for, with the names of its columns if they are
  logged -/
  | tableMap (tableId : ℕ) (info : TableMeta) (names : List String) : BinlogBody
  /-- rows of a table that changed -/
  | rows (tableId : ℕ) (kind : RowsKind) (rows : List RawRow) : BinlogBody
  /-- a JSON document that changed in part -/
  | partialUpdateRows : BinlogBody
  /-- anything else -/
  | other : BinlogBody

/-- An event of the binlog. -/
structure BinlogEvent : Type where
  /-- how long it is -/
  eventSize : ℕ
  /-- the offset of the event that follows, or zero -/
  logPos : ℕ
  /-- what it is -/
  body : BinlogBody

/-- What the server answers while an event is taken. -/
structure BinlogReads : Type where
  /-- to a flush -/
  flush : FlushReads
  /-- `table_schema` -/
  catalog : TableName → Except CoreError TableSchema
  /-- the same, if it is asked a second time -/
  catalogAgain : TableName → Except CoreError TableSchema

/-- What a MySQL source streams by. -/
structure BinlogSource : Type where
  /-- the tables that it admits -/
  tables : TableName → Bool
  /-- those of them whose rows are only added -/
  appendOnly : TableName → Bool
  /-- its collections -/
  watch : WatchConfig
  /-- what is added to every coordinate -/
  versionBase : ℕ
  /-- what the bytes of a value decode to -/
  decode : ColMeta → List UInt8 → Except CoreError Json
  /-- `char::is_alphanumeric` -/
  alphanumeric : Char → Bool

/-- What the source knows between two events. -/
structure BinlogState : Type where
  /-- the file it is in -/
  currentFile : String
  /-- and where -/
  currentPos : ℕ
  /-- what the catalogue answered -/
  schemas : SchemaCache
  /-- the tables that numbers stand for -/
  registered : ℕ → Option Registration
  /-- what it holds -/
  pending : ChildrenPending

/-- A new stream, from a coordinate. -/
def BinlogState.start (file : String) (pos : ℕ) : BinlogState :=
  ⟨file, pos, .empty, fun _ => none, .empty⟩

/-- `u32::MAX`. -/
def u32Max : ℕ := 2 ^ 32 - 1

/-- Where the stream is once it has an event. -/
def endPos (currentPos : ℕ) (e : BinlogEvent) : ℕ :=
  match e.body with
  | .heartbeat => max currentPos e.logPos
  | .formatDescription | .rotate _ => currentPos
  | .query _ | .xid | .tableMap _ _ _ | .rows _ _ _ | .partialUpdateRows | .other =>
    if e.logPos = 0 then min (currentPos + e.eventSize) u32Max else e.logPos

/-- `PENDING_FLUSH_ROWS`. -/
def pendingFlushRows : ℕ := 5000

/-- What is held of a row of a watched table. -/
def holdNamed (p : ChildrenPending) : Named → ChildrenPending
  | .parent parent key => p.nameParent parent key
  | .through parent field childKey => p.nameThrough parent field childKey

/-- `column_names`: those that are logged, if there is one for each column. -/
def columnNames (names : List String) (info : TableMeta) (resolved : TableSchema) :
    List String :=
  if names.length = info.columns.length then names else resolved.columnNames

/-- The columns of a table map, with what the catalogue says of each. -/
def fillShapes : List ColMeta → List Column → List ColMeta
  | c :: columns, resolved :: rest =>
    { c with shape := some resolved.shape } :: fillShapes columns rest
  | columns, _ => columns

/-- What the catalogue, or the answer that is kept, says for a table map: the names its
rows are read with, the answer itself, and a drift that has to be reported. -/
def resolve (cache : SchemaCache) (catalog : Except CoreError TableSchema) (info : TableMeta)
    (names : List String) :
    Except CoreError (List String × TableSchema × Option String × SchemaCache) :=
  (cache.get catalog info.table).map fun got =>
    let taken := got.2.takeDrift info.table
    (columnNames names info got.1, got.1, taken.1, taken.2)

/-- `flush_pending`, with what it leaves. -/
def BinlogState.flush (s : BinlogState) (reads : FlushReads) (version : ℕ) :
    List ChangeEvent × Except CoreError BinlogState :=
  let flushed := flushPending reads s.pending (some version)
  (flushed.1.map .row, flushed.2.map fun _ => { s with pending := .empty })

/-- A number stands for no table any more. -/
def BinlogState.forget (s : BinlogState) (tableId : ℕ) : BinlogState :=
  { s with registered := Function.update s.registered tableId none }

namespace BinlogSource

variable (src : BinlogSource)

/-- `token_at`. -/
def tokenAt (file : String) (pos : ℕ) : ℕ :=
  saturatingAdd src.versionBase (positionToken ⟨binlogIndex file, pos⟩)

/-- The token of where the stream is. -/
def token (s : BinlogState) : ℕ :=
  src.tokenAt s.currentFile s.currentPos

/-- A statement, by its text. -/
def takeQuery (s : BinlogState) (database sql : String) :
    List ChangeEvent × Except CoreError BinlogState :=
  match (truncatedTable src.alphanumeric sql database).filter src.tables with
  | some t => ([.tableTruncated t (some (src.token s))], .ok s)
  | none =>
    match (droppedTable src.alphanumeric sql database).filter src.tables with
    | some _ => ([], .ok s)
    | none =>
      if changesColumns sql then
        ([], .ok { s with schemas := s.schemas.invalidateAll, registered := fun _ => none })
      else ([], .ok s)

/-- A number stands for a table, whose columns are known. -/
def register (s : BinlogState) (tableId : ℕ) (info : TableMeta) (columns : List String)
    (resolved : TableSchema) : BinlogState :=
  { s with registered := Function.update s.registered tableId (some
    { table := info.table
      columns := columns
      metas := fillShapes info.columns resolved.columns
      pkColumns := resolved.pkColumns
      appendOnly := src.appendOnly info.table }) }

/-- A table map of a table whose answer had another number of columns: it is asked for
again. -/
def takeTableMapAgain (s : BinlogState) (reads : BinlogReads) (tableId : ℕ) (info : TableMeta)
    (names : List String) (before : ℕ) : List ChangeEvent × Except CoreError BinlogState :=
  match resolve (s.schemas.invalidate info.table) (reads.catalogAgain info.table) info names with
  | .error e => ([], .error e)
  | .ok (columns, resolved, drift, schemas) =>
    let report := drift.getD ("binlog reports " ++ toString info.columns.length ++
      " columns, the catalog had " ++ toString before)
    let s := { s with schemas := schemas }
    ([.schemaDrift info.table report],
      .ok (if columns.length = info.columns.length then src.register s tableId info columns resolved
        else s.forget tableId))

/-- A table map. -/
def takeTableMap (s : BinlogState) (reads : BinlogReads) (tableId : ℕ) (info : TableMeta)
    (names : List String) : List ChangeEvent × Except CoreError BinlogState :=
  if src.tables info.table then
    match resolve s.schemas (reads.catalog info.table) info names with
    | .error e => ([], .error e)
    | .ok (columns, resolved, drift, schemas) =>
      let reported := drift.toList.map (.schemaDrift info.table)
      let s := { s with schemas := schemas }
      if columns.length = info.columns.length then
        (reported, .ok (src.register s tableId info columns resolved))
      else
        let again := src.takeTableMapAgain s reads tableId info names columns.length
        (reported ++ again.1, again.2)
  else ([], .ok (s.forget tableId))

/-- One row that is sent at once. -/
def sendRow (rt : Registration) (kind : RowsKind) (version : ℕ) (_ : Unit) (row : RowsRow) :
    List ChangeEvent × Except CoreError Unit :=
  match rt.buildChange kind row version with
  | .error e => ([], .error e)
  | .ok change => ([.row change], .ok ())

/-- One row that is held. -/
def holdRow (rt : Registration) (kind : RowsKind) (version : ℕ) (p : ChildrenPending)
    (row : RowsRow) : Except CoreError ChildrenPending :=
  (rt.buildChange kind row version).map (p.holdParent rt.table)

/-- One row that names parents. -/
def nameParents (rt : Registration) (parent : TableName) (p : ChildrenPending) (row : RowsRow) :
    Except CoreError ChildrenPending :=
  (rt.nameRow src.watch parent row).map fun named => named.foldl holdNamed p

/-- What rows of a table are sent at once or held. -/
def holdRows (s : BinlogState) (rt : Registration) (kind : RowsKind) (rows : List RowsRow) :
    List ChangeEvent × Except CoreError BinlogState :=
  match src.watch.childParents rt.table with
  | some parent =>
    ([], (rows.foldlM (src.nameParents rt parent) s.pending).map fun p => { s with pending := p })
  | none =>
    if (src.watch.children rt.table).isEmpty && (src.watch.aggregates rt.table).isEmpty then
      let sent := Emission.run (sendRow rt kind (src.token s)) () rows
      (sent.1, sent.2.map fun _ => s)
    else
      ([], (rows.foldlM (holdRow rt kind (src.token s)) s.pending).map fun p =>
        { s with pending := p })

/-- A row event. Rows of a number that stands for no table are left out. -/
def takeRows (s : BinlogState) (reads : FlushReads) (tableId : ℕ) (kind : RowsKind)
    (rows : List RawRow) : List ChangeEvent × Except CoreError BinlogState :=
  match s.registered tableId with
  | none => ([], .ok s)
  | some rt =>
    match rows.mapM (decodeRow src.decode rt.metas) with
    | .error e => ([], .error e)
    | .ok rows =>
      match src.holdRows s rt kind rows with
      | (sent, .error e) => (sent, .error e)
      | (sent, .ok held) =>
        if pendingFlushRows ≤ held.pending.len then
          (sent ++ (held.flush reads (src.token s)).1, (held.flush reads (src.token s)).2)
        else (sent, .ok held)

/-- An XID: what is held is sent, then the position. -/
def takeXid (s : BinlogState) (reads : FlushReads) :
    List ChangeEvent × Except CoreError BinlogState :=
  match s.flush reads (src.token s) with
  | (sent, .ok next) => (sent ++ [.commit (src.token s)], .ok next)
  | (sent, .error e) => (sent, .error e)

/-- `stream`: one event, with what the server answers if it is asked. -/
def step (s : BinlogState) (turn : BinlogEvent × BinlogReads) :
    List ChangeEvent × Except CoreError BinlogState :=
  let s := { s with currentPos := endPos s.currentPos turn.1 }
  match turn.1.body with
  | .formatDescription | .rotate none | .query none | .other => ([], .ok s)
  | .rotate (some (nextFile, position)) =>
    if nextFile = s.currentFile then ([], .ok s)
    else ([], .ok { s with
      currentFile := nextFile
      currentPos := position % 2 ^ 32
      registered := fun _ => none })
  | .query (some (database, sql)) => src.takeQuery s database sql
  | .heartbeat => ([.commit (src.token s)], .ok s)
  | .xid => src.takeXid s turn.2.flush
  | .tableMap tableId info names => src.takeTableMap s turn.2 tableId info names
  | .rows tableId kind rows => src.takeRows s turn.2.flush tableId kind rows
  | .partialUpdateRows => ([], .error (.source ("the server sent a partial JSON update, which " ++
      "is not decoded here; set binlog_row_value_options to the empty string")))

/-! ## What an event leaves as it was -/

variable {src} {s next : BinlogState} {sent : List ChangeEvent} {reads : FlushReads}

theorem flush_ok {version : ℕ} (h : (s.flush reads version).2 = .ok next) :
    next = { s with pending := .empty } := by
  obtain ⟨u, -, rfl⟩ := Except.map_eq_ok h
  rfl

theorem holdRows_ok {rt : Registration} {kind : RowsKind} {rows : List RowsRow}
    (h : src.holdRows s rt kind rows = (sent, .ok next)) :
    ∃ pending, next = { s with pending := pending } := by
  rw [holdRows] at h
  split at h
  · obtain ⟨p, -, rfl⟩ := Except.map_eq_ok (Prod.mk.inj h).2
    exact ⟨p, rfl⟩
  · split at h
    · obtain ⟨u, -, rfl⟩ := Except.map_eq_ok (Prod.mk.inj h).2
      exact ⟨s.pending, rfl⟩
    · obtain ⟨p, -, rfl⟩ := Except.map_eq_ok (Prod.mk.inj h).2
      exact ⟨p, rfl⟩

/-- Rows change what is held. -/
theorem takeRows_ok {tableId : ℕ} {kind : RowsKind} {raw : List RawRow}
    (h : src.takeRows s reads tableId kind raw = (sent, .ok next)) :
    ∃ pending, next = { s with pending := pending } := by
  rw [takeRows] at h
  split at h
  · obtain rfl := Except.ok.inj (Prod.mk.inj h).2
    exact ⟨s.pending, rfl⟩
  · split at h
    · cases (Prod.mk.inj h).2
    · split at h
      · cases (Prod.mk.inj h).2
      · next sent held hhold =>
        obtain ⟨p, rfl⟩ := holdRows_ok hhold
        split at h
        · obtain rfl := flush_ok (Prod.mk.inj h).2
          exact ⟨.empty, rfl⟩
        · obtain rfl := Except.ok.inj (Prod.mk.inj h).2
          exact ⟨p, rfl⟩

theorem takeXid_ok (h : src.takeXid s reads = (sent, .ok next)) :
    next = { s with pending := .empty } := by
  rw [takeXid] at h
  split at h
  · next hflush =>
    obtain rfl := Except.ok.inj (Prod.mk.inj h).2
    exact flush_ok (congrArg Prod.snd hflush)
  · cases (Prod.mk.inj h).2

/-- A statement changes what is known of tables. -/
theorem takeQuery_ok {database sql : String}
    (h : src.takeQuery s database sql = (sent, .ok next)) :
    ∃ schemas registered, next = { s with schemas := schemas, registered := registered } := by
  rw [takeQuery] at h
  split at h
  · obtain rfl := Except.ok.inj (Prod.mk.inj h).2
    exact ⟨_, _, rfl⟩
  · split at h
    · obtain rfl := Except.ok.inj (Prod.mk.inj h).2
      exact ⟨_, _, rfl⟩
    · split at h
      · obtain rfl := Except.ok.inj (Prod.mk.inj h).2
        exact ⟨_, _, rfl⟩
      · obtain rfl := Except.ok.inj (Prod.mk.inj h).2
        exact ⟨_, _, rfl⟩

/-- A table map changes what its number stands for, and what is known of tables. -/
theorem takeTableMap_ok {reads : BinlogReads} {tableId : ℕ} {info : TableMeta}
    {names : List String} (h : src.takeTableMap s reads tableId info names = (sent, .ok next)) :
    ∃ schemas registration, next = { s with
      schemas := schemas
      registered := Function.update s.registered tableId registration } := by
  rw [takeTableMap] at h
  split at h
  · split at h
    · cases (Prod.mk.inj h).2
    · dsimp only at h
      split at h
      · obtain rfl := Except.ok.inj (Prod.mk.inj h).2
        exact ⟨_, _, rfl⟩
      · rw [takeTableMapAgain] at h
        split at h
        · cases (Prod.mk.inj h).2
        · obtain rfl := Except.ok.inj (Prod.mk.inj h).2
          split
          · exact ⟨_, _, rfl⟩
          · exact ⟨_, _, rfl⟩
  · obtain rfl := Except.ok.inj (Prod.mk.inj h).2
    exact ⟨_, _, rfl⟩

end BinlogSource

end MySql

end Pg2osync
