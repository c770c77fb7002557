import Mathlib.Data.Nat.Basic
import Mathlib.Logic.Function.Basic
import Pg2osync.Register
import Pg2osync.Sink

/-!
# The PostgreSQL target

One section writes one table. A document becomes a row through
`jsonb_populate_record`, the row is filed under the document's id, and the
position the write happened at goes into the `_version` column, which is what a
later write or delete is compared with.

The server is a parameter: what row a body builds, or the sentence it is
refused with, is the table's column types and constraints speaking. Everything
that decides between two writes of one row is the sink's own SQL and is modelled
here. A batch is one transaction, so an attempt that is interrupted leaves
nothing; the runs below are lists of committed batches, a batch standing in it
once for every time it was committed.

The run lemma `run_cell` says what the sink keeps: every cell of the table is a
bare register, because a deleted row takes its `_version` with it.
-/

namespace Pg2osync

open Register

/-- The column carrying the source position a row was written at. -/
def versionColumn : String := "_version"

/-- What a write needs to know about one target table. `ensure_ready` refuses a
table without the version column. -/
structure TableShape : Type where
  /-- the table's columns, in `attnum` order -/
  columns : List String
  /-- the single-column primary key the document id is filed under -/
  key : String
  /-- the version column is one of them -/
  hasVersion : versionColumn ∈ columns
  /-- and it is not the column documents are filed under -/
  keyNe : key ≠ versionColumn

/-- Whether the table has a column of this name. -/
def TableShape.has (shape : TableShape) (column : String) : Bool :=
  shape.columns.any (· == column)

/-- The fields of a document as the fields of a row body: the first one without
a column of its name refuses the document. -/
def bodyFields (shape : TableShape) :
    List (String × Json) → List (String × Json) → Except String (List (String × Json))
  | row, [] => .ok row
  | row, (field, value) :: rest =>
    if shape.has field then bodyFields shape (Json.insertField field value row) rest
    else .error ("column " ++ field ++ " does not exist; add it to the table's DDL or leave the " ++
      "field out with exclude_columns")

/-- The row `jsonb_populate_record` will build, or why the document cannot be
one. The id lands in the primary key column whatever the document calls it. -/
def documentBody (shape : TableShape) (id : String) (doc : Json) (version : Option ℕ) :
    Except String Json :=
  match doc.asObject with
  | none => .error "a document that is not a JSON object has no columns to write"
  | some fields =>
    match bodyFields shape [] fields with
    | .error why => .error why
    | .ok row =>
      let row := Json.insertField shape.key (.str id) row
      let version := match version.bind i64TryFrom with
        | some at_ => .int at_
        | none => .null
      .ok (.obj (Json.insertField versionColumn version row))

/-- One row of a target table. -/
structure PgRow : Type where
  /-- the version column; `none` is SQL `NULL` -/
  version : Option ℕ
  /-- the row's other columns, as `to_jsonb` shows them -/
  columns : Json
  deriving DecidableEq, Repr

/-- A target table: its rows under the text of their primary key. -/
abbrev PgTable := String → Option PgRow

/-- The tables of the target database by name. -/
abbrev PgDatabase := String → PgTable

/-- The part of the server the sink relies on and does not decide: the columns
that a body populates in a table, or the sentence the row is refused with. -/
structure PgServer : Type where
  /-- `jsonb_populate_record`, the input functions and the constraints of a table -/
  populate : (table : String) → (body : Json) → Except String Json

/-- The guard of both statements: a row or a write with no position has no
ordering to keep, and otherwise the row's must not be the greater. -/
def notNewer : (stored at_ : Option ℕ) → Bool
  | some stored, some at_ => stored ≤ at_
  | _, _ => true

/-- `upsert_sql`: `INSERT … ON CONFLICT (key) DO UPDATE … WHERE` the stored
version is not newer. -/
def upsertSql (server : PgServer) (shape : TableShape) (table : String) (body : Json)
    (rows : PgTable) : Except String PgTable :=
  match server.populate table body with
  | .error why => .error why
  | .ok columns =>
    let row : PgRow := ⟨(body.index versionColumn).asU64, columns⟩
    let key := ((body.index shape.key).asStr).getD ""
    match rows key with
    | none => .ok (Function.update rows key (some row))
    | some stored =>
      if notNewer stored.version row.version then .ok (Function.update rows key (some row))
      else .ok rows

/-- `DELETE … WHERE key = id AND` the stored version is not newer. -/
def deleteSql (id : String) (at_ : Option ℕ) (rows : PgTable) : PgTable :=
  match rows id with
  | none => rows
  | some stored => if notNewer stored.version at_ then Function.update rows id none else rows

/-- The refusal of a cascade. -/
def cascadeRefused : CoreError :=
  .sink ("a join field's cascade cannot be expressed against PostgreSQL, which has " ++
    "no parent-child document model; this operation should have been refused at startup")

/-- `PostgresSink::apply`: one operation inside the batch's transaction, on a
savepoint. A refusal rolls the savepoint back and is reported with its reason. -/
def PostgresSink.apply (server : PgServer) (shape : TableShape) (op : DocumentOp)
    (db : PgDatabase) : Except CoreError (Option String × PgDatabase) :=
  match op with
  | .upsert index id _ doc version _ =>
    match documentBody shape id doc version with
    | .error why => .ok (some why, db)
    | .ok body =>
      match upsertSql server shape index body (db index) with
      | .error why => .ok (some why, db)
      | .ok rows => .ok (none, Function.update db index rows)
  | .delete index id _ version =>
    let at_ := version.bind i64TryFrom
    .ok (none, Function.update db index (deleteSql id at_ (db index)))
  | .deleteChildren .. => .error cascadeRefused

/-- The sink: its retry policy, and what `ensure_ready` found out about each
table. -/
structure PostgresSink : Type where
  /-- the server behind the connection -/
  server : PgServer
  /-- the retry policy -/
  retry : RetryPolicy
  /-- the shape of every prepared table -/
  shapes : String → Option TableShape

namespace PostgresSink

/-- The shape `ensure_ready` recorded, or a refusal naming what to run. -/
def shapeOf (sink : PostgresSink) (table : String) : Except CoreError TableShape :=
  match sink.shapes table with
  | some shape => .ok shape
  | none => .error (.sink ("table " ++ table ++ " was never prepared; every section's table " ++
      "is created or checked before the first batch"))

/-- The operations of a batch from its `nth` on, applied in order inside one
transaction, with the position and reason of each one refused. -/
def applyFrom (sink : PostgresSink) :
    ℕ → List LsnOp → PgDatabase → Except CoreError (List (ℕ × String) × PgDatabase)
  | _, [], db => .ok ([], db)
  | nth, op :: rest, db => do
    let shape ← sink.shapeOf op.op.index
    let (refused, db) ← apply sink.server shape op.op db
    let (refusals, db) ← sink.applyFrom (nth + 1) rest db
    match refused with
    | some why => .ok ((nth, why) :: refusals, db)
    | none => .ok (refusals, db)

/-- One attempt at a batch: all of it in one transaction, or none of it. -/
def writeOnce (sink : PostgresSink) (batch : List LsnOp) (db : PgDatabase) :
    Except CoreError (List (ℕ × String) × PgDatabase) :=
  sink.applyFrom 0 batch db

/-- `PostgresSink::write`. `interrupted n` is the transient failure that ended
the attempt made after `n` failures before its commit, if one did. -/
def write (sink : PostgresSink) (elapsed : ℕ → ℕ) (interrupted : ℕ → Option String)
    (batch : List LsnOp) (db : PgDatabase) : Except CoreError (SinkAck × PgDatabase) :=
  match batch.getLast? with
  | none => .error (.sink "engine must never send empty batches")
  | some last => do
    let _ ← batch.mapM fun op => sink.shapeOf op.op.index
    let (refusals, db) ← retryTransient sink.retry elapsed fun n =>
      match interrupted n with
      | some why => .error (.sinkTransient why)
      | none => sink.writeOnce batch db
    let rejected ← rejections batch refusals
    .ok (⟨last.lsn, rejected⟩, db)

/-- What one committed attempt at a batch leaves; an attempt that fails leaves
the database as it was. -/
def commit (sink : PostgresSink) (db : PgDatabase) (batch : List LsnOp) : PgDatabase :=
  match sink.writeOnce batch db with
  | .ok (_, db') => db'
  | .error _ => db

/-- What a run of batches leaves of an empty database. -/
def run (sink : PostgresSink) (batches : List (List LsnOp)) : PgDatabase :=
  batches.foldl sink.commit fun _ _ => none

end PostgresSink

/-! ## The row a write leaves

`PgServer.row` is what an accepted upsert files; everything below speaks about
it and about the version guard, not about the SQL. -/

/-- The row an upsert files under its id, or why it is refused. -/
def PgServer.row (server : PgServer) (shape : TableShape) (table id : String) (doc : Json)
    (version : Option ℕ) : Except String PgRow :=
  match documentBody shape id doc version with
  | .error why => .error why
  | .ok body =>
    match server.populate table body with
    | .error why => .error why
    | .ok columns => .ok ⟨version.bind i64TryFrom, columns⟩

variable {id : String}

theorem documentBody_eq_ok {shape : TableShape} {doc : Json} {version : Option ℕ} {body : Json}
    (h : documentBody shape id doc version = .ok body) :
    body.index shape.key = .str id ∧
      (body.index versionColumn).asU64 = version.bind i64TryFrom := by
  rw [documentBody] at h
  split at h
  · cases h
  · split at h
    · cases h
    · injection h with h
      subst h
      refine ⟨?_, ?_⟩
      · rw [Json.index, Json.get, Json.lookup_insertField_ne shape.keyNe,
          Json.lookup_insertField_self]
        rfl
      · rw [Json.index, Json.get, Json.lookup_insertField_self]
        split
        · next v hv =>
          obtain ⟨w, -, hw⟩ := Option.bind_eq_some_iff.mp hv
          obtain ⟨rfl, hle⟩ := i64TryFrom_eq_some hw
          have hlt : (v : Int) < 2 ^ 64 := by
            have : i64Max < 2 ^ 64 := by decide
            omega
          rw [hv, Option.getD_some, Json.asU64, if_pos ⟨Int.natCast_nonneg v, hlt⟩, Int.toNat_natCast]
        · next hv =>
          rw [hv]
          rfl

/-- What an upsert does to its table: nothing when its row is refused, and
otherwise its row is filed under its id unless a newer one is there. -/
theorem PostgresSink.apply_upsert (server : PgServer) (shape : TableShape) (index id : String)
    (routing : Option String) (doc : Json) (version : Option ℕ) (pipeline : Option String)
    (db : PgDatabase) :
    (∃ why, server.row shape index id doc version = .error why ∧
      apply server shape (.upsert index id routing doc version pipeline) db =
        .ok (some why, db)) ∨
    (∃ row, server.row shape index id doc version = .ok row ∧
      row.version = version.bind i64TryFrom ∧
      apply server shape (.upsert index id routing doc version pipeline) db =
        .ok (none, Function.update db index
          (if (db index id).all fun stored => notNewer stored.version row.version
            then Function.update (db index) id (some row) else db index))) := by
  rcases hbody : documentBody shape id doc version with why | body
  · exact Or.inl ⟨why, by rw [PgServer.row, hbody], by rw [apply, hbody]⟩
  · obtain ⟨hkey, hversion⟩ := documentBody_eq_ok hbody
    rcases hcols : server.populate index body with why | columns
    · refine Or.inl ⟨why, ?_, ?_⟩
      · simp only [PgServer.row, hbody, hcols]
      · simp only [apply, hbody, upsertSql, hcols]
    · refine Or.inr ⟨⟨version.bind i64TryFrom, columns⟩, ?_, rfl, ?_⟩
      · simp only [PgServer.row, hbody, hcols]
      · simp only [apply, hbody, upsertSql, hcols, hkey, hversion, Json.asStr, Option.getD_some]
        rcases hstored : db index id with _ | stored
        · simp
        · by_cases hnew : notNewer stored.version (version.bind i64TryFrom) <;> simp [hnew]


/-! ## One document's cell

A row's life is a bare register: an accepted upsert puts, a delete removes, and
every other operation on the table leaves the cell alone. -/

/-- The position an operation is versioned by, zero where it has none. -/
def DocumentOp.position (op : DocumentOp) : ℕ :=
  op.version.getD 0

/-- An upsert or a delete of a row of `table`, at a version that fits an `i64`. -/
structure DocumentOp.OnRow (table : String) (op : DocumentOp) : Prop where
  /-- it is sent to the table -/
  onTable : op.index = table
  /-- it is not a cascade -/
  single : op.isCascade = false
  /-- its version can be stored -/
  fits : op.version.bind i64TryFrom = some op.position

/-- The columns an accepted upsert writes; `none` for a refused one and for a
delete. -/
def PgServer.accepted (server : PgServer) (shape : TableShape) (table : String) :
    DocumentOp → Option Json
  | .upsert _ id _ doc version _ =>
    match server.row shape table id doc version with
    | .ok row => some row.columns
    | .error _ => none
  | _ => none

/-- What an operation does to the cell of `id`. -/
def PgServer.effectOn (server : PgServer) (shape : TableShape) (table id : String)
    (op : DocumentOp) : Option (Register.Write ℕ Json) :=
  if op.id = id then
    if op.isDelete then some (.remove op.position)
    else (server.accepted shape table op).map (.put op.position)
  else none

/-- A register's content as the stored row. -/
def PgRow.ofCell (cell : ℕ × Json) : PgRow :=
  ⟨some cell.1, cell.2⟩

theorem notNewer_some (v w : ℕ) : notNewer (some v) (some w) = decide (v ≤ w) := rfl

/-- A put on a cell, in the terms `apply_upsert` states an upsert in. -/
theorem map_writeBare_put (s : Option (ℕ × Json)) (v : ℕ) (x : Json) :
    (writeBare s (.put v x)).map PgRow.ofCell =
      if (s.map PgRow.ofCell).all fun stored => notNewer stored.version (some v)
        then some ⟨some v, x⟩ else s.map PgRow.ofCell := by
  rcases s with _ | ⟨w, y⟩
  · rfl
  · by_cases h : w ≤ v <;>
      simp [writeBare, PgRow.ofCell, notNewer_some, h]

/-- A removal on a cell, in the terms of `deleteSql`. -/
theorem map_writeBare_remove (s : Option (ℕ × Json)) (v : ℕ) {rows : PgTable}
    (h : rows id = s.map PgRow.ofCell) :
    deleteSql id (some v) rows id = (writeBare s (.remove v)).map PgRow.ofCell := by
  rw [deleteSql, h]
  rcases s with _ | ⟨w, y⟩
  · exact h
  · by_cases hle : w ≤ v
    · simp [writeBare, PgRow.ofCell, notNewer_some, hle]
    · simp [writeBare, PgRow.ofCell, notNewer_some, hle, h]

theorem deleteSql_of_ne {id other : String} (hne : other ≠ id) (at_ : Option ℕ)
    (rows : PgTable) : deleteSql id at_ rows other = rows other := by
  rw [deleteSql]
  rcases rows id with _ | stored
  · rfl
  · by_cases hnew : notNewer stored.version at_
    · simp only [hnew, if_true]
      exact Function.update_of_ne hne _ _
    · simp only [hnew]
      rfl

variable {sink : PostgresSink} {batch : List LsnOp}

namespace PostgresSink

/-- **The step lemma.** An operation on a row is applied or refused without an
error, and every cell of its table moves as its register does. -/
theorem apply_cell {server : PgServer} {shape : TableShape} {table : String} {op : DocumentOp}
    (hop : op.OnRow table) (db : PgDatabase) :
    ∃ refused db', apply server shape op db = .ok (refused, db') ∧
      ∀ id s, db table id = Option.map PgRow.ofCell s →
        db' table id = Option.map PgRow.ofCell
          ((server.effectOn shape table id op).elim s (writeBare s)) := by
  obtain ⟨hindex, hsingle, hfits⟩ := hop
  cases op with
  | upsert index key routing doc version pipeline =>
    have hindex : index = table := hindex
    subst hindex
    rcases apply_upsert server shape index key routing doc version pipeline db with
      ⟨why, hrow, happly⟩ | ⟨row, hrow, hversion, happly⟩
    · refine ⟨some why, db, happly, fun id s hs => ?_⟩
      rw [hs]
      by_cases hid : key = id <;>
        simp [PgServer.effectOn, PgServer.accepted, DocumentOp.isDelete, DocumentOp.id, hid]
      rw [← hid, hrow]
      rfl
    · refine ⟨none, _, happly, fun id s hs => ?_⟩
      rw [Function.update_self]
      have hfits : version.bind i64TryFrom = _ := hfits
      by_cases hid : key = id
      · subst hid
        have heff : server.effectOn shape index key
            (.upsert index key routing doc version pipeline) = some (.put
              (DocumentOp.upsert index key routing doc version pipeline).position row.columns) := by
          simp [PgServer.effectOn, PgServer.accepted, DocumentOp.isDelete, DocumentOp.id, hrow]
        rw [hversion, hfits, hs, heff, Option.elim_some, map_writeBare_put]
        split
        · rw [Function.update_self, ← hfits, ← hversion]
        · exact hs
      · have heff : server.effectOn shape index id
            (.upsert index key routing doc version pipeline) = none := if_neg hid
        rw [heff, Option.elim_none, ← hs]
        split
        · exact Function.update_of_ne (Ne.symm hid) _ _
        · rfl
  | delete index key routing version =>
    have hindex : index = table := hindex
    subst hindex
    refine ⟨none, _, rfl, fun id s hs => ?_⟩
    rw [Function.update_self]
    by_cases hid : key = id
    · subst hid
      have hfits : version.bind i64TryFrom = _ := hfits
      rw [hfits, map_writeBare_remove s _ hs]
      simp [PgServer.effectOn, DocumentOp.isDelete, DocumentOp.id]
    · rw [deleteSql_of_ne (Ne.symm hid), hs]
      simp [PgServer.effectOn, DocumentOp.id, hid]
  | deleteChildren index field parentName parentId version => cases hsingle

/-- **The batch lemma.** By induction on the batch, an `apply` at a time. -/
theorem applyFrom_cell {shape : TableShape} {table : String}
    (hshape : sink.shapes table = some shape) (hbatch : ∀ op ∈ batch, op.op.OnRow table) (nth : ℕ)
    (db : PgDatabase) :
    ∃ refusals db', sink.applyFrom nth batch db = .ok (refusals, db') ∧
      ∀ id s, db table id = Option.map PgRow.ofCell s →
        db' table id = Option.map PgRow.ofCell
          (((batch.map LsnOp.op).filterMap (sink.server.effectOn shape table id)).foldl
            writeBare s) := by
  induction batch generalizing nth db with
  | nil => exact ⟨[], db, rfl, fun id s hs => hs⟩
  | cons op rest ih =>
    have hop := hbatch op List.mem_cons_self
    obtain ⟨refused, db₁, happly, hcell⟩ := @apply_cell sink.server shape table op.op hop db
    obtain ⟨refusals, db₂, hrest, hcells⟩ :=
      ih (fun o ho => hbatch o (List.mem_cons_of_mem _ ho)) (nth + 1) db₁
    have hof : sink.shapeOf op.op.index = .ok shape := by
      rw [shapeOf, hop.onTable, hshape]
    have hrun : ∃ rs, sink.applyFrom nth (op :: rest) db = .ok (rs, db₂) := by
      rw [applyFrom, hof]
      rcases refused with _ | why
      · exact ⟨refusals, by simp [bind, Except.bind, happly, hrest]⟩
      · exact ⟨(nth, why) :: refusals, by simp [bind, Except.bind, happly, hrest]⟩
    obtain ⟨rs, hrun⟩ := hrun
    refine ⟨rs, db₂, hrun, fun id s hs => ?_⟩
    rw [hcells id _ (hcell id s hs), List.map_cons, List.filterMap_cons]
    rcases sink.server.effectOn shape table id op.op with _ | w <;> rfl

/-- The operations of a run, in the order they were applied. -/
def applied (batches : List (List LsnOp)) : List DocumentOp :=
  batches.flatten.map LsnOp.op

theorem commit_cell {shape : TableShape} {table : String} (hshape : sink.shapes table = some shape)
    (hbatch : ∀ op ∈ batch, op.op.OnRow table) {db : PgDatabase} {s : Option (ℕ × Json)}
    (hs : db table id = Option.map PgRow.ofCell s) :
    sink.commit db batch table id = Option.map PgRow.ofCell
      (((batch.map LsnOp.op).filterMap (sink.server.effectOn shape table id)).foldl
        writeBare s) := by
  obtain ⟨refusals, db', hrun, hcells⟩ := applyFrom_cell hshape hbatch 0 db
  rw [commit, writeOnce, hrun]
  exact hcells id s hs

theorem foldl_commit_cell {shape : TableShape} {table : String}
    (hshape : sink.shapes table = some shape) {batches : List (List LsnOp)}
    (hbatches : ∀ batch ∈ batches, ∀ op ∈ batch, op.op.OnRow table) {db : PgDatabase}
    {s : Option (ℕ × Json)} (hs : db table id = Option.map PgRow.ofCell s) :
    batches.foldl sink.commit db table id = Option.map PgRow.ofCell
      (((applied batches).filterMap (sink.server.effectOn shape table id)).foldl
        writeBare s) := by
  induction batches generalizing db s with
  | nil => exact hs
  | cons batch rest ih =>
    have hstep := commit_cell hshape (hbatches batch List.mem_cons_self) hs
    rw [List.foldl_cons, ih (fun b hb => hbatches b (List.mem_cons_of_mem _ hb)) hstep]
    simp only [applied, List.flatten_cons, List.map_append, List.filterMap_append,
      List.foldl_append]

/-- **The run lemma.** Every cell of the table a run leaves is what a bare
register holds after the cell's own writes. -/
theorem run_cell {shape : TableShape} {table : String} (hshape : sink.shapes table = some shape)
    {batches : List (List LsnOp)} (hrows : ∀ op ∈ applied batches, op.OnRow table) (id : String) :
    sink.run batches table id = Option.map PgRow.ofCell
      (runBare ((applied batches).filterMap
        (sink.server.effectOn shape table id))) := by
  refine foldl_commit_cell hshape (fun batch hb op hop => ?_) rfl
  exact hrows op.op (List.mem_map_of_mem (List.mem_flatten.mpr ⟨batch, hb, hop⟩))

end PostgresSink

end Pg2osync
