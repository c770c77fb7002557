import Pg2osync.Children
import Pg2osync.Materialize

/-!
# Which parents a changed row names

Both sources classify what they stream: a row of a table that is watched for a parent
names the parents to read again. The PostgreSQL source reads a tuple of the replication
log, which carries what the table's replica identity says; the MySQL source reads the
images of a row event, which are complete. What the text of a value converts to is the
type map's business, and a parameter here.
-/

namespace Pg2osync

/-- What happened to a row. -/
inductive RowEvent (ρ : Type) : Type where
  /-- it was inserted -/
  | insert (new : ρ) : RowEvent ρ
  /-- it was updated -/
  | update (old new : ρ) : RowEvent ρ
  /-- it was deleted -/
  | delete (old : ρ) : RowEvent ρ

/-- The row as it is after an event and as it was before, the first of these first. -/
def RowEvent.rows {ρ : Type} : RowEvent ρ → List ρ
  | .insert new => [new]
  | .update old new => [new, old]
  | .delete old => [old]

/-! ## PostgreSQL -/

/-- What a table's updates and deletes carry of the old row. -/
inductive ReplicaIdentity : Type where
  /-- its primary key -/
  | default : ReplicaIdentity
  /-- nothing -/
  | nothing : ReplicaIdentity
  /-- all of it -/
  | full : ReplicaIdentity
  /-- the columns of an index -/
  | index : ReplicaIdentity
  deriving DecidableEq, Repr

/-- A column of a relation. -/
structure RelationColumn : Type where
  /-- its name -/
  name : String
  /-- its type -/
  typeOid : ℕ
  /-- whether the replica identity has it -/
  inReplicaIdentity : Bool

/-- A relation, as the stream announces it. -/
structure Relation : Type where
  /-- the table's schema -/
  schema : String
  /-- its name -/
  name : String
  /-- its replica identity -/
  replicaIdentity : ReplicaIdentity
  /-- its columns -/
  columns : List RelationColumn

/-- The table of a relation. -/
def Relation.tableName (rel : Relation) : TableName :=
  (rel.schema, rel.name)

/-- A value of a tuple. -/
inductive TupleValue : Type where
  /-- NULL, or not carried -/
  | null : TupleValue
  /-- a TOASTed value that did not change -/
  | unchangedToast : TupleValue
  /-- its text -/
  | text (raw : String) : TupleValue
  deriving DecidableEq, Repr

/-- The values of a row, column by column. -/
abbrev Tuple := List TupleValue

/-- A message of the replication log. -/
inductive Incoming : Type where
  /-- an insert -/
  | insert (new : Tuple) : Incoming
  /-- an update, with the old row if it is carried -/
  | update (old : Option Tuple) (new : Tuple) : Incoming
  /-- a delete -/
  | delete (old : Tuple) : Incoming

namespace Incoming

/-- `Incoming::tuple`: the new row, or the old one of a delete. -/
def tuple : Incoming → Tuple
  | .insert t | .update _ t | .delete t => t

/-- `Incoming::tuples`: the same, and behind it the old row of an update. -/
def tuples : Incoming → List Tuple
  | .insert t | .update none t | .delete t => [t]
  | .update (some old) t => [t, old]

theorem tuples_eq (incoming : Incoming) :
    ∃ rest, incoming.tuples = incoming.tuple :: rest := by
  cases incoming with
  | insert t | delete t => exact ⟨[], rfl⟩
  | update old t => cases old <;> exact ⟨_, rfl⟩

end Incoming

/-- What a decoded row turned out to be. -/
inductive Classified : Type where
  /-- a document, complete -/
  | row (change : RowChange) : Classified
  /-- a document without its collections -/
  | parentRow (table : TableName) (change : RowChange) : Classified
  /-- the parents it names -/
  | namesParent (parent : TableName) (keys : List Json) : Classified
  /-- the child of a collection whose junction knows the parents -/
  | namesThrough (parent : TableName) (field : String) (childKey : Json) : Classified
  /-- nothing -/
  | skip : Classified

/-- `resolve_through`: the parents a collection's junction pairs a child with. The
collection is found again by its field. -/
def resolveThrough (cfg : WatchConfig) (junction : Junctions) (parent : TableName)
    (field : String) (childKey : Json) : List Json :=
  match (cfg.children parent).find? fun s => s.field = field with
  | some s => parentsThrough junction s childKey
  | none => []

/-- The parents that are read again for a row. -/
def Classified.named (cfg : WatchConfig) (junction : Junctions) :
    Classified → List (TableName × Json)
  | .namesParent parent keys => keys.map fun key => (parent, key)
  | .namesThrough parent field childKey =>
    (resolveThrough cfg junction parent field childKey).map fun key => (parent, key)
  | .row _ | .parentRow _ _ | .skip => []

namespace Relation

variable (convert : ℕ → String → Except CoreError Json) (rel : Relation)

/-- `column_index`. -/
def columnIndex (column : String) : Option ℕ :=
  rel.columns.findIdx? fun c => c.name = column

/-- `convert_column_at`: a value that is not carried as text is NULL. -/
def convertColumnAt (idx : ℕ) (tuple : Tuple) : Except CoreError Json :=
  match rel.columns[idx]?, tuple[idx]? with
  | some c, some (.text raw) => convert c.typeOid raw
  | _, _ => .ok .null

/-- One key column of a tuple. -/
def readColumn (context column : String) (tuple : Tuple) : Except CoreError Json :=
  match rel.columnIndex column with
  | none => .error (.source ("column " ++ column ++ " missing on " ++ rel.schema ++ "." ++ rel.name))
  | some idx =>
    match rel.convertColumnAt convert idx tuple with
    | .ok value => .ok value
    | .error _ => .error (.source context)

/-- The parents of an aggregate's row: the first tuple has to name one. -/
def aggregateKeys (spec : AggregateSpec) : ℕ → List Tuple → List Json → Except CoreError (List Json)
  | _, [], keys => .ok keys
  | nth, tuple :: rest, keys => do
    let value ← rel.readColumn convert "aggregate key decode" spec.foreignKey tuple
    if value = .null then
      if nth = 0 then
        .error (.source ("row of " ++ rel.schema ++ "." ++ rel.name ++ " carries NULL " ++
          spec.foreignKey ++ "; cannot locate the parent whose " ++ spec.field ++
          " it counts towards. Consider ALTER TABLE " ++ rel.schema ++ "." ++ rel.name ++
          " REPLICA IDENTITY FULL"))
      else aggregateKeys spec (nth + 1) rest keys
    else aggregateKeys spec (nth + 1) rest (if keys.contains value then keys else keys ++ [value])

/-- `names_aggregate_parent`. -/
def namesAggregateParent (cfg : WatchConfig) (parent : TableName) (incoming : Incoming) :
    Except CoreError Classified :=
  match (cfg.aggregates parent).find? (·.reads rel.tableName) with
  | none => .error (.source ("child " ++ rel.schema ++ "." ++ rel.name ++
      " has no matching children entry"))
  | some spec => (rel.aggregateKeys convert spec 0 incoming.tuples []).map (.namesParent parent)

/-- What a row of a child collection names. -/
def namesChildParent (parent : TableName) (spec : ChildSpec) (incoming : Incoming) :
    Except CoreError Classified := do
  let column := (Role.child spec).column rel.tableName
  let value ← rel.readColumn convert "child key decode" column incoming.tuple
  if value = .null then
    .error (.source ("child row carries NULL " ++ column ++
      "; cannot locate parent. Consider ALTER TABLE " ++ rel.schema ++ "." ++ rel.name ++
      " REPLICA IDENTITY FULL"))
  else match spec.throughFor rel.tableName with
    | some _ => .ok (.namesThrough parent spec.field value)
    | none => .ok (.namesParent parent [value])

/-- `classify`, for a message of a known relation: `configured` says whether the table
is admitted, `build` is what `build_row_change` makes of the message. -/
def classify (cfg : WatchConfig) (configured : Bool) (build : Except CoreError RowChange)
    (incoming : Incoming) : Except CoreError Classified :=
  let t := rel.tableName
  match cfg.childParents t with
  | some parent =>
    match (cfg.children parent).find? (·.reads t) with
    | some spec => rel.namesChildParent convert parent spec incoming
    | none => rel.namesAggregateParent convert cfg parent incoming
  | none =>
    if (cfg.children t).isEmpty && (cfg.aggregates t).isEmpty then
      if configured then build.map .row else .ok .skip
    else build.map (.parentRow t)

end Relation

/-! ### What the log carries of a row -/

/-- A row of the database: the text of each column that is not NULL. -/
abbrev DbRow := String → Option String

namespace Relation

variable (rel : Relation)

/-- A value as it is carried. -/
def carried (row : DbRow) (c : RelationColumn) : TupleValue :=
  match row c.name with
  | some raw => .text raw
  | none => .null

/-- A whole row. -/
def fullTuple (row : DbRow) : Tuple :=
  rel.columns.map (carried row)

/-- The columns of a row that the replica identity has. -/
def keyTuple (row : DbRow) : Tuple :=
  rel.columns.map fun c => if c.inReplicaIdentity then carried row c else .null

/-- The new row of an update; a TOASTed value that did not change is not carried. -/
def newTuple (toasted : String → Bool) (old new : DbRow) : Tuple :=
  rel.columns.map fun c =>
    if toasted c.name && decide (old c.name = new c.name) then .unchangedToast else carried new c

/-- The message of an event. -/
def incoming (toasted : String → Bool) : RowEvent DbRow → Incoming
  | .insert new => .insert (rel.fullTuple new)
  | .update old new =>
    let before :=
      if rel.replicaIdentity = .full then some (rel.fullTuple old)
      else if rel.keyTuple old = rel.keyTuple new then none
      else some (rel.keyTuple old)
    .update before (rel.newTuple toasted old new)
  | .delete old =>
    .delete (if rel.replicaIdentity = .full then rel.fullTuple old else rel.keyTuple old)

variable (convert : ℕ → String → Except CoreError Json)

/-- The keys that can be read from a tuple. -/
def tupleKeys (tuple : Tuple) : Keys := fun column =>
  match rel.readColumn convert "child key decode" column tuple with
  | .ok value => if value = .null then none else some value
  | .error _ => none

/-- The keys of a row of the database. -/
def rowKeys (row : DbRow) : Keys :=
  rel.tupleKeys convert (rel.fullTuple row)

end Relation

/-! ## MySQL -/

/-- A table that a row event refers to. -/
structure RegisteredTable : Type where
  /-- the table -/
  table : TableName
  /-- its columns -/
  columns : List String

/-- The values of a row event's row, column by column. -/
abbrev Image := List (Option Json)

/-- A row of a row event. -/
structure RowsRow : Type where
  /-- as it was -/
  before : Option Image
  /-- as it is -/
  after : Option Image

/-- What a row of a watched table adds to what is pending. -/
inductive Named : Type where
  /-- `name_parent` -/
  | parent (parent : TableName) (key : Json) : Named
  /-- `name_through` -/
  | through (parent : TableName) (field : String) (childKey : Json) : Named

/-- The parents that are read again for it. A NULL key is no parent's. -/
def Named.named (cfg : WatchConfig) (junction : Junctions) : Named → List (TableName × Json)
  | .parent p key => if key = .null then [] else [(p, key)]
  | .through p field childKey =>
    if childKey = .null then []
    else (resolveThrough cfg junction p field childKey).map fun key => (p, key)

namespace RegisteredTable

variable (rt : RegisteredTable)

/-- `image_column`. -/
def imageColumn (image : Image) (column : String) : Except CoreError Json :=
  match rt.columns.findIdx? fun c => c = column with
  | none => .error (.source ("column " ++ column ++ " missing on " ++ rt.table.1 ++ "." ++ rt.table.2))
  | some idx =>
    match image[idx]? with
    | some (some value) => .ok value
    | _ => .error (.source ("child row of " ++ rt.table.1 ++ "." ++ rt.table.2 ++ " carries no " ++
        column ++ "; cannot locate its parent"))

/-- `row_column`. -/
def rowColumn (row : RowsRow) (column : String) : Except CoreError Json :=
  match row.after.or row.before with
  | some image => rt.imageColumn image column
  | none => .error (.source "child row carries no image")

/-- A row of a watched table. -/
def nameRow (cfg : WatchConfig) (parent : TableName) (row : RowsRow) :
    Except CoreError (List Named) :=
  match (cfg.children parent).find? (·.reads rt.table) with
  | some spec => do
    let key ← rt.rowColumn row ((Role.child spec).column rt.table)
    match spec.throughFor rt.table with
    | some _ => .ok [.through parent spec.field key]
    | none => .ok [.parent parent key]
  | none =>
    match (cfg.aggregates parent).find? (·.reads rt.table) with
    | none => .error (.source ("child " ++ rt.table.1 ++ "." ++ rt.table.2 ++
        " has no matching children entry"))
    | some spec => (row.after.toList ++ row.before.toList).mapM fun image =>
        (rt.imageColumn image spec.foreignKey).map (.parent parent)

/-- What the source adds to what is pending for a row of a watched table. -/
def nameWatched (cfg : WatchConfig) (row : RowsRow) : Except CoreError (List Named) :=
  match cfg.childParents rt.table with
  | some parent => rt.nameRow cfg parent row
  | none => .ok []

/-- A row as it is carried: `binlog_row_image` is full. -/
def image (row : String → Json) : Image :=
  rt.columns.map fun c => some (row c)

/-- A row event of an event. -/
def rowsRow : RowEvent (String → Json) → RowsRow
  | .insert new => ⟨none, some (rt.image new)⟩
  | .update old new => ⟨some (rt.image old), some (rt.image new)⟩
  | .delete old => ⟨some (rt.image old), none⟩

/-- The keys of a row of the database. -/
def rowKeys (row : String → Json) : Keys := fun column =>
  if column ∈ rt.columns ∧ row column ≠ .null then some (row column) else none

end RegisteredTable

end Pg2osync
