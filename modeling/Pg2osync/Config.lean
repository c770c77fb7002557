import Pg2osync.Dictionary
import Pg2osync.Template

/-!
# The configuration

A configuration file names a source, a target and the sections that say which
table goes to which index. The records hold every field of the file, with the
defaults of a field that the file leaves out. Maps are dictionaries: nothing
depends on the order in which an unordered one is read.
-/

namespace Pg2osync

instance : KeyOrder String where
  before := Json.keyBefore
  irrefl k := by
    rw [Json.keyBefore, Json.charsBefore_irrefl]
  trans := Json.keyBefore_trans
  total := Json.keyBefore_total

namespace Config

/-! ## Sections -/

/-- A value for a field that comes from no column. -/
inductive Constant : Type where
  /-- a string, whose braces are placeholders -/
  | str (s : String) : Constant
  /-- an integer -/
  | int (n : ℤ) : Constant
  /-- a float, as its text -/
  | float (text : String) : Constant
  /-- a boolean -/
  | bool (b : Bool) : Constant
  deriving DecidableEq, Repr

/-- A transform with its parameters. -/
structure TransformTable : Type where
  /-- the operation -/
  op : String
  /-- `split`: the separator -/
  by_ : Option String := none
  /-- `date`: the format -/
  from_ : Option String := none
  /-- `lookup`: the dictionary -/
  map : Option (Dictionary String String) := none
  /-- `lookup`: what stands in for a value that is not in it -/
  default : Option String := none
  /-- `pseudonym`: the environment variable that holds the key -/
  keyEnv : Option String := none
  /-- `pseudonym`: the scope -/
  scope : Option String := none
  deriving DecidableEq

/-- One entry of a section's transforms. -/
inductive TransformSpec : Type where
  /-- an operation alone -/
  | op (name : String) : TransformSpec
  /-- an operation with its parameters -/
  | table (table : TransformTable) : TransformSpec
  deriving DecidableEq

/-- One row to many documents. -/
structure FanOut : Type where
  /-- the array column -/
  field : String
  /-- the separator, where the column is a delimited string -/
  by_ : Option String := none
  /-- the template of the elements' ids -/
  id : String
  deriving DecidableEq

/-- A section's place in a join field. -/
structure JoinSpec : Type where
  /-- the join field -/
  field : String
  /-- the section's relation name -/
  name : String
  /-- the column that holds the parent's key; a section without one is the parent -/
  parent : Option String := none
  deriving DecidableEq

/-- A child table embedded in the parent document. -/
structure ChildJoin : Type where
  /-- the child table -/
  table : String
  /-- the field of the parent document -/
  field : String
  /-- the column that holds the parent's key -/
  foreignKey : String
  /-- the junction table of a many-to-many relation -/
  through : Option String := none
  /-- the junction's column that references the child -/
  throughKey : Option String := none
  /-- how many children to embed -/
  maxRows : Option ℕ := none
  /-- renames inside the embedded element -/
  fields : Dictionary String String := ∅
  /-- the only columns to embed -/
  columns : Option (List String) := none
  /-- the columns to leave out -/
  excludeColumns : List String := []
  /-- whether the element itself is embedded, not an array -/
  single : Bool := false
  /-- whether the element's columns are lifted onto the parent -/
  flatten : Bool := false
  deriving DecidableEq

/-- A number derived from a child table. -/
structure AggregateJoin : Type where
  /-- the aggregated table -/
  table : String
  /-- the field of the parent document -/
  field : String
  /-- the column that holds the parent's key -/
  foreignKey : String
  /-- what to derive -/
  op : String := "count"
  /-- which rows count -/
  filter : Option String := none
  deriving DecidableEq

/-- A `[sync.*]` section. -/
structure TableSync : Type where
  /-- the table, with its schema -/
  table : String
  /-- the index, if it is not named as the section is -/
  index : Option String := none
  /-- the key column -/
  primaryKey : Option String := none
  /-- whether the table has no key a row is addressed by -/
  appendOnly : Bool := false
  /-- the template of the document ids -/
  id : Option String := none
  /-- which column is fanned out -/
  fanOut : Option FanOut := none
  /-- the place in a join field -/
  join : Option JoinSpec := none
  /-- the only columns to keep -/
  columns : Option (List String) := none
  /-- the columns to leave out -/
  excludeColumns : List String := []
  /-- poll mode: the section's own timestamp column -/
  pollColumn : Option String := none
  /-- poll mode: which rows count as deleted -/
  softDelete : Option String := none
  /-- which rows belong in the index -/
  filter : Option String := none
  /-- the target's ingest pipeline -/
  pipeline : Option String := none
  /-- the column that routes the documents -/
  routing : Option String := none
  /-- column transformations -/
  transform : Dictionary String TransformSpec := ∅
  /-- renames -/
  fields : Dictionary String String := ∅
  /-- fields that come from no column -/
  constants : Dictionary String Constant := ∅
  /-- embedded children -/
  children : List ChildJoin := []
  /-- derived numbers -/
  aggregates : List AggregateJoin := []
  /-- the file that holds the index's mapping -/
  mappingFile : Option String := none
  /-- what the file holds -/
  mapping : Option Json := none
  deriving DecidableEq

/-! ## The other tables of the file -/

/-- `[source]`. -/
structure SourceConfig : Type where
  /-- what the source is called among the files of a directory -/
  name : Option String := none
  /-- `wal` or `poll` -/
  mode : String := "wal"
  /-- `postgres` or `mysql` -/
  flavor : String := "postgres"
  /-- MySQL: the id of this replica -/
  serverId : ℕ := 424242
  /-- poll mode: the timestamp column -/
  pollColumn : String := "updated_at"
  /-- poll mode: how often to poll -/
  pollIntervalSecs : ℕ := 30
  /-- poll mode: rows fetched at once -/
  pollPageSize : ℤ := 5000
  url : Option String := none
  urlEnv : Option String := none
  sslmode : Option String := none
  sslrootcert : Option String := none
  sslcert : Option String := none
  sslkey : Option String := none
  adminUrlEnv : Option String := none
  /-- consecutive stream failures tolerated -/
  reconnectMax : ℕ := 10
  reconnectBackoffMs : ℕ := 1000
  /-- rows one range of the initial load covers -/
  loadChunkRows : ℤ := 50000
  /-- how many ranges are read at once -/
  loadWorkers : ℕ := 1
  slotName : String := "pg2osync"
  publication : String := "pg2osync_pub"
  deriving DecidableEq

/-- `[target]`. -/
structure TargetConfig : Type where
  url : String := ""
  /-- the environment variable that holds the URL -/
  urlEnv : Option String := none
  flavor : String := "opensearch"
  username : Option String := none
  password : Option String := none
  passwordEnv : Option String := none
  apiKeyEnv : Option String := none
  tlsVerify : Bool := true
  /-- Meilisearch: where the checkpoint falls back to -/
  stateDir : String := "./.pg2osync-state"
  /-- whether a write to a name that is no alias is refused -/
  requireAlias : Bool := false
  deriving DecidableEq

/-- What to do when the target permanently refuses a document. -/
inductive RejectionPolicy : Type where
  | halt : RejectionPolicy
  | quarantine : RejectionPolicy
  deriving DecidableEq, Repr

/-- `[engine]`. -/
structure EngineConfig : Type where
  /-- rows per request -/
  batchSize : ℕ := 500
  /-- bytes per request -/
  batchMaxBytes : ℕ := 10 * 1024 * 1024
  /-- requests open at once -/
  writeConcurrency : ℕ := 1
  /-- the size at which an open transaction is split -/
  txnBufferCapMb : ℕ := 256
  retryMax : ℕ := 10
  retryBackoffMs : ℕ := 500
  retryMaxElapsedMs : Option ℕ := none
  checkpointIntervalMs : ℕ := 500
  onPermanentRejection : RejectionPolicy := .halt
  /-- rows of the initial load taken in per second -/
  loadMaxRowsPerSec : Option ℕ := none
  /-- how many documents may be quarantined -/
  maxRejects : ℕ := 100
  deriving DecidableEq

/-- `[metrics]`. -/
structure MetricsConfig : Type where
  enabled : Bool := true
  bind : String := "127.0.0.1:9100"
  tokenEnv : Option String := none
  deriving DecidableEq

/-- `[api]`. -/
structure ApiConfig : Type where
  enabled : Bool := false
  bind : String := "127.0.0.1:9101"
  tokenEnv : Option String := none
  deriving DecidableEq

/-- `[log]`. -/
structure LogConfig : Type where
  /-- a filter directive -/
  filter : Option String := none
  deriving DecidableEq

end Config

/-- A configuration file. -/
structure AppConfig : Type where
  source : Config.SourceConfig := {}
  target : Config.TargetConfig := {}
  /-- the sections -/
  sync : Dictionary String Config.TableSync := ∅
  engine : Config.EngineConfig := {}
  metrics : Config.MetricsConfig := {}
  api : Config.ApiConfig := {}
  log : Config.LogConfig := {}
  deriving DecidableEq

namespace Config.TableSync

/-! ## A section's index -/

/-- `index_name`: the index as written, a name or a template. -/
def indexName (tbl : TableSync) (key : String) : String :=
  tbl.index.getD key

/-- `is_templated`: whether the index is chosen per row. -/
def isTemplated (tbl : TableSync) : Bool :=
  tbl.index.any fun s => s.toList.contains '{'

/-- `index_target`: the target, with its grammar checked. The literals of a template
are checked in a name that has one letter for each placeholder. -/
def indexTarget (tbl : TableSync) (key : String) (pkColumns : List String) :
    Except String IndexTarget :=
  let spec := tbl.indexName key
  let unusable (e : String) :=
    "index " ++ spec.quote ++ " is not a usable index template: " ++ e
  if !tbl.isTemplated then
    match checkIndexName spec with
    | .error e => .error ("index " ++ spec.quote ++ " " ++ e)
    | .ok () => .ok (.fixed spec)
  else
    match IdTemplate.parse spec pkColumns with
    | .error e => .error (unusable e)
    | .ok template =>
      if template.literals = [] then .error ("index " ++ spec.quote ++
        " is all placeholders, so a TRUNCATE of " ++ tbl.table ++
        " could only be applied by clearing every index; give the template a fixed prefix or suffix")
      else
        match template.render (template.filled "x") with
        | .error e => .error (unusable e)
        | .ok sample =>
          match checkIndexName sample with
          | .error e => .error ("index " ++ spec.quote ++ " " ++ e)
          | .ok () => .ok (.template spec template)

end Config.TableSync

end Pg2osync
