import Pg2osync.Filter
import Pg2osync.IndexOverlap

/-!
# What a file is refused for

`AppConfig::validate` goes through the file once and stops at the first mistake. The
checks of one part of a section are a definition each, in the order in which the
source makes them; the checks that span sections come last. The log filter's own
grammar belongs to the logging library, so whether a directive parses is a parameter.
-/

namespace Pg2osync

namespace Config

/-- A check that fails with a message. -/
def refuse (when_ : Bool) (message : String) : Except String Unit :=
  if when_ then .error message else .ok ()

/-- A check of a value that may be absent. -/
def checkSome {α : Type} (value : Option α) (check : α → Except String Unit) :
    Except String Unit :=
  match value with
  | some a => check a
  | none => .ok ()

/-- The error of a part, with what it is about in front. -/
def about {α : Type} (context : String) : Except String α → Except String Unit
  | .ok _ => .ok ()
  | .error e => .error (context ++ e)

/-- `is_qualified_table`: two names with a dot between them. -/
def isQualifiedTable (name : String) : Bool :=
  match name.toList.splitOn '.' with
  | [schema, table] => schema ≠ [] && table ≠ []
  | _ => false

/-- `split_qualified`. -/
def splitQualified (qualified : String) : TableName :=
  let schema := qualified.toList.takeWhile (· ≠ '.')
  match qualified.toList.dropWhile (· ≠ '.') with
  | [] => ("public", qualified)
  | _ :: table => (String.ofList schema, String.ofList table)

/-! ## Values -/

/-- A transform's operation. -/
inductive TransformOp : Type where
  | hash : TransformOp
  | redact : TransformOp
  | json : TransformOp
  | number : TransformOp
  | split (by_ : String) : TransformOp
  | date (from_ : String) : TransformOp
  | lookup (map : Dictionary String String) (default : Option String) : TransformOp
  | pseudonym (keyEnv : String) (scope : Option String) : TransformOp
  deriving DecidableEq

/-- The parameters a transform was given that its operation does not take. -/
def TransformTable.checkOnly (t : TransformTable) (op : String) (allowed : List String) :
    Except String Unit :=
  let given := [("by", t.by_.isSome), ("from", t.from_.isSome), ("map", t.map.isSome),
    ("default", t.default.isSome), ("key_env", t.keyEnv.isSome), ("scope", t.scope.isSome)]
  match given.find? fun p => p.2 && !allowed.contains p.1 with
  | some p => .error (op.quote ++ " takes no " ++ p.1.quote)
  | none => .ok ()

/-- A parameter that an operation needs, and that must not be empty. -/
def needed (op param example_ : String) : Option String → Except String String
  | none => .error (op ++ " needs " ++ param.quote ++ ": " ++ example_)
  | some value =>
    if value = "" then .error (op ++ " needs a non-empty " ++ param.quote) else .ok value

/-- `TransformSpec::parse`. -/
def TransformSpec.parse (spec : TransformSpec) : Except String TransformOp :=
  let (word, t) : String × TransformTable := match spec with
    | .op name => (name, { op := "" })
    | .table t => (t.op, t)
  match word with
  | "hash" => (t.checkOnly word []).map fun _ => .hash
  | "redact" => (t.checkOnly word []).map fun _ => .redact
  | "json" => (t.checkOnly word []).map fun _ => .json
  | "number" => (t.checkOnly word []).map fun _ => .number
  | "split" => do
    t.checkOnly word ["by"]
    (needed word "by" "\x7b op = \"split\", by = \",\" \x7d" t.by_).map .split
  | "date" => do
    t.checkOnly word ["from"]
    (needed word "from" "\x7b op = \"date\", from = \"%d/%m/%Y\" \x7d" t.from_).map .date
  | "lookup" => do
    t.checkOnly word ["map", "default"]
    match t.map with
    | none => .error ("lookup needs \"map\": " ++
        "\x7b op = \"lookup\", map = \x7b \"1\" = \"active\" \x7d \x7d")
    | some map =>
      if map.isEmpty then .error "lookup needs a non-empty \"map\""
      else .ok (.lookup map t.default)
  | "pseudonym" => do
    t.checkOnly word ["key_env", "scope"]
    refuse (t.scope = some "") "pseudonym needs a non-empty \"scope\""
    (needed word "key_env" "\x7b op = \"pseudonym\", key_env = \"PG2OSYNC_PSEUDONYM_KEY\" \x7d"
      t.keyEnv).map fun key => .pseudonym key t.scope
  | other => .error (other.quote ++ " is not a transform; expected one of \"hash\", " ++
      "\"redact\", \"json\", \"split\", \"number\", \"date\", \"lookup\", \"pseudonym\"")

/-- `Constant::render`. -/
def Constant.render (schema table : String) : Constant → Except String Json
  | .int n => .ok (.int n)
  | .float text => .ok (.float text)
  | .bool b => .ok (.bool b)
  | .str s =>
    if !s.toList.contains '{' then .ok (.str s)
    else
      (IdTemplate.parse s []).bind fun template =>
        match template.columns.find? fun c => c ≠ "schema" && c ≠ "table" with
        | some name => .error ("placeholder \x7b" ++ name ++
            "\x7d is not one of \x7bschema\x7d/\x7btable\x7d")
        | none => (template.render (.obj [("schema", .str schema), ("table", .str table)])).map .str

/-- `SslMode::parse`, where only whether it is one matters. -/
def checkSslMode (value : String) : Except String Unit :=
  let word := String.ofList ((trim value.toList).map fun c =>
    if c.toLower = '_' then '-' else c.toLower)
  refuse (! ["disable", "prefer", "require", "verify-ca", "verify-full"].contains word)
    ("[source] sslmode is not a libpq ssl mode: " ++ word)

/-- `check_source_name`. -/
def checkSourceName (name : String) : Except String Unit :=
  refuse (name = "" || !name.toList.all fun c => c.isAlphanum || c = '_' || c = '-')
    ("name " ++ name.quote ++ " must be one or more of A-Z a-z 0-9 _ -; it identifies this " ++
      "source wherever it is reported, and neither a metrics label nor a command line takes " ++
      "anything else unescaped")

/-! ## Names on the document -/

/-- The `parent` of a join that names the fanned element. -/
def elementParent : String := "\x7belement\x7d"

/-- `JoinSpec::is_element_parent`. -/
def JoinSpec.isElementParent (join : JoinSpec) : Bool :=
  join.parent = some elementParent

/-- `JoinSpec::parent_column`. -/
def JoinSpec.parentColumn (join : JoinSpec) (fanOut : Option FanOut) : Option String :=
  join.parent.bind fun column =>
    if column = elementParent then fanOut.map FanOut.field else some column

/-- `lifted_fields`. -/
def ChildJoin.liftedFields (child : ChildJoin) : List String :=
  if !child.flatten then []
  else (child.columns.getD []).map fun col => (child.fields.get? col).getD col

/-- `claimed_fields`: every name that the child writes on the parent document. -/
def ChildJoin.claimedFields (child : ChildJoin) : List String :=
  if child.flatten then child.liftedFields
  else if child.single then [child.field]
  else [child.field, child.field ++ "_truncated", child.field ++ "_total"]

/-- `claim`. -/
def ChildJoin.claim (child : ChildJoin) : String :=
  if child.flatten then "lifted onto the parent by flattened child " ++ child.table
  else "the field of child " ++ child.table

/-- Whether a name is a column that a map renames, or the name of one renamed. -/
def isRenamed (fields : Dictionary String String) (name : String) : Bool :=
  fields.contains name || fields.values.contains name

/-- `check_field_map`: no name is empty, renamed to itself or the target of two. -/
def checkFieldMap (section_ : String) : List (String × String) → List (String × String) →
    Except String Unit
  | _, [] => .ok ()
  | seen, (col, target) :: rest => do
    refuse (col = "" || target = "")
      ("[" ++ section_ ++ "] a column name and its target must not be empty")
    refuse (col = target) ("[" ++ section_ ++ "] " ++ col ++ " renames a column to itself")
    checkSome (seen.find? fun s => s.2 = target) fun other =>
      .error ("[" ++ section_ ++ "] " ++ other.1 ++ " and " ++ col ++
        " would both be stored as " ++ target.quote)
    checkFieldMap section_ (seen ++ [(col, target)]) rest

/-- The checks of a rename against a projection. -/
def checkRename (section_ : String) (columns : Option (List String)) (excluded : List String)
    (fields : Dictionary String String) (rename : String × String) : Except String Unit := do
  let (col, target) := rename
  refuse (excluded.contains col) ("[" ++ section_ ++ "] " ++ col ++
    " is renamed but also excluded; an excluded column never reaches the target")
  refuse (columns.any fun cols => !cols.contains col) ("[" ++ section_ ++ "] " ++ col ++
    " is renamed but not in columns; it would never reach the target")
  refuse ((columns.any fun cols => cols.contains target) && !fields.contains target)
    ("[" ++ section_ ++ "] " ++ col ++ " = " ++ target.quote ++ " would overwrite column " ++ target)

/-! ## One section -/

/-- `target_without_the_search_engine_model`. -/
def targetWithoutTheSearchEngineModel (target : TargetConfig) : Option String :=
  match target.flavor with
  | "meilisearch" => some "Meilisearch"
  | "postgres" => some "PostgreSQL"
  | "qdrant" => some "Qdrant"
  | _ => none

/-- How a message names a section, or a part of it. -/
def at_ (key sub : String) : String := "[sync." ++ key ++ sub ++ "] "

/-- A predicate's grammar. -/
def checkFilter (context spec : String) : Except String Unit :=
  match Filter.parse spec with
  | .ok _ => .ok ()
  | .error e => .error (context ++ "where " ++ spec.quote ++ ": " ++ e ++ "\n" ++ Filter.supported)

/-- The checks of a section's join. -/
def checkJoin (target : TargetConfig) (key : String) (tbl : TableSync) (join : JoinSpec) :
    Except String Unit := do
  refuse (join.field = "") (at_ key ".join" ++ "field must not be empty")
  refuse (join.name = "") (at_ key ".join" ++ "name must not be empty")
  refuse (join.parent = some "") (at_ key ".join" ++ "parent must not be empty")
  refuse (join.isElementParent && tbl.fanOut.isNone) (at_ key ".join" ++ "parent " ++
    elementParent.quote ++ " names the element of a fanned row, but this section has no fan_out")
  refuse (tbl.fanOut.isSome && !join.isElementParent) (at_ key "" ++
    "fan_out and join cannot be combined: every element of a fanned row would need its own " ++
    "routing, and they would all be filed under one parent. Set parent = " ++
    elementParent.quote ++ " to file each element under itself")
  refuse (join.parent.isSome && tbl.mappingFile.isSome) (at_ key "" ++
    "a join child must not set mapping_file: the parent's mapping creates index " ++
    tbl.indexName key ++ ", and it is the one that declares the join field")
  checkSome (targetWithoutTheSearchEngineModel target) fun name => .error (at_ key "" ++
    "join is an OpenSearch and Elasticsearch data model, which " ++ name ++
    " has no equivalent for; remove join for this target")
  refuse (tbl.columns.any fun cols => cols.contains join.field) (at_ key "" ++
    "columns lists " ++ join.field ++ ", which is the join field, not a column")
  checkSome (tbl.children.find? fun child => child.claimedFields.contains join.field)
    fun child => .error (at_ key "" ++ join.field ++ " is the join field and also " ++ child.claim)

/-- The checks of a section's pipeline. -/
def checkPipeline (target : TargetConfig) (key pipeline : String) : Except String Unit := do
  refuse (pipeline = "") (at_ key "" ++ "pipeline must not be empty")
  checkSome (targetWithoutTheSearchEngineModel target) fun name => .error (at_ key "" ++
    "pipeline is an OpenSearch and Elasticsearch feature, which " ++ name ++
    " has no equivalent for; remove pipeline for this target")

/-- The checks of a section's routing. -/
def checkRouting (target : TargetConfig) (key : String) (tbl : TableSync) (routing : String) :
    Except String Unit := do
  refuse (routing = "") (at_ key "" ++ "routing must not be empty")
  refuse tbl.join.isSome (at_ key "" ++ "routing and join cannot be combined: a join child " ++
    "is already routed to its parent, and a second rule would move it off the shard its " ++
    "parent is on")
  checkSome (targetWithoutTheSearchEngineModel target) fun name => .error (at_ key "" ++
    "routing is an OpenSearch and Elasticsearch feature, which " ++ name ++
    " has no equivalent for; remove routing for this target")

/-- The checks of an append-only section: everything they refuse addresses a row, an
element or a parent by a key. -/
def checkAppendOnly (key : String) (tbl : TableSync) : Except String Unit := do
  refuse tbl.primaryKey.isSome (at_ key "" ++ "append_only and primary_key contradict each other")
  refuse tbl.fanOut.isSome (at_ key "" ++ "fan_out needs a key: the documents a row fans out " ++
    "into are found again by the row's key, which an append-only table does not have")
  refuse tbl.join.isSome (at_ key "" ++ "join needs a key: a parent is routed to by its key " ++
    "and a child names its parent by it, which an append-only table does not have")
  refuse (!tbl.children.isEmpty) (at_ key "" ++ "[[children]] needs a key: a child row names " ++
    "the parent document to re-read by its key, which an append-only table does not have")
  refuse (!tbl.aggregates.isEmpty) (at_ key "" ++ "[[aggregates]] needs a key: a changed row of " ++
    "the aggregated table names the parent document to count again by its key, which an " ++
    "append-only table does not have")
  refuse tbl.softDelete.isSome (at_ key "" ++ "soft_delete needs a key to delete by, which an " ++
    "append-only table does not have")

/-- The checks of a section's fan-out. -/
def checkFanOut (source : SourceConfig) (target : IndexTarget) (key : String) (tbl : TableSync)
    (fan : FanOut) : Except String Unit := do
  refuse (source.mode = "poll") (at_ key "" ++ "fan_out needs the replication log: a poll cycle " ++
    "cannot see which elements left an array")
  refuse (!tbl.children.isEmpty) (at_ key "" ++ "fan_out and [[children]] both decide what a " ++
    "row's array becomes; configuring them together has no coherent meaning")
  refuse (!tbl.aggregates.isEmpty) (at_ key "" ++ "fan_out and [[aggregates]] cannot be " ++
    "combined: a changed row of the aggregated table names one parent document to count again, " ++
    "and a fanned row is not one document")
  refuse (fan.field = "") (at_ key ".fan_out" ++ "field must not be empty")
  refuse (fan.by_ = some "") (at_ key ".fan_out" ++ "by must not be empty")
  match target with
  | .template spec template => refuse (template.columns.contains fan.field) (at_ key "" ++
      "index " ++ spec.quote ++ " names the fan_out field " ++ fan.field ++ "; every document a " ++
      "row produces goes to one index, so the index is chosen from the row and not from an element")
  | .fixed _ => .ok ()
  refuse ((tbl.columns.any fun cols => cols.contains fan.field) ||
      tbl.excludeColumns.contains fan.field) (at_ key ".fan_out" ++ "field " ++ fan.field.quote ++
    " also appears in columns/exclude_columns; projection would cut the array before identity " ++
    "and fan-out see it")
  about (at_ key ".fan_out" ++ "id " ++ fan.id.quote ++ " is not a usable id: ")
    (IdTemplate.parse fan.id [])

/-- The checks of one transform. -/
def checkTransform (key : String) (tbl : TableSync) (entry : String × TransformSpec) :
    Except String Unit := do
  about (at_ key ".transform" ++ entry.1 ++ ": ") entry.2.parse
  refuse (tbl.fanOut.any fun fan => fan.field = entry.1) (at_ key ".transform" ++ entry.1 ++
    " is the fan_out field; fan-out reads the raw row, so a transform there never reaches it")

/-- The checks of an embedded child. -/
def checkChild (key : String) (tbl : TableSync) (child : ChildJoin) : Except String Unit := do
  checkEach (fun name => refuse (isRenamed tbl.fields name) (at_ key ".fields" ++ name.quote ++
    " is " ++ child.claim ++ "; rename the child's columns in its own fields instead"))
    child.claimedFields
  let childKey := "sync." ++ key ++ ".children(" ++ child.table ++ ")"
  checkFieldMap (childKey ++ ".fields") [] child.fields.entries
  refuse (child.columns.isSome && !child.excludeColumns.isEmpty) ("[" ++ childKey ++
    "] columns and exclude_columns are mutually exclusive")
  refuse (child.columns = some []) ("[" ++ childKey ++ "] columns must not be empty")
  match child.through, child.throughKey with
  | some through, some _ => do
    refuse (!isQualifiedTable through) ("[" ++ childKey ++ "] through table " ++ through.quote ++
      " must be schema-qualified")
    refuse (through = child.table || through = tbl.table) ("[" ++ childKey ++ "] through " ++
      through.quote ++ " is the same table as the " ++
      (if through = child.table then "child" else "parent") ++
      " it would join; a junction is a table of its own")
  | some _, none => .error ("[" ++ childKey ++ "] through needs through_key: the junction " ++
      "column referencing the child's primary key")
  | none, some _ => .error ("[" ++ childKey ++ "] through_key needs through: without a " ++
      "junction there is nothing for it to name")
  | none, none => .ok ()
  refuse (child.single && child.maxRows.isSome) ("[" ++ childKey ++ "] single and max_rows " ++
    "contradict each other: a relation declared one-to-one has nothing to cap")
  refuse (child.flatten && !child.single) ("[" ++ childKey ++ "] flatten needs single = true: " ++
    "an array of children has no one row to lift onto the parent. Add single = true, or drop " ++
    "flatten and query the array")
  refuse (child.flatten && child.columns.isNone) ("[" ++ childKey ++ "] flatten needs columns: " ++
    "what it lifts lands next to the parent's own fields, and a collision can only be refused " ++
    "where the lifted names are known. List the columns to lift")
  checkEach (fun name => refuse ((tbl.columns.any fun cols => cols.contains name) &&
      !tbl.fields.contains name) ("[" ++ childKey ++ "] flatten lifts " ++ name ++
    ", which is also a column of " ++ tbl.table ++ "; rename it in the child's fields"))
    child.liftedFields
  checkEach (checkRename (childKey ++ ".fields") child.columns child.excludeColumns child.fields)
    child.fields.entries

/-- Every name that a child writes, with the child's table. -/
def checkWritten (key : String) : List (String × String) → List (String × String) →
    Except String Unit
  | _, [] => .ok ()
  | seen, (name, table) :: rest => do
    checkSome (seen.find? fun s => s.1 = name) fun first => .error (at_ key "" ++ name.quote ++
      " is written by child " ++ first.2 ++ " and by child " ++ table ++
      "; one field holds one value")
    checkWritten key (seen ++ [(name, table)]) rest

/-- The checks of an aggregate. -/
def checkAggregate (key : String) (tbl : TableSync) (agg : AggregateJoin) : Except String Unit := do
  refuse (!isQualifiedTable agg.table) (at_ key "" ++ "aggregate table " ++ agg.table.quote ++
    " must be schema-qualified")
  let aggKey := at_ key (".aggregates(" ++ agg.table ++ ")")
  refuse (agg.field = "") (aggKey ++ "field must not be empty")
  refuse (agg.foreignKey = "") (aggKey ++ "foreign_key must not be empty")
  refuse (agg.op ≠ "count") (aggKey ++ "op " ++ agg.op.quote ++
    " is not an operation; supported: count")
  checkSome agg.filter (checkFilter aggKey)
  refuse (isRenamed tbl.fields agg.field) (aggKey ++ "field " ++ agg.field.quote ++
    " is also named in fields; the aggregate is written last and would bury the renamed column")
  refuse (tbl.constants.contains agg.field) (aggKey ++ "field " ++ agg.field.quote ++
    " is also a constant")
  checkSome (tbl.children.find? fun child => child.claimedFields.contains agg.field)
    fun child => .error (aggKey ++ "field " ++ agg.field.quote ++ " is " ++ child.claim)
  refuse (1 < tbl.aggregates.countP fun other => other.field = agg.field) (aggKey ++ "field " ++
    agg.field.quote ++ " is claimed by two aggregates; one field holds one number")
  refuse (tbl.join.any fun join => join.field = agg.field) (aggKey ++ "field " ++
    agg.field.quote ++ " is the join field")

/-- The checks of a constant. -/
def checkConstant (key : String) (tbl : TableSync) (entry : String × Constant) :
    Except String Unit := do
  let (schema, table) := splitQualified tbl.table
  let name := entry.1
  refuse (name = "") (at_ key ".constants" ++ "a constant name must not be empty")
  about (at_ key ".constants" ++ name ++ ": ") (entry.2.render schema table)
  refuse (tbl.fields.values.contains name) (at_ key ".constants" ++ name ++
    " is also the target of a rename; the constant would bury the renamed column")
  refuse ((tbl.columns.any fun cols => cols.contains name) && !tbl.fields.contains name)
    (at_ key ".constants" ++ name ++ " would overwrite column " ++ name)
  checkSome (tbl.children.find? fun child => child.claimedFields.contains name)
    fun child => .error (at_ key ".constants" ++ name ++ " is " ++ child.claim)
  refuse (tbl.fanOut.any fun fan => fan.field = name) (at_ key ".constants" ++ name ++
    " is the fan_out field; a scalar element lands under that name and the constant would bury it")
  refuse (tbl.join.any fun join => join.field = name) (at_ key ".constants" ++ name ++
    " is the join field")

/-- The checks of one section. -/
def checkSection (cfg : AppConfig) (entry : String × TableSync) : Except String Unit := do
  let (key, tbl) := entry
  refuse (!isQualifiedTable tbl.table) (at_ key "" ++ "table " ++ tbl.table.quote ++
    " must be schema-qualified (e.g. \"public.users\")")
  match tbl.indexTarget key [] with
  | .error e => .error (at_ key "" ++ e)
  | .ok target => do
    match target with
    | .template spec _ => refuse cfg.target.requireAlias (at_ key "" ++ "index " ++ spec.quote ++
        " is rendered per row and the index it names is created on demand, which never has an " ++
        "alias; require_alias and a templated index cannot be combined")
    | .fixed _ => .ok ()
    checkSome tbl.join (checkJoin cfg.target key tbl)
    checkSome tbl.pipeline (checkPipeline cfg.target key)
    checkSome tbl.routing (checkRouting cfg.target key tbl)
    refuse (tbl.columns.isSome && !tbl.excludeColumns.isEmpty) (at_ key "" ++
      "columns and exclude_columns are mutually exclusive")
    if tbl.appendOnly then checkAppendOnly key tbl else .ok ()
    refuse (tbl.columns = some []) (at_ key "" ++ "columns must not be empty")
    checkSome tbl.id fun spec => about (at_ key "" ++ "id " ++ spec.quote ++
      " is not a usable id: ") (IdTemplate.parse spec [])
    checkSome tbl.fanOut (checkFanOut cfg.source target key tbl)
    checkSome tbl.filter (checkFilter (at_ key ""))
    checkEach (checkTransform key tbl) tbl.transform.entries
    checkFieldMap ("sync." ++ key ++ ".fields") [] tbl.fields.entries
    checkEach (checkRename ("sync." ++ key ++ ".fields") tbl.columns tbl.excludeColumns tbl.fields)
      tbl.fields.entries
    checkSome tbl.join fun join => refuse (isRenamed tbl.fields join.field) (at_ key ".fields" ++
      join.field.quote ++ " is the join field; the join field is written last and would bury " ++
      "the renamed column")
    checkEach (checkChild key tbl) tbl.children
    checkWritten key [] (tbl.children.flatMap fun child =>
      child.claimedFields.map fun name => (name, child.table))
    checkEach (checkAggregate key tbl) tbl.aggregates
    checkEach (checkConstant key tbl) tbl.constants.entries
    checkSome tbl.primaryKey fun pk => refuse (tbl.excludeColumns.contains pk) (at_ key "" ++
      "primary_key " ++ pk.quote ++ " cannot be in exclude_columns")
    checkEach (fun child => refuse (!isQualifiedTable child.table) (at_ key "" ++
      "child table " ++ child.table.quote ++ " must be schema-qualified")) tbl.children

/-! ## The whole file -/

/-- `check_junctions`: one junction table belongs to one relation. The junctions seen so
far come with the parent they name, its column and the section. -/
def checkJunctions : List (String × String × String × String) →
    List (String × TableSync × ChildJoin) → Except String Unit
  | _, [] => .ok ()
  | seen, (key, tbl, child) :: rest =>
    match child.through with
    | none => checkJunctions seen rest
    | some through =>
      match seen.find? fun s => s.1 = through with
      | some (_, table, foreignKey, first) =>
        if (table, foreignKey) = (tbl.table, child.foreignKey) then checkJunctions seen rest
        else .error (at_ key "" ++ "junction " ++ through ++ " is already used by [sync." ++
          first ++ "]                          for " ++ table ++ " through " ++ foreignKey ++
          "; one junction table names one                          parent, or a streamed " ++
          "junction row cannot say which")
      | none => checkJunctions (seen ++ [(through, tbl.table, child.foreignKey, key)]) rest

/-- The children of every section, in order. -/
def allChildren (sync : Dictionary String TableSync) : List (String × TableSync × ChildJoin) :=
  sync.entries.flatMap fun (key, tbl) => tbl.children.map fun child => (key, tbl, child)

/-- The sections of a file with their labels. -/
def labelled (sync : Dictionary String TableSync) : List Labelled :=
  sync.entries.map fun (key, tbl) => (.ofSection key, tbl)

/-- Neither a table nor a collection is made without being told its shape, so every index
needs a section that describes it. -/
def checkDescribed (cfg : AppConfig) : Except String Unit :=
  let described := (cfg.sync.entries.filter fun e => e.2.mappingFile.isSome).map fun e =>
    e.2.indexName e.1
  if cfg.target.flavor = "postgres" || cfg.target.flavor = "qdrant" then
    checkSome (cfg.sync.entries.find? fun e => !described.contains (e.2.indexName e.1)) fun e =>
      if cfg.target.flavor = "qdrant" then .error (at_ e.1 "" ++
        "needs mapping_file: a Qdrant target writes collection " ++ e.2.indexName e.1 ++
        " and cannot create one without being told the vectors it holds, so the section has " ++
        "to name the .json file that creates it")
      else .error (at_ e.1 "" ++ "needs mapping_file: a PostgreSQL target writes table " ++
        e.2.indexName e.1 ++ " and creates nothing on its own, so the section has to name the " ++
        ".sql file that creates it")
  else .ok ()

/-- The checks of `[target]`. -/
def checkTarget (cfg : AppConfig) : Except String Unit := do
  let target := cfg.target
  refuse (! ["opensearch", "elasticsearch", "meilisearch", "postgres", "qdrant"].contains
      target.flavor) ("[target] flavor " ++ target.flavor.quote ++ " is not one of [\"opensearch" ++
    "\", \"elasticsearch\", \"meilisearch\", \"postgres\", \"qdrant\"]")
  refuse (target.url = "" && target.urlEnv.isNone)
    "either [target] url or [target] url_env is required"
  checkDescribed cfg
  refuse (target.requireAlias && target.flavor = "meilisearch")
    ("[target] require_alias is an OpenSearch and Elasticsearch flag; Meilisearch has no alias " ++
      "namespace — the name a section writes to is an index uid — so there is nothing for it " ++
      "to require")
  refuse (target.requireAlias && target.flavor = "postgres")
    ("[target] require_alias is an OpenSearch and Elasticsearch flag; PostgreSQL has no alias " ++
      "namespace — the name a section writes to is a table — so there is nothing for it to require")
  refuse (target.requireAlias && target.flavor = "qdrant")
    ("[target] require_alias refuses every write to a name that is not an alias, and an alias " ++
      "is what a rebuild leaves behind — which this target has no reindex to produce, so the " ++
      "flag could only ever refuse every write")

/-- The checks of `[source]`, `[engine]` and `[log]` that follow. -/
def checkProcess (logFilter : String → Except String Unit) (cfg : AppConfig) :
    Except String Unit := do
  refuse (! ["wal", "poll"].contains cfg.source.mode) ("[source] mode " ++ cfg.source.mode.quote ++
    " is not one of [\"wal\", \"poll\"]")
  refuse (cfg.engine.retryMaxElapsedMs = some 0) ("[engine] retry_max_elapsed_ms = 0 leaves no " ++
    "time to retry in; remove it to retry by attempt count alone")
  checkSome cfg.source.sslmode checkSslMode
  refuse (cfg.source.sslcert.isSome && cfg.source.sslkey.isNone)
    "[source] sslcert needs sslkey; set both or neither"
  refuse (cfg.source.sslcert.isNone && cfg.source.sslkey.isSome)
    "[source] sslkey needs sslcert; set both or neither"
  checkSome cfg.log.filter fun filter =>
    about ("[log] filter " ++ filter.quote ++ " is not a filter: ") (logFilter filter)
  refuse (cfg.engine.loadMaxRowsPerSec = some 0) ("[engine] load_max_rows_per_sec = 0 would " ++
    "stop the load rather than slow it; leave the option unset, which means unlimited")
  refuse (cfg.source.flavor = "mysql" && cfg.source.mode = "poll")
    "[source] mode = \"poll\" is PostgreSQL-only; MySQL always reads the binlog"
  refuse cfg.sync.isEmpty "no [sync.*] sections: nothing to synchronize"

/-- `AppConfig::validate`. -/
def validate (logFilter : String → Except String Unit) (cfg : AppConfig) : Except String Unit := do
  checkSome cfg.source.name fun name => about "[source] " (checkSourceName name)
  refuse (! ["postgres", "postgresql", "mysql"].contains cfg.source.flavor) ("[source] flavor " ++
    cfg.source.flavor.quote ++ " is not one of [\"postgres\", \"postgresql\", \"mysql\"]")
  checkTarget cfg
  checkProcess logFilter cfg
  checkEach (checkSection cfg) cfg.sync.entries
  checkJunctions [] (allChildren cfg.sync)
  checkIndexOverlap (labelled cfg.sync)
  checkEach (fun e => refuse (e.2.softDelete.isSome && cfg.source.mode ≠ "poll") (at_ e.1 "" ++
    "soft_delete only applies in poll mode; WAL mode already propagates deletes"))
    cfg.sync.entries

end Config

end Pg2osync
