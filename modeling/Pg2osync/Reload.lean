import Pg2osync.Validate

/-!
# What a reload may change

A running pipeline reads its file again on request. `classify` compares the file with
the configuration that is running: the settings of `Hot` are swapped, a plain section
joins or leaves, and everything else is refused in place, with a line that names the
field. The comparison is spelled out in lists of fields.
-/

namespace Pg2osync

namespace Config

/-! ## Fields -/

/-- What can differ between two files. -/
inductive Setting : Type where
  | source (field : String) : Setting
  | target (field : String) : Setting
  | metrics (field : String) : Setting
  | api (field : String) : Setting
  | engine (field : String) : Setting
  | log (field : String) : Setting
  /-- whether there is a section of this key -/
  | entry (key : String) : Setting
  /-- one field of a section that both have -/
  | field (key field : String) : Setting
  deriving DecidableEq, Repr

/-- How a value is printed for a reader. -/
class Debug (α : Type) where
  debug : α → String

open Debug (debug)

instance : Debug String := ⟨String.quote⟩
instance : Debug ℕ := ⟨toString⟩
instance : Debug ℤ := ⟨toString⟩
instance : Debug Bool := ⟨toString⟩

instance {α : Type} [Debug α] : Debug (Option α) where
  debug
    | none => "None"
    | some a => "Some(" ++ debug a ++ ")"

instance : Debug RejectionPolicy where
  debug
    | .halt => "Halt"
    | .quarantine => "Quarantine"

/-- One field of a record: its name, and whether two records agree on it. -/
structure FieldOf (σ : Type) : Type where
  name : String
  same : σ → σ → Bool

/-- A field whose values a refusal prints. -/
structure PrintedField (σ : Type) : Type extends FieldOf σ where
  /-- the value as text -/
  shown : σ → String

namespace FieldOf

variable {σ : Type}

/-- The field a projection reads. -/
def ofGet {α : Type} [DecidableEq α] (name : String) (get : σ → α) : FieldOf σ :=
  ⟨name, fun a b => get a = get b⟩

/-- The field a projection reads, with its values printed. -/
def print {α : Type} [DecidableEq α] [Debug α] (name : String) (get : σ → α) : PrintedField σ :=
  ⟨ofGet name get, fun a => debug (get a)⟩

variable {α : Type}

@[simp] theorem ofGet_same [DecidableEq α] (name : String) (get : σ → α) (a b : σ) :
    (ofGet name get).same a b = decide (get a = get b) := rfl

@[simp] theorem print_same [DecidableEq α] [Debug α] (name : String) (get : σ → α) (a b : σ) :
    (print name get).same a b = decide (get a = get b) := rfl

@[simp] theorem ofGet_name [DecidableEq α] (name : String) (get : σ → α) :
    (ofGet name get).name = name := rfl

@[simp] theorem print_name [DecidableEq α] [Debug α] (name : String) (get : σ → α) :
    (print name get).name = name := rfl

end FieldOf

open FieldOf (ofGet print)

/-! ## Hot settings -/

/-- The settings a batch reads each time round. -/
structure EngineSettings : Type where
  batchSize : ℕ
  batchMaxBytes : ℕ
  txnBufferCapMb : ℕ
  checkpointIntervalMs : ℕ
  loadMaxRowsPerSec : Option ℕ
  deriving DecidableEq

/-- `EngineConfig::settings`. -/
def EngineConfig.settings (cfg : EngineConfig) : EngineSettings :=
  ⟨cfg.batchSize, cfg.batchMaxBytes, cfg.txnBufferCapMb, cfg.checkpointIntervalMs,
    cfg.loadMaxRowsPerSec⟩

/-- What a reload is allowed to change on a running pipeline. -/
structure Hot : Type where
  settings : EngineSettings
  retryMax : ℕ
  retryBackoffMs : ℕ
  retryMaxElapsedMs : Option ℕ
  logFilter : Option String
  deriving DecidableEq

/-- `Hot::of`. -/
def Hot.of (cfg : AppConfig) : Hot where
  settings := cfg.engine.settings
  retryMax := max cfg.engine.retryMax 1
  retryBackoffMs := max cfg.engine.retryBackoffMs 1
  retryMaxElapsedMs := cfg.engine.retryMaxElapsedMs
  logFilter := cfg.log.filter

/-! ## The plan -/

/-- One section that joins or leaves. -/
inductive SectionEdit : Type where
  /-- the section is read out of the file -/
  | add (key : String) : SectionEdit
  | remove (key table index : String) : SectionEdit
  deriving DecidableEq

/-- `SectionEdit::key`. -/
def SectionEdit.key : SectionEdit → String
  | .add key => key
  | .remove key _ _ => key

/-- One line of a refusal, and what it names. -/
structure Refusal : Type where
  /-- what it names -/
  settings : List Setting
  /-- the line -/
  line : String
  deriving DecidableEq

/-- One reload's verdict. -/
structure Plan : Type where
  hot : Hot
  refusals : List Refusal
  /-- what leaves goes first -/
  sections : List SectionEdit
  deriving DecidableEq

/-- `brief`: a value short enough to keep the line readable. -/
def brief (rendered : String) : String :=
  if rendered.length ≤ 80 then rendered
  else String.ofList (rendered.toList.take 77) ++ "..."

/-- `refuse_changed`: a refusal for each field that differs. -/
def refuseChanged {σ : Type} (names : String → Setting) (table why : String)
    (fields : List (PrintedField σ)) (old new : σ) : List Refusal :=
  (fields.filter fun f => !f.same old new).map fun f =>
    ⟨[names f.name], "[" ++ table ++ "] " ++ f.name ++ " changed from " ++ brief (f.shown old) ++
      " to " ++ brief (f.shown new) ++ "; " ++ why⟩

/-- `names_changed`: which fields differ, by name. -/
def namesChanged {σ : Type} (fields : List (FieldOf σ)) (old new : σ) : List String :=
  (fields.filter fun f => !f.same old new).map FieldOf.name

/-! ## Why a field is refused -/

def whySource : String :=
  "the stream, the slot and the connection to the source are opened when the pipeline starts " ++
    "and the checkpoint is named by them, so the running value is kept — restart to change it"

def whyTarget : String :=
  "the target's client and the checkpoint it holds are built when the pipeline starts, so the " ++
    "running value is kept — restart to change it"

def whyListener : String :=
  "the listener is bound once and an environment variable is fixed when the process is " ++
    "executed, so the running value is kept — restart to change it"

def whyEngine : String :=
  "the sink task is built with it when a streaming attempt starts, so the running value is " ++
    "kept — restart to change it"

def whyPoll : String :=
  "the poll query is built when a streaming attempt starts and this decides which rows it " ++
    "picks up, so the running value is kept — restart to change it"

/-! ## The lists of fields -/

/-- The fields of `[source]` that are compared: all but its name. -/
def sourceFields : List (PrintedField SourceConfig) :=
  [print "mode" (·.mode), print "flavor" (·.flavor), print "server_id" (·.serverId),
    print "poll_column" (·.pollColumn), print "poll_interval_secs" (·.pollIntervalSecs),
    print "poll_page_size" (·.pollPageSize), print "url" (·.url), print "url_env" (·.urlEnv),
    print "sslmode" (·.sslmode), print "sslrootcert" (·.sslrootcert), print "sslcert" (·.sslcert),
    print "sslkey" (·.sslkey), print "admin_url_env" (·.adminUrlEnv),
    print "reconnect_max" (·.reconnectMax), print "reconnect_backoff_ms" (·.reconnectBackoffMs),
    print "load_chunk_rows" (·.loadChunkRows), print "load_workers" (·.loadWorkers),
    print "slot_name" (·.slotName), print "publication" (·.publication)]

/-- The fields of `[target]` that are compared. -/
def targetFields : List (PrintedField TargetConfig) :=
  [print "url" (·.url), print "flavor" (·.flavor), print "username" (·.username),
    print "password" (·.password), print "password_env" (·.passwordEnv),
    print "api_key_env" (·.apiKeyEnv), print "tls_verify" (·.tlsVerify),
    print "state_dir" (·.stateDir), print "require_alias" (·.requireAlias)]

/-- The fields of `[metrics]`. -/
def metricsFields : List (PrintedField MetricsConfig) :=
  [print "enabled" (·.enabled), print "bind" (·.bind), print "token_env" (·.tokenEnv)]

/-- The fields of `[api]`. -/
def apiFields : List (PrintedField ApiConfig) :=
  [print "enabled" (·.enabled), print "bind" (·.bind), print "token_env" (·.tokenEnv)]

/-- The fields of `[engine]` that are compared. -/
def engineFields : List (PrintedField EngineConfig) :=
  [print "write_concurrency" (·.writeConcurrency),
    print "on_permanent_rejection" (·.onPermanentRejection), print "max_rejects" (·.maxRejects)]

/-- The fields that decide what a row is filed as. -/
def identityFields : List (PrintedField TableSync) :=
  [print "table" (·.table), print "index" (·.index), print "primary_key" (·.primaryKey),
    print "append_only" (·.appendOnly), print "id" (·.id), print "routing" (·.routing)]

/-- The ones among them that are tables of their own. -/
def structuralFields : List (FieldOf TableSync) :=
  [ofGet "fan_out" (·.fanOut), ofGet "join" (·.join), ofGet "children" (·.children)]

/-- The field that decides which rows a poll picks up. -/
def pollFields : List (PrintedField TableSync) :=
  [print "poll_column" (·.pollColumn)]

/-- The fields that decide a document's shape. -/
def reshapeFields : List (FieldOf TableSync) :=
  [ofGet "columns" (·.columns), ofGet "exclude_columns" (·.excludeColumns),
    ofGet "transform" (·.transform), ofGet "fields" (·.fields), ofGet "constants" (·.constants),
    ofGet "aggregates" (·.aggregates), ofGet "where" (·.filter), ofGet "pipeline" (·.pipeline),
    ofGet "soft_delete" (·.softDelete), ofGet "mapping_file" (·.mappingFile),
    ofGet "the contents of mapping_file" (·.mapping)]

/-! ## Sections -/

/-- The refusals of `section_refusals` for a change of identity. -/
def filingRefusals (key : String) (old new : TableSync) : List Refusal :=
  let identity := "changing what a row is filed as means every document this section already " ++
    "wrote is filed the old way, so the running definition is kept. Re-index into a new name " ++
    "and move the alias onto it: pg2osync reindex --table " ++ old.table ++ " --alias <alias>"
  refuseChanged (.field key) ("sync." ++ key) identity identityFields old new ++
    (namesChanged structuralFields old new).map fun what =>
      ⟨[.field key what], "[sync." ++ key ++ "] " ++ what ++ " changed; " ++ identity⟩

/-- The refusal of `section_refusals` for a change of shape, all its fields in one. -/
def reshapeRefusals (key : String) (old new : TableSync) : List Refusal :=
  let reshaped := namesChanged reshapeFields old new
  if reshaped = [] then []
  else [⟨reshaped.map (.field key), "[sync." ++ key ++ "] " ++ ", ".intercalate reshaped ++
    " changed, so the documents this section writes would change shape: the index already " ++
    "holds documents built the old way and nothing records which, so the running definition " ++
    "is kept. Change it and restart, then read the table again: pg2osync resnapshot --table " ++
    old.table⟩]

/-- `section_refusals`: why one section cannot be changed under the running pipeline.
Where what a row is filed as changed, the shape is not looked at. -/
def sectionRefusals (key : String) (old new : TableSync) : List Refusal :=
  let out := filingRefusals key old new
  let restart := refuseChanged (.field key) ("sync." ++ key) whyPoll pollFields old new
  if out ≠ [] then out ++ restart else reshapeRefusals key old new ++ restart

/-- `joining_takes_a_restart`: why a new section cannot join the pipeline as it runs. -/
def joiningTakesARestart (key : String) (tbl : TableSync) (new : AppConfig) : Option Refusal :=
  let restart (what : String) : Option Refusal := some ⟨[.entry key], "[sync." ++ key ++
    "] is new and " ++ what ++ ", which is decided when the stream is built: it is not being " ++
    "synced. Add it and restart"⟩
  if new.source.mode = "poll" then
    restart "this source polls, so its query names the tables it reads"
  else if tbl.children ≠ [] then
    restart "declares children, whose tables the source watches for a parent"
  else if tbl.join ≠ none then restart "joins another section's index"
  else if tbl.fanOut ≠ none then restart "fans a column out into a document per element"
  else if tbl.aggregates ≠ [] then
    restart "declares aggregates, whose tables the source watches for a parent"
  else if tbl.isTemplated then restart "chooses an index per row"
  else none

/-- The sections the file no longer has. -/
def leaving (old new : AppConfig) : List (String × TableSync) :=
  old.sync.entries.filter fun e => !new.sync.contains e.1

/-- The refusal of a removal while the source polls. -/
def removalRefused (e : String × TableSync) : Refusal :=
  ⟨[.entry e.1], "[sync." ++ e.1 ++ "] was removed but this source polls, and its query names " ++
    "the tables it reads when the attempt is built: its rows are still being routed. Restart " ++
    "to drop it. The index it writes to is left as it is either way — nothing here deletes " ++
    "documents"⟩

/-- What becomes of one section of the file. -/
def arrival (old new : AppConfig) (e : String × TableSync) : List Refusal × List SectionEdit :=
  match old.sync.get? e.1 with
  | none =>
    match joiningTakesARestart e.1 e.2 new with
    | some refusal => ([refusal], [])
    | none => ([], [.add e.1])
  | some running => (sectionRefusals e.1 running e.2, [])

/-- `classify`: what a reload of `new` over the running `old` may and may not do. -/
def classify (old new : AppConfig) : Plan where
  hot := Hot.of new
  refusals :=
    refuseChanged .source "source" whySource sourceFields old.source new.source ++
    refuseChanged .target "target" whyTarget targetFields old.target new.target ++
    refuseChanged .metrics "metrics" whyListener metricsFields old.metrics new.metrics ++
    refuseChanged .api "api" whyListener apiFields old.api new.api ++
    refuseChanged .engine "engine" whyEngine engineFields old.engine new.engine ++
    (if new.source.mode = "poll" then (leaving old new).map removalRefused else []) ++
    new.sync.entries.flatMap fun e => (arrival old new e).1
  sections :=
    (if new.source.mode = "poll" then []
      else (leaving old new).map fun e => .remove e.1 e.2.table (e.2.indexName e.1)) ++
    new.sync.entries.flatMap fun e => (arrival old new e).2

/-! ## Applying a plan -/

/-- What one edit makes of the sections, in `apply_sections`. -/
def SectionEdit.edit (new : AppConfig) (sync : Dictionary String TableSync) :
    SectionEdit → Dictionary String TableSync
  | .add key => match new.sync.get? key with
    | some tbl => sync.insert key tbl
    | none => sync
  | .remove key _ _ => sync.erase key

/-- How `apply` advances the running configuration by the settings that are swapped. -/
def Hot.advance (hot : Hot) (current : AppConfig) : AppConfig :=
  { current with
    engine := { current.engine with
      batchSize := hot.settings.batchSize
      batchMaxBytes := hot.settings.batchMaxBytes
      txnBufferCapMb := hot.settings.txnBufferCapMb
      checkpointIntervalMs := hot.settings.checkpointIntervalMs
      loadMaxRowsPerSec := hot.settings.loadMaxRowsPerSec
      retryMax := hot.retryMax
      retryBackoffMs := hot.retryBackoffMs
      retryMaxElapsedMs := hot.retryMaxElapsedMs }
    log := { current.log with filter := hot.logFilter } }

/-- The running configuration once every part of a plan has taken. -/
def Plan.advance (plan : Plan) (new current : AppConfig) : AppConfig :=
  plan.hot.advance
    { current with sync := plan.sections.foldl (SectionEdit.edit new) current.sync }

end Config

end Pg2osync
