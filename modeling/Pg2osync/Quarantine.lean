import Mathlib.Data.List.Sort
import Pg2osync.Concurrency
import Pg2osync.Postgres
import Pg2osync.Transition

/-!
# The quarantine and its replay

A document the target refuses is filed with the operation that wrote it, keyed by
the document, so that a newer refusal takes the place of an older one. `rejects
--replay` lists what is filed, newest first and up to a limit, offers each
operation again through the ordinary `write`, and clears what is no longer
refused.

The four targets that can quarantine decide differently about an operation they
do not refuse. OpenSearch and Elasticsearch go by version and remember a removal
for a while; PostgreSQL goes by the version of the row, and a deleted row has
none; Qdrant takes everything.
-/

namespace Pg2osync

/-- A target that can quarantine. -/
inductive TargetKind : Type where
  /-- documents with an external version -/
  | openSearch : TargetKind
  /-- the same -/
  | elasticsearch : TargetKind
  /-- rows with a version column -/
  | postgres : TargetKind
  /-- points, with no version to compare -/
  | qdrant : TargetKind
  deriving DecidableEq, Repr

/-- What a target holds of a document: the version it was last written or removed
at, where there is one, and the document unless it is only a removal that is
remembered. -/
abbrev Held := Option (Option ℕ × Option Json)

/-- The document, as a reader finds it. -/
def Held.content (held : Held) : Option Json :=
  held.bind Prod.snd

/-- A target, with the parts of it that the sinks rely on and do not decide. -/
structure QuarantineTarget : Type where
  /-- which target it is -/
  kind : TargetKind
  /-- the document as it is stored for an upsert: after the ingest pipeline, or as
  the table's columns -/
  stores : DocumentOp → Json
  /-- `char::is_alphanumeric` -/
  alphanumeric : Char → Bool

namespace QuarantineTarget

/-- The document an operation is about. Rows and points are not spread over
shards, so a routing says nothing there. -/
def key (target : QuarantineTarget) (op : DocumentOp) : Option DocKey :=
  match target.kind with
  | .openSearch | .elasticsearch => op.key
  | .postgres | .qdrant => op.key.map fun key => { key with routing := none }

/-- The document an operation leaves when it is taken. -/
def leaves (target : QuarantineTarget) (op : DocumentOp) : Option Json :=
  if op.isUpsert then some (target.stores op) else none

/-- Whether the target holds something newer than an operation and so leaves it
undone. It is not a refusal: the write is reported as written. -/
def declines (target : QuarantineTarget) (op : DocumentOp) (held : Held) : Bool :=
  match target.kind with
  | .openSearch | .elasticsearch =>
    match externalVersion op.version, held with
    | some v, some (some u, _) => v < u
    | _, _ => false
  | .postgres => held.any fun row => !notNewer row.1 (op.version.bind i64TryFrom)
  | .qdrant => false

/-- What an operation leaves of a document when it is neither refused nor
declined. -/
def settle (target : QuarantineTarget) (op : DocumentOp) (held : Held) : Held :=
  match target.kind with
  | .openSearch | .elasticsearch =>
    match externalVersion op.version with
    | some v => some (some v, target.leaves op)
    | none => some (some (((held.bind Prod.fst).map (· + 1)).getD 1), target.leaves op)
  | .postgres =>
    (target.leaves op).map fun row => (op.version.bind i64TryFrom, some row)
  | .qdrant => (target.leaves op).map fun point => (op.version, some point)

/-- What an operation that is not refused does to a document. -/
def take (target : QuarantineTarget) (op : DocumentOp) (held : Held) : Held :=
  if target.declines op held then held else target.settle op held

/-- Time passes: a removal is remembered for a while only. -/
def forget (target : QuarantineTarget) (held : Held) : Held :=
  match target.kind, held with
  | .openSearch, some (_, none) => none
  | .elasticsearch, some (_, none) => none
  | _, _ => held

end QuarantineTarget

/-- `reject_doc_id`: where one refused document is filed. Keyed by document rather
than by attempt. -/
def rejectDocId (alphanumeric : Char → Bool) (index docId : String) : String :=
  String.ofList ((index ++ "-" ++ docId).toList.map fun c =>
    if alphanumeric c || c = '-' || c = '_' then c else '_')

/-- A rejection in the store. -/
structure Filed : Type where
  /-- as it is read back -/
  stored : StoredReject
  /-- ghost: which operation of the source it is -/
  place : ℕ
  deriving DecidableEq, Repr

/-- The target and its quarantine. -/
structure QuarantineState : Type where
  /-- what it holds of each document -/
  held : DocKey → Held
  /-- the rejections filed -/
  store : List Filed
  /-- ghost: the operations the target took or declined -/
  written : List ℕ

/-- What became of one replayed rejection. -/
inductive ReplayAnswer : Type where
  /-- the write succeeded with nothing refused; clearing the record succeeded or
  failed -/
  | accepted (cleared : Bool) : ReplayAnswer
  /-- still refused -/
  | refused (why : String) : ReplayAnswer
  /-- the write failed, after reaching the target or before -/
  | failed (reached : Bool) : ReplayAnswer

/-- What happens next. -/
inductive QuarantineAction : Type where
  /-- an operation of the source is written; it may be refused, at an epoch second -/
  | write (place : ℕ) (refused : Option String) (atEpoch : ℕ) : QuarantineAction
  /-- the target forgets a removal -/
  | forget (key : DocKey) : QuarantineAction
  /-- `rejects --replay` -/
  | replay (limit : ℕ) (answer : StoredReject → ReplayAnswer) : QuarantineAction

namespace QuarantineState

/-- An operation that is not refused reaches the target. -/
def reach (target : QuarantineTarget) (op : DocumentOp) (place : ℕ) (s : QuarantineState) :
    QuarantineState :=
  match target.key op with
  | some key => { s with
      held := Function.update s.held key (target.take op (s.held key))
      written := place :: s.written }
  | none => s

/-- `quarantine`, for one rejection: it replaces the one filed under its id. -/
def quarantine (filed : Filed) (s : QuarantineState) : QuarantineState :=
  { s with store := filed :: s.store.filter fun other => other.stored.id ≠ filed.stored.id }

/-- `clear_reject`. -/
def clearReject (id : String) (s : QuarantineState) : QuarantineState :=
  { s with store := s.store.filter fun other => other.stored.id ≠ id }

/-- `list_rejects`: newest first, up to a limit. -/
def listRejects (limit : ℕ) (s : QuarantineState) : List Filed :=
  (s.store.insertionSort fun a b => b.stored.atEpoch ≤ a.stored.atEpoch).take limit

/-- The loop of `rejects_cmd` over what was listed. A failure ends the command. -/
def rejectsLoop (target : QuarantineTarget) (answer : StoredReject → ReplayAnswer) :
    List Filed → QuarantineState → QuarantineState
  | [], s => s
  | filed :: rest, s =>
    let reached := s.reach target filed.stored.rejection.op filed.place
    match answer filed.stored with
    | .accepted true => rejectsLoop target answer rest (reached.clearReject filed.stored.id)
    | .accepted false => reached
    | .refused _ => rejectsLoop target answer rest s
    | .failed true => reached
    | .failed false => s

/-- `rejects_cmd` with `--replay`. -/
def rejectsCmd (target : QuarantineTarget) (limit : ℕ) (answer : StoredReject → ReplayAnswer)
    (s : QuarantineState) : QuarantineState :=
  rejectsLoop target answer (s.listRejects limit) s

end QuarantineState

namespace QuarantineTarget

/-- An operation of the source as the rejection filed when it is refused. -/
def filed (target : QuarantineTarget) (op : LsnOp) (place : ℕ) (reason : String)
    (atEpoch : ℕ) : Filed :=
  ⟨⟨rejectDocId target.alphanumeric op.op.index op.op.id,
    ⟨op.op.index, op.op.id, reason, op.lsn, op.op⟩, atEpoch⟩, place⟩

/-- One step of the stream, of the target or of the operator. `source` lists what
the stream has to write, in order; delivery is at least once. -/
def step (target : QuarantineTarget) (source : ℕ → LsnOp) (s : QuarantineState) :
    QuarantineAction → Option QuarantineState
  | .write place none _ => some (s.reach target (source place).op place)
  | .write place (some reason) atEpoch =>
    some (s.quarantine (target.filed (source place) place reason atEpoch))
  | .forget key =>
    some { s with held := Function.update s.held key (target.forget (s.held key)) }
  | .replay limit answer => some (s.rejectsCmd target limit answer)

/-- The target with its quarantine, as a transition system. -/
def system (target : QuarantineTarget) (source : ℕ → LsnOp) :
    Transition.System QuarantineState QuarantineAction where
  initial s := s = ⟨fun _ => none, [], []⟩
  step := target.step source

/-! ## The targets of the other modules

`declines` and `settle` are what the request of each sink comes to: the slot of
`Concurrency` for the two that take external versions, and the row of
`PostgresSink` for PostgreSQL. -/

/-- A slot as it is held. -/
def ofSlot (s : Slot) : Held :=
  s.map fun held => (some held.1, held.2)

/-- A row as it is held. -/
def ofRow (row : Option PgRow) : Held :=
  row.map fun row => (row.version, some row.columns)

theorem take_ofSlot {target : QuarantineTarget}
    (hkind : target.kind = .openSearch ∨ target.kind = .elasticsearch) (op : DocumentOp)
    (s : Slot) : target.take op (ofSlot s) = ofSlot (writeSlot op.rank (target.leaves op) s) := by
  unfold take declines settle writeSlot DocumentOp.rank ofSlot
  rcases hkind with hkind | hkind <;>
    rcases externalVersion op.version with _ | v <;> rcases s with _ | ⟨u, c⟩ <;>
      grind [Register.writeMarked, Register.Write.version_of, Register.Write.content_of]

/-- What `PostgresSink::apply` does to the row of a document it does not refuse. -/
theorem take_ofRow {target : QuarantineTarget} (hkind : target.kind = .postgres)
    {server : PgServer} {shape : TableShape} {op : DocumentOp} {db db' : PgDatabase}
    (hstores : ∀ row, server.accepted shape op.index op = some row → target.stores op = row)
    (h : PostgresSink.apply server shape op db = .ok (none, db')) :
    ofRow (db' op.index op.id) = target.take op (ofRow (db op.index op.id)) := by
  unfold take declines settle
  simp only [hkind]
  cases op with
  | upsert index id routing doc version pipeline =>
    rcases PostgresSink.apply_upsert server shape index id routing doc version pipeline db with
      ⟨why, -, happly⟩ | ⟨row, hrow, hversion, happly⟩
    · rw [happly] at h
      cases h
    · rw [happly] at h
      injection h with h
      obtain ⟨-, rfl⟩ := Prod.mk.inj h
      have hcolumns := hstores row.columns (by simp [PgServer.accepted, DocumentOp.index, hrow])
      rcases hdb : db index id with _ | stored
      · simp [ofRow, DocumentOp.index, DocumentOp.id, hdb, leaves, DocumentOp.isUpsert, hcolumns,
          hversion, DocumentOp.version]
      · cases hnew : notNewer stored.version (version.bind i64TryFrom) <;>
          simp [ofRow, DocumentOp.index, DocumentOp.id, hdb, leaves, DocumentOp.isUpsert,
            hcolumns, hversion, DocumentOp.version, hnew]
  | delete index id routing version =>
    injection h with h
    obtain ⟨-, rfl⟩ := Prod.mk.inj h
    rcases hdb : db index id with _ | stored
    · simp [ofRow, DocumentOp.index, DocumentOp.id, hdb, leaves, DocumentOp.isUpsert,
        deleteSql]
    · cases hnew : notNewer stored.version (version.bind i64TryFrom) <;>
        simp [ofRow, DocumentOp.index, DocumentOp.id, hdb, leaves, DocumentOp.isUpsert,
          DocumentOp.version, deleteSql, hnew]
  | deleteChildren => cases h

end QuarantineTarget

end Pg2osync
