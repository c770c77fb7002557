import Pg2osync.EngineRows
import Pg2osync.Filtered
import Pg2osync.LoadBarrier

/-!
# The initial load beside the poll

Where the source has no replication log, its tables are polled: a cycle asks for the rows
past the watermark it left last time, and sends each as it is now. The initial load runs
beside it, range by range. Its rows carry the position read before their range; the poll's
carry none, so the target takes them in the order they come.

A row has two renderings, the load's and the poll's, and an update may come between them.
The server's part is what the tables hold, the order of the poll column, and the order of
its text.
-/

namespace Pg2osync

/-! ## The poll -/

/-- `split_qualified`. -/
def splitQualified (qualified : String) : TableName :=
  match qualified.toList.span (· ≠ '.') with
  | (_, []) => ("public", qualified)
  | (schema, _ :: table) => (String.ofList schema, String.ofList table)

/-- One polled table. -/
structure PollTable : Type where
  /-- its name, with its schema -/
  qualified : String
  /-- the columns of its key -/
  pkColumns : List String

/-- One row as the page query returns it. -/
structure PolledRow : Type where
  /-- the row -/
  doc : Json
  /-- its own watermark, as text -/
  watermark : Option String
  /-- whether the server finds it deleted -/
  deleted : Option Bool

/-- What a page turns into. -/
structure Cycle : Type where
  /-- the changes to send -/
  changes : List RowChange
  /-- the watermark, where it moved -/
  watermark : Option String

namespace PollTable

/-- `extract_pk`. -/
def extractPk (doc : Json) : List String → Json
  | [] => .null
  | [one] => (doc.get one).getD .null
  | many => .obj (many.foldl (fun fields c => Json.insertField c ((doc.get c).getD .null) fields) [])

variable (t : PollTable)

/-- The change of one row. -/
def change (row : PolledRow) : RowChange where
  table := splitQualified t.qualified
  kind :=
    let pk := extractPk row.doc t.pkColumns
    if row.deleted.getD false then .delete pk (some row.doc) else .insert pk row.doc
  version := none

/-- The highest watermark seen. -/
def maxSeen (last : Option String) (page : List PolledRow) : Option String :=
  page.foldl (fun seen row =>
    match row.watermark with
    | some w => if seen.all fun m => Json.keyBefore m w then some w else seen
    | none => seen) last

/-- `plan_cycle`. -/
def planCycle (last : Option String) (page : List PolledRow) : Cycle where
  changes := page.map t.change
  watermark := (maxSeen last page).filter fun m => some m ≠ last

end PollTable

/-! ## The document of a row -/

namespace Engine

variable (engine : Engine)

/-- Where a row that is one document is filed, and its document. -/
def documentOf (table : TableName) (pk doc : Json) : Option (DocKey × Json) :=
  (engine.mapping.targetFor table).bind fun target => Except.toOption do
    let base ← derivedId table pk (some doc) none engine.rules
    let index ← renderedIndex target table pk (some doc) none
    let placed ← placeOne engine.rules table doc base doc
    return (⟨index, placed.id, placed.routing⟩, (shapeDoc engine.rules table [] placed).1)

/-- Whether the table's filter keeps a row. -/
def keeps (table : TableName) (doc : Json) : Bool :=
  (engine.rules.filters table).all fun filter => filter doc

/-- Where the document of a row that is sent is filed. -/
def filedUnder (change : RowChange) : Option DocKey :=
  match change.kind with
  | .insert pk doc => (engine.documentOf change.table pk doc).map Prod.fst
  | .delete pk (some doc) => (engine.documentOf change.table pk doc).map Prod.fst
  | _ => none

end Engine

namespace VersionedTarget

/-- What is under a key after something was put out; a source that is polled truncates
nothing. -/
def takes (target : VersionedTarget) (key : DocKey) (slot : Slot) : Emitted → Slot
  | .op _ op => target.actOn op key slot
  | .truncated .. => slot

/-- What a target that was empty holds under a key once it has taken everything that was put
out, in that order. -/
def holding (target : VersionedTarget) (log : List Emitted) (key : DocKey) : Slot :=
  log.foldl (target.takes key) none

end VersionedTarget

/-- The keys that something was written under. -/
def writtenKeys (log : List Emitted) : List DocKey :=
  log.filterMap fun
    | .op _ op => op.key
    | .truncated .. => none

/-! ## The tables, the load and the poll -/

/-- One table, as the server has it and as its section describes it. -/
structure PolledTable (κ ρ : Type) : Type where
  /-- as it is polled -/
  poll : PollTable
  /-- the key a literal denotes -/
  meaning : String → κ
  /-- the key of a row -/
  key : ρ → κ
  /-- there is one key column, and the load's ranges are of it -/
  keyed : Bool
  /-- where the load cuts it -/
  boundaries : List String
  /-- what the load asks beside the range: the row is not soft-deleted and passes the filter -/
  selects : ρ → Bool
  /-- the key of a row as the load renders it -/
  copiedPk : ρ → Json
  /-- the row as the load renders it -/
  copiedDoc : ρ → Json
  /-- the row as the poll renders it -/
  doc : ρ → Json
  /-- the poll column of a row, as text -/
  watermark : ρ → Option String
  /-- the soft-delete predicate of a row -/
  deleted : ρ → Option Bool
  /-- the order of the poll column -/
  before : ρ → ρ → Bool
  /-- `max` of the poll column, as text -/
  latest : List ρ → Option String

/-- A pipeline over a source that is polled. -/
structure PollMode (ι κ ρ : Type) : Type where
  /-- the engine -/
  engine : Engine
  /-- the target -/
  target : VersionedTarget
  /-- the tables -/
  table : ι → PolledTable κ ρ
  /-- the table of a row -/
  tableOf : ρ → ι
  /-- `poll_page_size` -/
  pageSize : ℤ
  /-- the server's order of texts -/
  after : String → String → Bool
  /-- the configuration refuses `fan_out` under a source that is polled -/
  plain : ∀ i, engine.rules.fanOuts (splitQualified (table i).poll.qualified) = none
  /-- and a fanned element as a parent without it -/
  named : ∀ i join parent, engine.rules.joins (splitQualified (table i).poll.qualified) = some join →
    join.parent = some parent → parent.element = false

/-- The tables, what was read of them and not sent yet, and the engine. -/
structure PollState (ι ρ : Type) : Type where
  /-- the engine -/
  engine : EngineState
  /-- the rows, each at a place of its own -/
  rows : List (Option ρ)
  /-- the ranges that the load has read -/
  readRanges : List (ι × ℕ)
  /-- the rows it has read and not sent -/
  unsent : List RowChange
  /-- whether the first cycle has begun -/
  begun : Bool
  /-- the watermarks -/
  watermarks : ι → Option String
  /-- the changes of a cycle that are not sent yet -/
  page : List RowChange
  /-- ghost: what the load has read, by its place -/
  seen : List (ℕ × ρ)

/-- What happens next. -/
inductive PollAction (ι ρ : Type) : Type where
  /-- a place of a table holds this row from now on, or none -/
  | change (place : ℕ) (row : Option ρ) : PollAction ι ρ
  /-- the load reads a range, at a position read before it -/
  | read (table : ι) (range : ℕ) (lsn : Lsn) : PollAction ι ρ
  /-- the load sends one of the rows it has read -/
  | send (place : ℕ) : PollAction ι ρ
  /-- the load sends anything but a row -/
  | copy (event : ChangeEvent) : PollAction ι ρ
  /-- the startup query of one table -/
  | startup (table : ι) : PollAction ι ρ
  /-- the poll begins -/
  | begin : PollAction ι ρ
  /-- the page query of one table returns these rows -/
  | cycle (table : ι) (page : List ℕ) : PollAction ι ρ
  /-- the poll sends the next change of the cycle -/
  | sendPolled : PollAction ι ρ
  /-- the poll sends a boundary -/
  | commit : PollAction ι ρ
  /-- the engine does something other than being sent an event -/
  | engine (action : EngineAction) : PollAction ι ρ

namespace PollState

variable {ι ρ : Type} (s : PollState ι ρ)

/-- The polled changes that are not materialised. -/
def polls : List RowChange :=
  s.engine.rowsOf .stream ++ s.page

/-- The copied rows that are not. -/
def copies : List RowChange :=
  s.engine.rowsOf .copy ++ s.unsent

/-- What the load has read at a place. -/
def readings (place : ℕ) : List ρ :=
  (s.seen.filter fun read => read.1 = place).map Prod.snd

/-- The rows of some tables, with their places. -/
def rowsWhere (test : ρ → Bool) : List (ℕ × ρ) :=
  s.rows.zipIdx.filterMap fun slot =>
    slot.1.bind fun row => if test row then some (slot.2, row) else none

/-- The rows at some places. -/
def rowsAt (places : List ℕ) : List ρ :=
  places.filterMap fun k => s.rows[k]?.join

end PollState

namespace PollMode

variable {ι κ ρ : Type} [DecidableEq ι] [LinearOrder κ] (m : PollMode ι κ ρ)

/-- The name of a row's table. -/
def name (row : ρ) : TableName :=
  splitQualified (m.table (m.tableOf row)).poll.qualified

/-- A row as the page query returns it. -/
def polledRow (row : ρ) : PolledRow :=
  let t := m.table (m.tableOf row)
  ⟨t.doc row, t.watermark row, t.deleted row⟩

/-- A row as the poll sends it. -/
def polled (row : ρ) : RowChange :=
  (m.table (m.tableOf row)).poll.change (m.polledRow row)

/-- `build_change`: a row as the load sends it. -/
def copied (lsn : Lsn) (row : ρ) : RowChange :=
  let t := m.table (m.tableOf row)
  ⟨m.name row, .insert (t.copiedPk row) (t.copiedDoc row), some lsn⟩

/-- A table as its load reads it. -/
def load (i : ι) : LoadTable κ ρ where
  meaning := (m.table i).meaning
  key := (m.table i).key
  keyed := (m.table i).keyed
  selects := (m.table i).selects
  buildChange := m.copied

/-- Whether a row is in one of its table's ranges. -/
def inRange (row : ρ) (range : KeyRange) : Bool :=
  let t := m.table (m.tableOf row)
  !t.keyed || range.holds t.meaning (t.key row)

/-- A range of a table. -/
def range (i : ι) (n : ℕ) : Option KeyRange :=
  (rangesFromBounds (m.table i).boundaries)[n]?

/-- The condition of the page query. -/
def selected (watermarks : ι → Option String) (row : ρ) : Bool :=
  match watermarks (m.tableOf row) with
  | none => true
  | some w => ((m.table (m.tableOf row)).watermark row).any fun own => m.after own w

/-- A page: rows that the query selects, in the order of the poll column, as many as the
limit allows, and none before them left out. -/
def isPage (s : PollState ι ρ) (i : ι) (page : List ℕ) : Bool :=
  let wanted := s.rowsWhere fun row => m.tableOf row = i && m.selected s.watermarks row
  let inOrder := fun a b : ℕ × ρ => !(m.table i).before b.2 a.2
  let chosen := page.filterMap fun k => wanted.find? fun row => row.1 = k
  let left := wanted.filter fun row => !page.contains row.1
  decide page.Nodup && decide (chosen.length = page.length) &&
    decide (chosen.Pairwise fun a b => inOrder a b = true) &&
    decide (page.length ≤ (max m.pageSize 1).toNat) &&
    (left.isEmpty || decide (page.length = (max m.pageSize 1).toNat)) &&
    left.all fun row => chosen.all fun other => inOrder other row

/-- What a load sends beside rows. -/
def besideRows : ChangeEvent → Bool
  | .loadMark _ => true
  | event => event.isBoundary

/-- One step, where it can be taken. -/
def step (s : PollState ι ρ) : PollAction ι ρ → Option (PollState ι ρ)
  | .change k row =>
    if k < s.rows.length then some { s with rows := s.rows.set k row }
    else if k = s.rows.length then some { s with rows := s.rows ++ [row] }
    else none
  | .read i n lsn =>
    match m.range i n with
    | some range =>
      if (i, n) ∈ s.readRanges then none
      else
        let held := s.rowsWhere fun row => m.tableOf row = i
        some { s with
          readRanges := (i, n) :: s.readRanges
          unsent := s.unsent ++ (m.load i).copied ⟨range, lsn, held.map Prod.snd⟩
          seen := s.seen ++ held.filter fun row => m.inRange row.2 range }
    | none => none
  | .send place =>
    s.unsent[place]?.bind fun row =>
      (m.engine.step s.engine (.feedCopy (.row row))).map fun e =>
        { s with engine := e, unsent := s.unsent.eraseIdx place }
  | .copy event =>
    if besideRows event then
      (m.engine.step s.engine (.feedCopy event)).map fun e => { s with engine := e }
    else none
  | .startup i =>
    if s.begun then none
    else
      let rows := (s.rowsWhere fun row => m.tableOf row = i).map Prod.snd
      some { s with watermarks := Function.update s.watermarks i ((m.table i).latest rows) }
  | .begin => if s.begun then none else some { s with begun := true }
  | .cycle i page =>
    if s.begun && s.page.isEmpty && m.isPage s i page then
      let cycle := (m.table i).poll.planCycle (s.watermarks i) ((s.rowsAt page).map m.polledRow)
      some { s with
        page := cycle.changes
        watermarks := Function.update s.watermarks i (cycle.watermark.or (s.watermarks i)) }
    else none
  | .sendPolled =>
    match s.page with
    | change :: rest => (m.engine.step s.engine (.feed (.row change))).map fun e =>
        { s with engine := e, page := rest }
    | [] => none
  | .commit => (m.engine.step s.engine (.feed (.commit 0))).map fun e => { s with engine := e }
  | .engine (.feed _) | .engine (.feedCopy _) => none
  | .engine action => (m.engine.step s.engine action).map fun e => { s with engine := e }

/-- An empty target, and neither the load nor the poll begun. -/
def system : Transition.System (PollState ι ρ) (PollAction ι ρ) where
  initial s := s = ⟨.start, [], [], [], false, fun _ => none, [], []⟩
  step := m.step

/-! ## What is shown -/

/-- What the target holds in the end. -/
def slot (s : PollState ι ρ) (key : DocKey) : Slot :=
  m.target.holding s.engine.log key

/-- Whether a row has a document. -/
def live (row : ρ) : Bool :=
  !((m.table (m.tableOf row)).deleted row).getD false &&
    m.engine.keeps (m.name row) ((m.table (m.tableOf row)).doc row)

/-- The poll's document of a row, and its place. -/
def polledDocument (row : ρ) : Option (DocKey × Json) :=
  let t := m.table (m.tableOf row)
  m.engine.documentOf (m.name row) (PollTable.extractPk (t.doc row) t.poll.pkColumns) (t.doc row)

/-- The load's. -/
def copiedDocument (row : ρ) : Option (DocKey × Json) :=
  let t := m.table (m.tableOf row)
  m.engine.documentOf (m.name row) (t.copiedPk row) (t.copiedDoc row)

/-- Where a row's document belongs. -/
def place (row : ρ) : Option DocKey :=
  (m.polledDocument row).map Prod.fst

/-- A document as the target stores it. -/
def stored (row : ρ) (doc : Json) : Json :=
  match m.engine.rules.pipelines (m.name row) with
  | some pipeline => m.target.ingest pipeline doc
  | none => doc

/-- What may be at a row's place when the row is up to date: one of its two documents, or
nothing. -/
def shown (row : ρ) : List (Option Json) :=
  if m.live row then
    [(m.polledDocument row).map fun d => m.stored row d.2,
      (m.copiedDocument row).map fun d => m.stored row d.2]
  else [none]

/-- The target shows a row as it is. -/
def shows (s : PollState ι ρ) (key : DocKey) (row : ρ) : Bool :=
  (m.shown row).contains (m.slot s key).content

/-- The load and the poll have caught up: every range was read, no row is past the
watermarks, and nothing is on its way. -/
structure CaughtUp (s : PollState ι ρ) : Prop where
  /-- the pipeline is up -/
  running : ∀ result, s.engine.phase ≠ .ended result
  /-- it polls -/
  begun : s.begun = true
  /-- the load is through -/
  loaded : ∀ i n, n < (rangesFromBounds (m.table i).boundaries).length → (i, n) ∈ s.readRanges
  /-- nothing is new -/
  polled : ∀ row, some row ∈ s.rows → m.selected s.watermarks row = false
  /-- of the poll nothing is left -/
  noPolls : s.polls = []
  /-- of the load nothing is left -/
  noCopies : s.copies = []

/-- **The documents are the latest state of their rows**: every row is shown as it is, and
every document is a row's. -/
structure Agrees (s : PollState ι ρ) : Prop where
  /-- every row -/
  rows : ∀ row, some row ∈ s.rows → ∃ key, m.place row = some key ∧ m.shows s key row = true
  /-- every document -/
  documents : ∀ key, (m.slot s key).content ≠ none →
    ∃ row, some row ∈ s.rows ∧ m.place row = some key ∧ m.live row = true

/-! ## When the two agree -/

/-- The load and the poll take a row alike: they name its document alike, and the load's
conditions and the filter say the same of it. -/
def alike (row : ρ) : Bool :=
  (m.place row).isSome && ((m.table (m.tableOf row)).selects row = m.live row) &&
    (!m.live row || ((m.copiedDocument row).map Prod.fst = m.place row) &&
      m.engine.keeps (m.name row) ((m.table (m.tableOf row)).copiedDoc row))

/-- The places of the rows. -/
def places (rows : List (Option ρ)) : List DocKey :=
  rows.filterMap fun row => row.bind m.place

/-- The load has not read the range of a row. -/
def unread (s : PollState ι ρ) (row : ρ) : Bool :=
  s.readRanges.all fun read => read.1 ≠ m.tableOf row ||
    (m.range read.1 read.2).all fun range => !m.inRange row range

/-- Nothing is on its way to a document. -/
def quiet (s : PollState ι ρ) (key : DocKey) : Bool :=
  (s.polls ++ s.copies).all fun change => m.engine.filedUnder change ≠ some key

/-- A row that replaces this one keeps its document's place, or the target holds nothing of
it. -/
def leavesRightly (s : PollState ι ρ) (old : ρ) (new : Option ρ) : Bool :=
  (m.place old).all fun key => (new.bind m.place) = some key ||
    m.quiet s key && (m.slot s key).content = none

/-- A row that is new or changed will be seen: it is past the watermark, or nothing of it is
on its way and either the load has it still to read, under a document never written, or the
target shows it already. -/
def arrivesRightly (s : PollState ι ρ) (new : ρ) : Bool :=
  m.selected s.watermarks new || (m.place new).all fun key => m.quiet s key &&
    (m.unread s new && m.slot s key = none || m.shows s key new)

variable [DecidableEq ρ]

/-- When the poll begins, each row is past the watermark, or still to be read, or as it was
read; and none that was read is gone. -/
def beginsRightly (s : PollState ι ρ) : Bool :=
  s.rows.zipIdx.all fun slot =>
    let readings := s.readings slot.2
    match slot.1 with
    | none => readings.isEmpty
    | some row => (readings.all fun old => m.place old = m.place row) &&
      (m.selected s.watermarks row ||
        if readings.isEmpty then m.unread s row else readings.all fun old => old = row)

/-- A copied row that the engine writes is the row as it is, or something newer of it is
still to come, or the target refuses it. -/
def overtakesNothing (s : PollState ι ρ) (copy : RowChange) : Bool :=
  s.rows.all fun slot => slot.all fun row =>
    m.place row ≠ m.engine.filedUnder copy ||
      (m.live row && copy = { m.copied 0 row with version := copy.version }) ||
      m.selected s.watermarks row ||
      (s.polls.any fun change => m.engine.filedUnder change = m.place row) ||
      (m.place row).any fun key => (m.slot s key).any fun held =>
        (externalVersion copy.version).any fun version => version < held.1

/-- A cascade that the engine puts out finds no document. -/
def strikesNothing (s : PollState ι ρ) (completions : Completions) (change : RowChange) : Bool :=
  (m.engine.opsOf completions change).all fun op => !op.isCascade ||
    (writtenKeys s.engine.log).all fun key => !m.target.reaches op key (m.slot s key)

/-- What is asked of a step. -/
def keepsStep (s : PollState ι ρ) : PollAction ι ρ → Bool
  | .change k new =>
    decide (m.places (if k < s.rows.length then s.rows.set k new else s.rows ++ [new])).Nodup &&
      new.all m.alike &&
      (!s.begun || (s.rows[k]?.join.all fun old => m.leavesRightly s old new) &&
        new.all (m.arrivesRightly s))
  | .begin => m.beginsRightly s
  | .cycle i page =>
    let cycle := (m.table i).poll.planCycle (s.watermarks i) ((s.rowsAt page).map m.polledRow)
    let next := Function.update s.watermarks i (cycle.watermark.or (s.watermarks i))
    (s.rowsWhere fun row => m.tableOf row = i && m.selected s.watermarks row).all fun row =>
      page.contains row.1 || m.selected next row.2
  | .engine .write =>
    match s.engine.phase with
    | .writing _ completions ((origin, row) :: _) =>
      m.strikesNothing s completions row &&
        (origin = .stream || !s.begun || m.overtakesNothing s row)
    | _ => true
  | _ => true

end PollMode

end Pg2osync
