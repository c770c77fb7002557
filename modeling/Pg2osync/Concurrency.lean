import Mathlib.Logic.Function.Basic
import Pg2osync.Register
import Pg2osync.Sink
import Pg2osync.SinkLoop

/-!
# Open writes and the target they reach

`SinkLoop` says when a write is spawned and accounted for; here is what the
spawned writes do meanwhile. Each one works through its batch a run at a time: a
bulk request, whose operations reach the documents in the order of the batch and
which is sent again from its start after a transient failure, or a cascade,
which searches the children of a parent and removes what it found. Several
writes are open at once and their operations reach the target in any order that
leaves each write's own in place.

The target decides by versions: a versioned write is taken when the document
holds nothing of a higher version, and a removal leaves its version behind. A
write without a version is always taken, and the target counts it itself.
-/

namespace Pg2osync

/-- Where a document is filed. One id under two routings is two documents. -/
structure DocKey : Type where
  /-- the index -/
  index : String
  /-- the id -/
  id : String
  /-- the value the shard is chosen by, where it is not the id -/
  routing : Option String
  deriving DecidableEq, Repr

/-- What the target holds under a key: the version of the last write it took
there and, unless that was a removal, the document. -/
abbrev Slot := Option (ℕ × Option Json)

/-- The document of a slot. -/
def Slot.content (s : Slot) : Option Json :=
  s.bind Prod.snd

/-- The document an operation is about, unless it is a cascade. -/
def DocumentOp.key : DocumentOp → Option DocKey
  | .upsert index id routing _ _ _ => some ⟨index, id, routing⟩
  | .delete index id routing _ => some ⟨index, id, routing⟩
  | .deleteChildren .. => none

/-- The version an operation goes out with. -/
def DocumentOp.rank (op : DocumentOp) : Option ℕ :=
  externalVersion op.version

/-- What the target takes over a slot: a versioned write by its version, any
other one unconditionally, one version up. -/
def writeSlot (rank : Option ℕ) (content : Option Json) (s : Slot) : Slot :=
  match rank with
  | some v => Register.writeMarked s (.of v content)
  | none => some ((s.map fun held => held.1 + 1).getD 1, content)

/-- A target that orders by version. -/
structure VersionedTarget : Type where
  /-- what an ingest pipeline makes of a document -/
  ingest : String → Json → Json
  /-- the join mapping: the parent relation of a relation of an index's join field -/
  parentOf : (index field relation : String) → Option String
  /-- what it holds before the first write -/
  stored : List (DocKey × ℕ × Option Json)

namespace VersionedTarget

/-- What the target holds before the first write. -/
def initial (target : VersionedTarget) (key : DocKey) : Slot :=
  target.stored.lookup key

/-- What an operation leaves of a document when it is taken. -/
def leaves (target : VersionedTarget) : DocumentOp → Option Json
  | .upsert _ _ _ doc _ (some pipeline) => some (target.ingest pipeline doc)
  | .upsert _ _ _ doc _ none => some doc
  | .delete .. => none
  | .deleteChildren .. => none

/-- The query of a cascade: the join field's parent-id subfield has the parent's
id, and the document is not of the parent's own relation. The search is routed to
the parent's shard. -/
def isChild (target : VersionedTarget) (op : DocumentOp) (key : DocKey) (doc : Json) : Bool :=
  match op with
  | .deleteChildren index field parentName parentId _ =>
    match ((doc.index field).index "name").asStr with
    | some relation =>
      key.index = index && key.routing = some parentId && relation ≠ parentName &&
        target.parentOf index field relation = some parentName &&
        ((doc.index field).index "parent").asStr = some parentId
    | none => false
  | _ => false

/-- Whether an operation is about the document a slot holds. -/
def reaches (target : VersionedTarget) (op : DocumentOp) (key : DocKey) (s : Slot) : Bool :=
  match op.key with
  | some own => own = key
  | none => (Slot.content s).any (target.isChild op key)

/-- What an operation does to a slot. -/
def actOn (target : VersionedTarget) (op : DocumentOp) (key : DocKey) (s : Slot) : Slot :=
  if target.reaches op key s then writeSlot op.rank (target.leaves op) s else s

end VersionedTarget

/-! ## Batches and their runs -/

/-- What the loop is given to write, and where. -/
structure Workload : Type where
  /-- the target -/
  target : VersionedTarget
  /-- the batches, in the order of the commands that carry them -/
  batches : List (List LsnOp)

namespace Workload

/-- One batch. -/
def batch (w : Workload) (i : ℕ) : List LsnOp :=
  (w.batches[i]?).getD []

/-- The operation at a place: a batch and a position in it. -/
def opAt (w : Workload) (place : ℕ × ℕ) : Option DocumentOp :=
  ((w.batch place.1)[place.2]?).map LsnOp.op

/-- Every operation. -/
def ops (w : Workload) : List DocumentOp :=
  w.batches.flatten.map LsnOp.op

/-- Every key that something is or may be filed under. -/
def keys (w : Workload) : List DocKey :=
  w.target.stored.map Prod.fst ++ w.ops.filterMap DocumentOp.key

/-- One operation, done to the whole target. -/
def write (target : VersionedTarget) (store : DocKey → Slot) (op : LsnOp) : DocKey → Slot :=
  fun key => target.actOn op.op key (store key)

/-- What the first `n` batches leave when they are written one at a time. -/
def sequential (w : Workload) (n : ℕ) : DocKey → Slot :=
  (w.batches.take n).flatten.foldl (write w.target) w.target.initial

end Workload

/-- The end of the run of a batch that begins at a position: a cascade is a run
of its own, and a bulk request reaches up to the next cascade. -/
def runEnd (batch : List LsnOp) (start : ℕ) : ℕ :=
  match batch[start]? with
  | none => start
  | some op =>
    if op.op.isCascade then start + 1
    else start + ((batch.drop start).takeWhile fun op => !op.op.isCascade).length

/-! ## The system -/

/-- How far one write has come. -/
structure WriteProgress : Type where
  /-- where the run it is at begins -/
  start : ℕ
  /-- which positions of that run this attempt at its request has handled -/
  handled : List ℕ
  /-- whether its cascade has searched -/
  searched : Bool
  /-- what the search found and is not removed yet -/
  found : List DocKey

/-- A write at the beginning of a run. -/
def WriteProgress.at_ (start : ℕ) : WriteProgress :=
  ⟨start, [], false, []⟩

/-- The loop, its open writes and the target. -/
structure ConcurrentState : Type where
  /-- the loop -/
  loop : LoopState
  /-- how far the write of each batch has come -/
  writes : ℕ → WriteProgress
  /-- the target -/
  store : DocKey → Slot
  /-- ghost: the places whose operations reached a document, in order -/
  log : DocKey → List (ℕ × ℕ)
  /-- ghost: the same, with the searches of cascades that found it -/
  touched : DocKey → List (ℕ × ℕ)

/-- What happens next. -/
inductive ConcurrentAction : Type where
  /-- a step of the loop -/
  | loop (action : LoopAction) : ConcurrentAction
  /-- an operation of a bulk request reaches its document -/
  | land (batch position : ℕ) : ConcurrentAction
  /-- a bulk request is sent again -/
  | retry (batch : ℕ) : ConcurrentAction
  /-- a cascade searches -/
  | search (batch : ℕ) : ConcurrentAction
  /-- a cascade removes one of the documents it found -/
  | strike (batch : ℕ) (key : DocKey) : ConcurrentAction
  /-- a write goes on to its next run -/
  | advance (batch : ℕ) : ConcurrentAction

namespace ConcurrentState

/-- Whether the write of a batch is spawned and has not ended. -/
def opens (s : ConcurrentState) (i : ℕ) : Bool :=
  s.loop.inflight.any fun open_ => open_.seq = i && open_.outcome.isNone

/-- An operation reaches a document. -/
def reach (s : ConcurrentState) (place : ℕ × ℕ) (key : DocKey) (slot : Slot) : ConcurrentState :=
  { s with
    store := Function.update s.store key slot
    log := Function.update s.log key (s.log key ++ [place])
    touched := Function.update s.touched key (s.touched key ++ [place]) }

/-- A write comes further. -/
def progress (s : ConcurrentState) (i : ℕ) (next : WriteProgress) : ConcurrentState :=
  { s with writes := Function.update s.writes i next }

end ConcurrentState

namespace Workload

/-- Which steps of the loop go with the workload: it receives the next batch, and
a write ends well only at the end of its batch. -/
def permits (w : Workload) (s : ConcurrentState) : LoopAction → Bool
  | .receive command => w.batches[s.loop.taken.length]?.map SinkCommand.write = some command
  | .complete place (.finished (.ok ack)) =>
    match s.loop.inflight[place]? with
    | some open_ => (s.writes open_.seq).start = (w.batch open_.seq).length &&
        ack = SinkAck.written (((w.batch open_.seq).getLast?.map LsnOp.lsn).getD 0)
    | none => false
  | _ => true

/-- Whether a position is one that this attempt at a request may handle now: it
is of the run, and no position of the same document from it on is handled. -/
def inTurn (w : Workload) (i : ℕ) (progress : WriteProgress) (position : ℕ) (key : DocKey) :
    Bool :=
  progress.start ≤ position && position < runEnd (w.batch i) progress.start &&
    progress.handled.all fun q =>
      q < position || (w.opAt (i, q)).bind DocumentOp.key ≠ some key

/-- Whether a run is finished. -/
def runDone (w : Workload) (i : ℕ) (progress : WriteProgress) : Bool :=
  match w.opAt (i, progress.start) with
  | none => false
  | some op =>
    if op.isCascade then progress.searched && progress.found = []
    else (List.range' progress.start (runEnd (w.batch i) progress.start - progress.start)).all
      (· ∈ progress.handled)

/-- What a search for the children of a parent hits. -/
def hits (w : Workload) (op : DocumentOp) (store : DocKey → Slot) : List DocKey :=
  w.keys.filter fun key => w.target.reaches op key (store key)

/-- A cascade at a place has searched: what it hit is to be removed, everything
else it is done with. -/
def searched (s : ConcurrentState) (place : ℕ × ℕ) (hits : List DocKey) : ConcurrentState :=
  { s with
    writes := Function.update s.writes place.1
      { s.writes place.1 with searched := true, found := (s.writes place.1).found ++ hits }
    log := fun key => if key ∈ hits then s.log key else s.log key ++ [place]
    touched := fun key => s.touched key ++ [place] }

/-- One step, where it can be taken. -/
def step (w : Workload) (loop : SinkLoop) (s : ConcurrentState) :
    ConcurrentAction → Option ConcurrentState
  | .loop action =>
    if w.permits s action then (loop.step s.loop action).map fun next => { s with loop := next }
    else none
  | .land i position =>
    match w.opAt (i, position) with
    | none => none
    | some op => match op.key with
      | none => none
      | some key =>
        if s.opens i && w.inTurn i (s.writes i) position key then
          some ((s.reach (i, position) key (w.target.actOn op key (s.store key))).progress i
            { s.writes i with handled := position :: (s.writes i).handled })
        else none
  | .retry i =>
    if s.opens i then some (s.progress i { s.writes i with handled := [] }) else none
  | .search i =>
    match w.opAt (i, (s.writes i).start) with
    | none => none
    | some op =>
      if s.opens i && op.isCascade then
        some (searched s (i, (s.writes i).start) (w.hits op s.store))
      else none
  | .strike i key =>
    match w.opAt (i, (s.writes i).start) with
    | none => none
    | some op =>
      if s.opens i && key ∈ (s.writes i).found then
        some ((s.reach (i, (s.writes i).start) key
            (writeSlot op.rank (w.target.leaves op) (s.store key))).progress i
          { s.writes i with found := (s.writes i).found.filter (· ≠ key) })
      else none
  | .advance i =>
    if s.opens i && w.runDone i (s.writes i) then
      some (s.progress i (.at_ (runEnd (w.batch i) (s.writes i).start)))
    else none

/-- The state before anything is received. -/
def start (w : Workload) : ConcurrentState :=
  ⟨SinkLoop.start, fun _ => .at_ 0, w.target.initial, fun _ => [], fun _ => []⟩

/-- The loop over its open writes, as a transition system. -/
def system (w : Workload) (loop : SinkLoop) :
    Transition.System ConcurrentState ConcurrentAction where
  initial s := s = w.start
  step := w.step loop

end Workload

end Pg2osync
