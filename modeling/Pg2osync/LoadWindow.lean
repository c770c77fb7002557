import Pg2osync.Engine
import Pg2osync.Transition

/-!
# Loaders beside the stream

A loader reads rows of a table and sends them down the load's channel, each with the
position read before it; then it sends a mark and waits for the sink to report it
before it reads on. Any number of loaders share the channel and the sequence their
marks come from. The stream sends its own changes meanwhile, in the order of their
positions, none of them past the position the source is at.

A copied row may be overtaken by the removal of its document. The target refuses it
for as long as it keeps the removal's version; the engine's window is there for when
it does not.
-/

namespace Pg2osync

/-- How far a loader is with its mark. -/
inductive LoaderMark : Type where
  /-- it is sending rows -/
  | none : LoaderMark
  /-- it has taken a mark from the sequence -/
  | taken (mark : ℕ) : LoaderMark
  /-- it has sent the mark and waits for it -/
  | sent (mark : ℕ) : LoaderMark
  deriving DecidableEq

/-- A loader between two awaits. -/
structure Loader : Type where
  /-- the rows it has read and not sent -/
  unsent : List RowChange
  /-- its mark -/
  mark : LoaderMark

/-- The source, the loaders, the engine and what the sink has carried out. -/
structure WindowState : Type where
  /-- the engine -/
  engine : EngineState
  /-- the loaders -/
  loaders : List Loader
  /-- the position the source is at -/
  position : ℕ
  /-- the highest version the stream has sent -/
  streamed : ℕ
  /-- the last mark of the sequence -/
  marks : ℕ
  /-- how many commands the sink has carried out -/
  executed : ℕ
  /-- the mark it reported last -/
  loadDone : ℕ

/-- What happens next. -/
inductive WindowAction : Type where
  /-- the source moves on -/
  | advance (position : ℕ) : WindowAction
  /-- the stream sends an event -/
  | stream (event : ChangeEvent) : WindowAction
  /-- a loader reads rows, each a table, a key and a document -/
  | read (loader : ℕ) (rows : List (TableName × Json × Json)) : WindowAction
  /-- a loader sends one of the rows it has read -/
  | send (loader place : ℕ) : WindowAction
  /-- a loader sends a boundary -/
  | boundary (loader : ℕ) : WindowAction
  /-- a loader that has sent its rows takes the next mark -/
  | takeMark (loader : ℕ) : WindowAction
  /-- it sends the mark -/
  | sendMark (loader : ℕ) : WindowAction
  /-- the sink has reported a mark as high -/
  | released (loader : ℕ) : WindowAction
  /-- a loader says that it starts -/
  | started (loader : ℕ) : WindowAction
  /-- a loader says that it is done -/
  | finished (loader : ℕ) : WindowAction
  /-- the engine does something other than being sent an event -/
  | engine (action : EngineAction) : WindowAction
  /-- the sink carries out the next command -/
  | sink : WindowAction

/-- The version an event carries. -/
def ChangeEvent.version : ChangeEvent → Option ℕ
  | .row change => change.version
  | .tableTruncated _ version => version
  | _ => none

/-- The events of the stream's channel. -/
def ChangeEvent.isStream : ChangeEvent → Bool
  | .loadMark _ | .loadStarted | .loadFinished => false
  | _ => true

/-- The row of an event. -/
def ChangeEvent.rowOf : ChangeEvent → Option RowChange
  | .row change => some change
  | _ => none

/-- A row as a load sends it. -/
def copiedRow (version : ℕ) (row : TableName × Json × Json) : RowChange :=
  ⟨row.1, .insert row.2.1 row.2.2, some version⟩

namespace EngineState

/-- The channel of an origin. -/
def channel (s : EngineState) : Origin → List ChangeEvent
  | .stream => s.events
  | .copy => s.copy

/-- The rows of the group the loop is at. -/
def groupRows (s : EngineState) : List (Origin × RowChange) :=
  match s.phase with
  | .gathering _ rows | .grouped _ rows | .writing _ _ rows => rows
  | .idle | .ended _ => []

/-- What the engine has taken off the channels and not handled. -/
def inHand (s : EngineState) : List (Origin × ChangeEvent) :=
  s.groupRows.map (fun r => (r.1, .row r.2)) ++ s.deferred.toList

/-- What one channel has brought that is not handled, oldest first. -/
def pending (s : EngineState) (origin : Origin) : List ChangeEvent :=
  (s.inHand.filter fun e => e.1 = origin).map Prod.snd ++ s.channel origin

end EngineState

namespace Engine

variable (engine : Engine)

/-- One step of the loaders, the stream, the engine or the sink, where it can be
taken. -/
def windowStep (s : WindowState) : WindowAction → Option WindowState
  | .advance position =>
    if s.position ≤ position then some { s with position := position } else none
  | .stream event =>
    if event.isStream && event.version.all fun v => s.streamed ≤ v && v ≤ s.position then
      (engine.step s.engine (.feed event)).map fun e =>
        { s with engine := e, streamed := event.version.getD s.streamed }
    else none
  | .read i rows =>
    match s.loaders[i]? with
    | some ⟨unsent, .none⟩ => some { s with
        loaders := s.loaders.set i ⟨unsent ++ rows.map (copiedRow s.position), .none⟩ }
    | _ => none
  | .send i place =>
    match s.loaders[i]? with
    | some ⟨unsent, .none⟩ => unsent[place]?.bind fun row =>
        (engine.step s.engine (.feedCopy (.row row))).map fun e =>
          { s with engine := e, loaders := s.loaders.set i ⟨unsent.eraseIdx place, .none⟩ }
    | _ => none
  | .boundary i =>
    match s.loaders[i]? with
    | some ⟨_, .none⟩ =>
      (engine.step s.engine (.feedCopy (.commit 0))).map fun e => { s with engine := e }
    | _ => none
  | .takeMark i =>
    match s.loaders[i]? with
    | some ⟨[], .none⟩ => some { s with
        loaders := s.loaders.set i ⟨[], .taken (s.marks + 1)⟩
        marks := s.marks + 1 }
    | _ => none
  | .sendMark i =>
    match s.loaders[i]? with
    | some ⟨unsent, .taken mark⟩ =>
      (engine.step s.engine (.feedCopy (.loadMark mark))).map fun e =>
        { s with engine := e, loaders := s.loaders.set i ⟨unsent, .sent mark⟩ }
    | _ => none
  | .released i =>
    match s.loaders[i]? with
    | some ⟨unsent, .sent mark⟩ =>
      if mark ≤ s.loadDone then some { s with loaders := s.loaders.set i ⟨unsent, .none⟩ }
      else none
    | _ => none
  | .started i =>
    match s.loaders[i]? with
    | some ⟨[], .none⟩ =>
      (engine.step s.engine (.feedCopy .loadStarted)).map fun e => { s with engine := e }
    | _ => none
  | .finished i =>
    match s.loaders[i]? with
    | some ⟨[], .none⟩ =>
      (engine.step s.engine (.feedCopy .loadFinished)).map fun e => { s with engine := e }
    | _ => none
  | .engine (.feed _) | .engine (.feedCopy _) => none
  | .engine action => (engine.step s.engine action).map fun e => { s with engine := e }
  | .sink =>
    s.engine.commands[s.executed]?.map fun command =>
      { s with
        executed := s.executed + 1
        loadDone := match command with
          | .loadMark mark => mark
          | _ => s.loadDone }

/-- Loaders, stream and engine as a transition system: any number of loaders, none
of which has begun. -/
def windowSystem : Transition.System WindowState WindowAction where
  initial s := s.engine = .start ∧ (∀ loader ∈ s.loaders, loader = ⟨[], .none⟩) ∧
    s.streamed ≤ s.position
  step := engine.windowStep

end Engine

/-! ## What is asked of a run -/

/-- Something put out by the stream removes a document above a version. -/
def Emitted.removes (e : Emitted) (index id : String) (version : ℕ) : Bool :=
  match e with
  | .op .stream (.delete i d _ (some removed)) => i = index && d = id && version < removed
  | .truncated pattern (some removed) false =>
    version < removed && indexMatchesPattern pattern index
  | _ => false

/-- What is put out later does not bring back what was removed above it. -/
def Emitted.respects (later earlier : Emitted) : Prop :=
  match later with
  | .op _ (.upsert index id _ _ (some version) _) => earlier.removes index id version = false
  | _ => True

/-- **Nothing is resurrected**: no write goes out after a removal of its document by
the stream at a higher position. -/
def NeverResurrects (log : List Emitted) : Prop :=
  log.Pairwise fun earlier later => later.respects earlier

namespace Engine

variable (engine : Engine)

/-- The documents a copied row would write. -/
def writesOf (row : RowChange) : List (String × String) :=
  match engine.mapping.targetFor row.table with
  | none => []
  | some target =>
    match materialize target row.table row.kind engine.rules none row.version with
    | .ok (ops, _) => (ops.filter DocumentOp.isUpsert).map fun op => (op.index, op.id)
    | .error _ => []

/-- The copied rows the engine has not put out: those it has taken or can take, and
those a loader has read and can still send. -/
def onTheWay (s : WindowState) : List RowChange :=
  (s.engine.pending .copy).filterMap ChangeEvent.rowOf ++
    if s.engine.copyOpen then s.loaders.flatMap Loader.unsent else []

/-- Some copied row on its way would write a document below a version. -/
def threatened (s : WindowState) (test : String → String → ℕ → Bool) : Bool :=
  (onTheWay s).any fun row => row.version.any fun version =>
    (engine.writesOf row).any fun doc => test doc.1 doc.2 version

/-- What the stream's next row removes. -/
def removalsOf (completions : Completions) (row : RowChange) : List Emitted :=
  match engine.mapping.targetFor row.table with
  | none => []
  | some target =>
    match materialize target row.table row.kind engine.rules (engine.previousOf completions row)
        row.version with
    | .ok (ops, _) => ops.map (.op .stream)
    | .error _ => []

/-- A removal is not forgotten too early: when the stream removes something while no
load is known to run, no copied row of it is on its way below the removal; and when
the window closes, no copied row is on its way that it would still have stopped. -/
def windowHolds (s : WindowState) : WindowAction → Bool
  | .engine .write =>
    match s.engine.phase with
    | .writing _ completions ((.stream, row) :: _) => s.engine.loadRunning ||
        (engine.removalsOf completions row).all fun e => !engine.threatened s e.removes
    | _ => true
  | .engine (.turn _ held _ _) =>
    match s.engine.takeEvent held with
    | some ((_, .loadMark _), _) | some ((_, .loadFinished), _) =>
      !engine.threatened s s.engine.remembers
    | some ((_, .tableTruncated table version), _) =>
      match engine.truncateScope table with
      | some (pattern, only) => s.engine.loadRunning ||
          !engine.threatened s (Emitted.truncated pattern version only.isSome).removes
      | none => true
    | _ => true
  | _ => true

end Engine

end Pg2osync
