import Mathlib.Logic.Function.Basic
import Pg2osync.Materialize
import Pg2osync.SinkLoop

/-!
# The engine

One loop takes what the stream and the load send, each down a channel of its own,
and hands the sink loop batches. The stream comes first, always. Rows waiting
together are formed into a group, so that the stored documents some of them need are
read in one request; every row of the group is then materialised in turn. A commit
hands the buffer over, unless something else is already waiting.

A state is the loop between two awaits; an action is what the environment does next,
or a turn of the loop with what it could not decide: the settings in force, whether
the load's channel is held back by its rate, whether the buffer has waited too long.
The fields marked ghost record the run for the statements below; no step reads them.
-/

namespace Pg2osync

/-- Everything the engine consumes. -/
inductive ChangeEvent : Type where
  /-- a transaction opens -/
  | begin (lsn : Lsn) : ChangeEvent
  /-- a transaction is complete; zero is a load's boundary -/
  | commit (lsn : Lsn) : ChangeEvent
  /-- a row changed, or was copied -/
  | row (change : RowChange) : ChangeEvent
  /-- a load asks to be told when everything before this is written -/
  | loadMark (mark : ℕ) : ChangeEvent
  /-- a load is about to send rows -/
  | loadStarted : ChangeEvent
  /-- a load has sent everything -/
  | loadFinished : ChangeEvent
  /-- a table's columns changed under the pipeline -/
  | schemaDrift (table : TableName) (detail : String) : ChangeEvent
  /-- a table was truncated -/
  | tableTruncated (table : TableName) (version : Option ℕ) : ChangeEvent
  deriving DecidableEq

/-- Which channel an event came from. -/
inductive Origin : Type where
  /-- the stream's -/
  | stream : Origin
  /-- the load's -/
  | copy : Origin
  deriving DecidableEq, Repr

/-- The settings a turn of the loop runs under. -/
structure EngineSettings : Type where
  /-- how many operations make a batch -/
  batchSize : ℕ
  /-- how many bytes do -/
  batchMaxBytes : ℕ

/-! ## Sizes -/

mutual

/-- `estimate_json`. -/
def estimateJson : Json → ℕ
  | .null => 4
  | .bool _ => 5
  | .int _ | .float _ => 8
  | .str s => s.utf8ByteSize + 2
  | .arr items => 2 + estimateItems items
  | .obj fields => 2 + estimateFields fields

/-- The items of an array. -/
def estimateItems : List Json → ℕ
  | [] => 0
  | item :: rest => estimateJson item + estimateItems rest

/-- The fields of an object. -/
def estimateFields : List (String × Json) → ℕ
  | [] => 0
  | (name, value) :: rest => name.utf8ByteSize + 4 + estimateJson value + estimateFields rest

end

/-- `op_size`: roughly what an operation weighs in a request. -/
def opSize : DocumentOp → ℕ
  | .upsert index id _ doc _ _ => index.utf8ByteSize + id.utf8ByteSize + estimateJson doc + 64
  | .delete index id _ _ => index.utf8ByteSize + id.utf8ByteSize + 64
  | .deleteChildren index field _ parentId _ =>
    index.utf8ByteSize + field.utf8ByteSize + parentId.utf8ByteSize + 64

/-! ## The state -/

/-- The stored documents a group of rows was completed from, by index and id. -/
abbrev Completions := String × String → Option Json

/-- Where the loop is. -/
inductive EnginePhase : Type where
  /-- about to take an event -/
  | idle : EnginePhase
  /-- taking the rows that wait together -/
  | gathering (settings : EngineSettings) (rows : List (Origin × RowChange)) : EnginePhase
  /-- about to read what they need -/
  | grouped (settings : EngineSettings) (rows : List (Origin × RowChange)) : EnginePhase
  /-- materialising them -/
  | writing (settings : EngineSettings) (completions : Completions)
      (rows : List (Origin × RowChange)) : EnginePhase
  /-- over -/
  | ended (result : Except CoreError Unit) : EnginePhase

/-- What a run has put out: an operation, or the clearing of a pattern. -/
inductive Emitted : Type where
  /-- an operation of a row -/
  | op (origin : Origin) (op : DocumentOp) : Emitted
  /-- a truncate that was applied; a confined one clears one relation of a join -/
  | truncated (pattern : String) (version : Option ℕ) (confined : Bool) : Emitted
  deriving DecidableEq

/-- The loop between two awaits. -/
structure EngineState : Type where
  /-- the stream's channel -/
  events : List ChangeEvent
  /-- the load's channel -/
  copy : List ChangeEvent
  /-- whether the stream's channel is open -/
  eventsOpen : Bool
  /-- whether the load's channel is open -/
  copyOpen : Bool
  /-- whether a copied row may be in flight -/
  loadRunning : Bool
  /-- an event that was taken while gathering -/
  deferred : Option (Origin × ChangeEvent)
  /-- where the loop is -/
  phase : EnginePhase
  /-- operations not handed over yet -/
  buffer : List LsnOp
  /-- their size -/
  bytes : ℕ
  /-- whether whole transactions are being held back for company -/
  coalescing : Bool
  /-- whether a stream transaction is open -/
  txnOpen : Bool
  /-- a load mark held until the open transaction is handed over -/
  pendingMark : Option ℕ
  /-- what the stream has removed, by index and id -/
  superseded : String × String → Option ℕ
  /-- what it has cleared, by pattern -/
  cleared : List (String × ℕ)
  /-- what the sink loop was handed, in order -/
  commands : List SinkCommand
  /-- ghost: what was put out, in order -/
  log : List Emitted

/-- The state the loop begins in: an attempt starts with its initial load either
running or about to. -/
def EngineState.start : EngineState where
  events := []
  copy := []
  eventsOpen := true
  copyOpen := true
  loadRunning := true
  deferred := none
  phase := .idle
  buffer := []
  bytes := 0
  coalescing := false
  txnOpen := false
  pendingMark := none
  superseded _ := none
  cleared := []
  commands := []
  log := []

namespace EngineState

/-- `LoadIntake::took`: what taking an event off the load's channel says about it. -/
def took (running : Bool) : ChangeEvent → Bool
  | .loadStarted => true
  | .loadFinished => false
  | _ => running

/-- `try_next`: whatever is already waiting, stream before copy. -/
def tryNext (held : Bool) (s : EngineState) : Option ((Origin × ChangeEvent) × EngineState) :=
  match s.events, s.copy with
  | ev :: rest, _ => some ((.stream, ev), { s with events := rest })
  | [], ev :: rest =>
    if held then none
    else some ((.copy, ev), { s with copy := rest, loadRunning := took s.loadRunning ev })
  | [], [] => none

/-- The event a turn is about: one that was put aside, or the next one. -/
def takeEvent (held : Bool) (s : EngineState) : Option ((Origin × ChangeEvent) × EngineState) :=
  match s.deferred with
  | some ev => some (ev, { s with deferred := none })
  | none => s.tryNext held

/-- Hand a command over. -/
def push (s : EngineState) (command : SinkCommand) : EngineState :=
  { s with commands := s.commands ++ [command] }

/-- Hand the buffer over. -/
def handOver (s : EngineState) : EngineState :=
  { s.push (.write s.buffer) with buffer := [], bytes := 0 }

/-- Forget what the stream has removed. -/
def wipe (s : EngineState) : EngineState :=
  { s with superseded := fun _ => none, cleared := [] }

/-- The commit's position lands on the last operation of the buffer. -/
def stamp (lsn : Lsn) (buffer : List LsnOp) : List LsnOp :=
  buffer.modify (buffer.length - 1) fun op => { op with lsn := lsn }

/-- A stream's commit closes its transaction; a load's boundary, at zero, does not. -/
def closeTxn (lsn : Lsn) (s : EngineState) : EngineState :=
  if lsn = 0 then s else { s with txnOpen := false }

/-- A stream's commit lends the buffer its position. -/
def stampBuffer (lsn : Lsn) (s : EngineState) : EngineState :=
  if lsn = 0 then s else { s with buffer := stamp lsn s.buffer }

/-- The buffer is handed over, unless another event is waiting and the buffer has not
waited too long. -/
def handOverOrWait (held overdue : Bool) (s : EngineState) : EngineState :=
  match s.tryNext held with
  | some (next, s) =>
    if s.coalescing && overdue then
      { s.handOver with deferred := some next, coalescing := false }
    else { s with deferred := some next, coalescing := true }
  | none => { s.handOver with coalescing := false }

/-- A held mark goes out once everything before it has. -/
def releaseMark (s : EngineState) : EngineState :=
  match s.pendingMark with
  | some mark =>
    if s.buffer.isEmpty && !s.txnOpen then { s.push (.loadMark mark) with pendingMark := none }
    else s
  | none => s

/-- What a commit does with the buffer; an empty one still has a position. -/
def commitBuffer (lsn : Lsn) (held overdue : Bool) (s : EngineState) : EngineState :=
  if s.buffer.isEmpty then if lsn = 0 then s else s.push (.position lsn)
  else (s.stampBuffer lsn).handOverOrWait held overdue

/-- A commit. -/
def commit (lsn : Lsn) (held overdue : Bool) (s : EngineState) : EngineState :=
  ((s.closeTxn lsn).commitBuffer lsn held overdue).releaseMark

/-- A load mark: the window closes, and the mark follows what is in the buffer. -/
def mark (mark : ℕ) (s : EngineState) : EngineState :=
  let s := s.wipe
  if s.txnOpen then { s with pendingMark := some mark }
  else
    let s := if s.buffer.isEmpty then s else { s.handOver with coalescing := false }
    s.push (.loadMark mark)

end EngineState

/-- Raise a floor to a version. -/
def raiseFloor (floor : Option ℕ) (version : ℕ) : ℕ :=
  max (floor.getD version) version

/-- `cleared.entry(pattern)`: the floor of one pattern is raised. -/
def raiseCleared (pattern : String) (version : ℕ) : List (String × ℕ) → List (String × ℕ)
  | [] => [(pattern, version)]
  | (p, at_) :: rest =>
    if p = pattern then (p, max at_ version) :: rest
    else (p, at_) :: raiseCleared pattern version rest

/-- The engine's configuration. -/
structure Engine : Type where
  /-- where each table goes -/
  mapping : TableMapping
  /-- the rules of each table -/
  rules : Rules

namespace Engine

variable (engine : Engine)

/-- Everything a group of rows is completed from, one read for each document. -/
def fetchCompletions (read : String → String → Option String → Option Json)
    (rows : List RowChange) : Completions := fun key =>
  let wanted := rows.filterMap fun row =>
    completionKey row.kind engine.rules engine.mapping row.table
  (wanted.find? fun w => w.1 = key).bind fun w => read key.1 key.2 w.2

/-- The stored document that completes a row. -/
def previousOf (completions : Completions) (row : RowChange) : Option Json :=
  (completionKey row.kind engine.rules engine.mapping row.table).bind fun w => completions w.1

end Engine

/-- The stream is remembered to have removed a document at a position above a
version: by itself, or with everything of its index. -/
def EngineState.remembers (s : EngineState) (index id : String) (version : ℕ) : Bool :=
  (s.superseded (index, id)).any (fun removed => version < removed) ||
    s.cleared.any fun c => version < c.2 && indexMatchesPattern c.1 index

/-- A write that the stream has already superseded. -/
def EngineState.dead (s : EngineState) : DocumentOp → Bool
  | .upsert index id _ _ (some version) _ => s.remembers index id version
  | _ => false

/-- `superseded.entry(key)`: one removal, remembered. -/
def rememberOp (known : String × String → Option ℕ) : DocumentOp → String × String → Option ℕ
  | .delete index id _ (some version) =>
    Function.update known (index, id) (some (raiseFloor (known (index, id)) version))
  | _ => known

/-- The removals of one row, remembered. -/
def remember (ops : List DocumentOp) (known : String × String → Option ℕ) :
    String × String → Option ℕ :=
  ops.foldl rememberOp known

namespace EngineState

/-- Rows that are buffered go out before what follows. -/
def handOverRest (s : EngineState) : EngineState :=
  if s.buffer.isEmpty then { s with bytes := 0 } else s.handOver

/-- A truncate is remembered while a load runs, if it clears the whole pattern. -/
def raiseFloors (pattern : String) (version : Option ℕ) (confined : Bool) (s : EngineState) :
    EngineState :=
  match s.loadRunning, confined, version with
  | true, false, some version =>
    { s with cleared := raiseCleared pattern version s.cleared }
  | _, _, _ => s

end EngineState

namespace Engine

variable (engine : Engine)

/-- The operations of one row go into the buffer, which is split if it is too large. -/
def bufferOps (settings : EngineSettings) (origin : Origin) (ops : List DocumentOp)
    (s : EngineState) : EngineState :=
  let s := { s with
    superseded := if s.loadRunning then remember ops s.superseded else s.superseded
    buffer := s.buffer ++ ops.map fun op => ⟨0, op⟩
    bytes := s.bytes + (ops.map opSize).sum
    log := s.log ++ ops.map (.op origin) }
  if settings.batchSize ≤ s.buffer.length || settings.batchMaxBytes ≤ s.bytes then s.handOver
  else s

/-- One row of a group. A row of a table that has no index is dropped. -/
def writeRow (settings : EngineSettings) (completions : Completions) (origin : Origin)
    (row : RowChange) (s : EngineState) : Except CoreError EngineState :=
  match engine.mapping.targetFor row.table with
  | none => .ok s
  | some target =>
    (materialize target row.table row.kind engine.rules (engine.previousOf completions row)
      row.version).map fun (ops, _) =>
        bufferOps settings origin (ops.filter fun op => !s.dead op) s

/-- What a truncate of a table clears: the pattern, and the relation it is confined
to. An index that other tables feed is cleared of a relation or not at all. -/
def truncateScope (table : TableName) : Option (String × Option (String × String)) :=
  (engine.mapping.targetFor table).bind fun target =>
    let only := (engine.rules.joins table).map fun join => (join.field, join.name)
    if only.isNone && engine.mapping.isShared target.pattern then none
    else some (target.pattern, only)

/-- A truncate: rows buffered before it belong before it. -/
def truncate (table : TableName) (version : Option ℕ) (s : EngineState) : EngineState :=
  match engine.truncateScope table with
  | none => s
  | some (pattern, only) =>
    let s := s.handOverRest.raiseFloors pattern version only.isSome
    { s.push (.truncate pattern version only) with
      log := s.log ++ [.truncated pattern version only.isSome] }

/-- What a turn does with its event. -/
def handle (settings : EngineSettings) (held overdue : Bool) (s : EngineState) :
    Origin × ChangeEvent → EngineState
  | (_, .begin _) => { s with txnOpen := true }
  | (_, .commit lsn) => s.commit lsn held overdue
  | (origin, .row change) => { s with phase := .gathering settings [(origin, change)] }
  | (_, .loadMark mark) => s.mark mark
  | (_, .loadStarted) | (_, .schemaDrift _ _) => s
  | (_, .loadFinished) => s.wipe
  | (_, .tableTruncated table version) => engine.truncate table version s

end Engine

/-- What happens next. -/
inductive EngineAction : Type where
  /-- the stream sends an event -/
  | feed (event : ChangeEvent) : EngineAction
  /-- a load sends an event -/
  | feedCopy (event : ChangeEvent) : EngineAction
  /-- the loop takes an event -/
  | turn (settings : EngineSettings) (held heldAgain overdue : Bool) : EngineAction
  /-- the loop looks for another row that is waiting -/
  | gather (held : Bool) : EngineAction
  /-- the stored documents are read, or cannot be -/
  | fetch (read : Except CoreError (String → String → Option String → Option Json)) : EngineAction
  /-- the next row of the group is materialised -/
  | write : EngineAction
  /-- the stream's channel closes -/
  | closeEvents : EngineAction
  /-- the load's channel closes: the attempt is over -/
  | closeCopy : EngineAction
  /-- the pipeline is told to stop -/
  | shutdown : EngineAction
  /-- the sink loop is gone -/
  | sinkGone : EngineAction

namespace Engine

variable (engine : Engine)

/-- One action, where it can be taken. -/
def step (s : EngineState) : EngineAction → Option EngineState
  | .feed event => if s.eventsOpen then some { s with events := s.events ++ [event] } else none
  | .feedCopy event => if s.copyOpen then some { s with copy := s.copy ++ [event] } else none
  | .turn settings held heldAgain overdue =>
    match s.phase with
    | .idle => (s.takeEvent held).map fun (ev, s) => engine.handle settings heldAgain overdue s ev
    | _ => none
  | .gather held =>
    match s.phase with
    | .gathering settings rows =>
      if rows.length < settings.batchSize then
        match s.tryNext held with
        | some ((origin, .row change), s) =>
          some { s with phase := .gathering settings (rows ++ [(origin, change)]) }
        | some (other, s) =>
          some { s with deferred := some other, phase := .grouped settings rows }
        | none => some { s with phase := .grouped settings rows }
      else some { s with phase := .grouped settings rows }
    | _ => none
  | .fetch read =>
    match s.phase, read with
    | .grouped settings rows, .ok read =>
      let completions := engine.fetchCompletions read (rows.map Prod.snd)
      some { s with phase := .writing settings completions rows }
    | .grouped _ _, .error e => some { s with phase := .ended (.error e) }
    | _, _ => none
  | .write =>
    match s.phase with
    | .writing settings completions ((origin, row) :: rest) =>
      match engine.writeRow settings completions origin row s with
      | .ok s => some { s with phase := .writing settings completions rest }
      | .error e => some { s with phase := .ended (.error e) }
    | .writing _ _ [] => some { s with phase := .idle }
    | _ => none
  | .closeEvents =>
    match s.phase, s.deferred, s.events with
    | .idle, none, [] =>
      some { s with eventsOpen := false, phase := if s.copyOpen then .idle else .ended (.ok ()) }
    | _, _, _ => none
  | .closeCopy =>
    match s.phase, s.deferred, s.events, s.copy with
    | .idle, none, [], [] => some { s.wipe with
        copyOpen := false
        phase := if s.eventsOpen then .idle else .ended (.ok ()) }
    | _, _, _, _ => none
  | .shutdown =>
    match s.phase with
    | .idle => some { s with phase := .ended (.ok ()) }
    | _ => none
  | .sinkGone => some { s with phase := .ended (.error (.other "batch channel closed")) }

/-! ## What an action does -/

/-- What an action that can be taken leaves. -/
inductive Does (s : EngineState) : EngineAction → EngineState → Prop where
  /-- the stream has sent an event -/
  | fed {event : ChangeEvent} : s.eventsOpen = true →
      Does s (.feed event) { s with events := s.events ++ [event] }
  /-- a load has -/
  | fedCopy {event : ChangeEvent} : s.copyOpen = true →
      Does s (.feedCopy event) { s with copy := s.copy ++ [event] }
  /-- an event is handled -/
  | turned {settings : EngineSettings} {held heldAgain overdue : Bool}
      {next : Origin × ChangeEvent} {taken : EngineState} :
      s.phase = .idle → s.takeEvent held = some (next, taken) →
      Does s (.turn settings held heldAgain overdue)
        (engine.handle settings heldAgain overdue taken next)
  /-- a row joins the group -/
  | gathered {held : Bool} {settings : EngineSettings} {rows : List (Origin × RowChange)}
      {origin : Origin} {change : RowChange} {taken : EngineState} :
      s.phase = .gathering settings rows → s.tryNext held = some ((origin, .row change), taken) →
      rows.length < settings.batchSize →
      Does s (.gather held)
        { taken with phase := .gathering settings (rows ++ [(origin, change)]) }
  /-- another event ends it -/
  | putAside {held : Bool} {settings : EngineSettings} {rows : List (Origin × RowChange)}
      {next : Origin × ChangeEvent} {taken : EngineState} :
      s.phase = .gathering settings rows → s.tryNext held = some (next, taken) →
      (∀ change, next.2 ≠ .row change) →
      Does s (.gather held) { taken with deferred := some next, phase := .grouped settings rows }
  /-- the group is full, or nothing waits -/
  | grouped {held : Bool} {settings : EngineSettings} {rows : List (Origin × RowChange)} :
      s.phase = .gathering settings rows →
      (rows.length < settings.batchSize → s.tryNext held = none) →
      Does s (.gather held) { s with phase := .grouped settings rows }
  /-- what the group needs is read -/
  | fetched {read : String → String → Option String → Option Json} {settings : EngineSettings}
      {rows : List (Origin × RowChange)} : s.phase = .grouped settings rows →
      Does s (.fetch (.ok read)) { s with
        phase := .writing settings (engine.fetchCompletions read (rows.map Prod.snd)) rows }
  /-- it cannot be read -/
  | unread {e : CoreError} {settings : EngineSettings} {rows : List (Origin × RowChange)} :
      s.phase = .grouped settings rows →
      Does s (.fetch (.error e)) { s with phase := .ended (.error e) }
  /-- a row is written -/
  | wrote {settings : EngineSettings} {completions : Completions} {origin : Origin}
      {row : RowChange} {rest : List (Origin × RowChange)} {after : EngineState} :
      s.phase = .writing settings completions ((origin, row) :: rest) →
      engine.writeRow settings completions origin row s = .ok after →
      Does s .write { after with phase := .writing settings completions rest }
  /-- it cannot be written -/
  | unwritten {settings : EngineSettings} {completions : Completions} {origin : Origin}
      {row : RowChange} {rest : List (Origin × RowChange)} {e : CoreError} :
      s.phase = .writing settings completions ((origin, row) :: rest) →
      engine.writeRow settings completions origin row s = .error e →
      Does s .write { s with phase := .ended (.error e) }
  /-- the group is written -/
  | written {settings : EngineSettings} {completions : Completions} :
      s.phase = .writing settings completions [] → Does s .write { s with phase := .idle }
  /-- the stream's channel is closed -/
  | closedEvents : s.phase = .idle → s.deferred = none → s.events = [] →
      Does s .closeEvents { s with
        eventsOpen := false, phase := if s.copyOpen then .idle else .ended (.ok ()) }
  /-- the load's channel is -/
  | closedCopy : s.phase = .idle → s.deferred = none → s.events = [] → s.copy = [] →
      Does s .closeCopy { s.wipe with
        copyOpen := false, phase := if s.eventsOpen then .idle else .ended (.ok ()) }
  /-- the pipeline is stopped -/
  | stopped : s.phase = .idle → Does s .shutdown { s with phase := .ended (.ok ()) }
  /-- it cannot hand anything over -/
  | cutOff : Does s .sinkGone { s with phase := .ended (.error (.other "batch channel closed")) }

variable {engine : Engine} {s s' : EngineState}

theorem does {action : EngineAction} (h : engine.step s action = some s') :
    engine.Does s action s' := by
  cases action with
  | feed event | feedCopy event =>
    obtain ⟨hopen, h⟩ := Option.ite_none_right_eq_some.mp h
    cases h
    first | exact .fed hopen | exact .fedCopy hopen
  | turn settings held heldAgain overdue =>
    simp only [step] at h
    split at h
    · next hidle =>
      obtain ⟨⟨next, taken⟩, htake, rfl⟩ := Option.map_eq_some_iff.mp h
      exact .turned hidle htake
    · cases h
  | gather held =>
    simp only [step] at h
    split at h
    · next settings rows hphase =>
      split at h
      · next hroom =>
        split at h
        · next htry =>
          cases h
          exact .gathered hphase htry hroom
        · next next taken hother htry =>
          cases h
          exact .putAside hphase htry fun change heq => hother _ change (Prod.ext rfl heq)
        · next hnone =>
          cases h
          exact .grouped hphase fun _ => hnone
      · next hfull =>
        cases h
        exact .grouped hphase fun hroom => absurd hroom hfull
    · cases h
  | fetch read =>
    simp only [step] at h
    split at h
    · next hphase =>
      cases h
      exact .fetched hphase
    · next hphase =>
      cases h
      exact .unread hphase
    · cases h
  | write =>
    simp only [step] at h
    split at h
    · next hphase =>
      split at h
      · next hwrite =>
        cases h
        exact .wrote hphase hwrite
      · next hwrite =>
        cases h
        exact .unwritten hphase hwrite
    · next hphase =>
      cases h
      exact .written hphase
    · cases h
  | closeEvents =>
    simp only [step] at h
    split at h
    · next hidle hdeferred hevents =>
      cases h
      exact .closedEvents hidle hdeferred hevents
    · cases h
  | closeCopy =>
    simp only [step] at h
    split at h
    · next hidle hdeferred hevents hcopy =>
      cases h
      exact .closedCopy hidle hdeferred hevents hcopy
    · cases h
  | shutdown =>
    simp only [step] at h
    split at h
    · next hidle =>
      cases h
      exact .stopped hidle
    · cases h
  | sinkGone =>
    cases h
    exact .cutOff

/-- What a row of a group does. -/
theorem writeRow_ok {settings : EngineSettings} {completions : Completions} {origin : Origin}
    {row : RowChange} (h : engine.writeRow settings completions origin row s = .ok s') :
    engine.mapping.targetFor row.table = none ∧ s' = s ∨
      ∃ target ops left, engine.mapping.targetFor row.table = some target ∧
        materialize target row.table row.kind engine.rules (engine.previousOf completions row)
          row.version = .ok (ops, left) ∧
        s' = bufferOps settings origin (ops.filter fun op => !s.dead op) s := by
  rw [writeRow] at h
  split at h
  · next hnone => exact .inl ⟨hnone, (Except.ok.inj h).symm⟩
  · next target htarget =>
    obtain ⟨⟨ops, left⟩, hops, rfl⟩ := Except.map_eq_ok h
    exact .inr ⟨target, ops, left, htarget, hops, rfl⟩

end Engine

end Pg2osync
