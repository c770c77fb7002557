import Pg2osync.AckSafety
import Pg2osync.OpenTransaction

/-!
# From the load's channel to the target

Rows that a load sends go down one channel, through the engine and the sink loop, and a
mark goes the same way: the sink reports it when every write before it has ended well.
This is the way as a whole, with the stream beside it. Who sends, and what is waited for,
is left to the systems built over it.

A tag says of each row sent what it is to its sender. The fields marked ghost record the
run for the statements; no step reads them.
-/

namespace Pg2osync

/-- The operations of some commands. -/
def opsIn (commands : List SinkCommand) : List DocumentOp :=
  (batches commands).flatten.map (·.op)

/-- The marks among some commands. -/
def marksIn (commands : List SinkCommand) : List ℕ :=
  commands.filterMap fun
    | .loadMark mark => some mark
    | _ => none

/-- The operations that have been put out: handed over, or in the buffer. -/
def EngineState.putOut (s : EngineState) : List DocumentOp :=
  opsIn s.commands ++ s.buffer.map (·.op)

/-- A copied row as the engine has dealt with it. -/
structure WrittenRow : Type where
  /-- the row -/
  row : RowChange
  /-- what it comes to -/
  ops : List DocumentOp
  /-- what of it was put out: all but what the stream has superseded -/
  out : List DocumentOp
  /-- what had been put out then, up to this row's operations -/
  upTo : List DocumentOp

/-- The engine, the sink loop, and what has been sent down the load's channel. -/
structure PipeState (τ : Type) : Type where
  /-- the engine -/
  engine : EngineState
  /-- the sink loop -/
  sink : LoopState
  /-- the marks taken from the sequence; ghost: how many rows had been sent by then -/
  marks : List ℕ
  /-- ghost: the rows sent, by their tags -/
  sent : List (τ × RowChange)
  /-- ghost: the marks sent -/
  announced : List ℕ
  /-- ghost: the rows the engine has dealt with, in the order they were sent -/
  written : List WrittenRow
  /-- ghost: the marks the sink has reported -/
  reported : List ℕ

/-- What happens next. -/
inductive PipeAction (τ : Type) : Type where
  /-- a load sends a row -/
  | row (tag : τ) (change : RowChange) : PipeAction τ
  /-- a load sends anything but a row and a mark -/
  | copy (event : ChangeEvent) : PipeAction τ
  /-- a mark is taken -/
  | take : PipeAction τ
  /-- a mark that was taken is sent -/
  | mark (mark : ℕ) : PipeAction τ
  /-- the stream sends, or the engine goes on -/
  | engine (action : EngineAction) : PipeAction τ
  /-- the sink loop goes on -/
  | sink (action : LoopAction) : PipeAction τ

/-- What a load sends beside rows and marks. -/
def ChangeEvent.isBoundary : ChangeEvent → Bool
  | .commit lsn => lsn = 0
  | .loadStarted | .loadFinished => true
  | _ => false

/-- An engine and the sink loop behind it. -/
structure Pipeline : Type where
  /-- the engine -/
  engine : Engine
  /-- the loop -/
  loop : SinkLoop

/-- What a row comes to. -/
def Engine.opsOf (engine : Engine) (completions : Completions) (row : RowChange) :
    List DocumentOp :=
  match engine.mapping.targetFor row.table with
  | none => []
  | some target =>
    match materialize target row.table row.kind engine.rules (engine.previousOf completions row)
        row.version with
    | .ok (ops, _) => ops
    | .error _ => []

/-- The copied row that a step of the engine has dealt with. -/
def Engine.writtenRow (engine : Engine) (s e : EngineState) (action : EngineAction) :
    List WrittenRow :=
  match action, s.phase, e.phase with
  | .write, .writing _ completions ((.copy, row) :: _), .writing _ _ _ =>
    let ops := engine.opsOf completions row
    [⟨row, ops, ops.filter fun op => !s.dead op, e.putOut⟩]
  | _, _, _ => []

/-- What is not a load's to do: the stream sends, or the engine goes on. -/
def EngineAction.besideLoads : EngineAction → Bool
  | .feed event => event.isStream
  | .feedCopy _ => false
  | _ => true

/-- The mark that a step of the sink loop reports. -/
def reportedBy (s : LoopState) : LoopAction → List ℕ
  | .execute _ =>
    match s.phase with
    | .draining (.loadMark mark) => [mark]
    | _ => []
  | _ => []

namespace PipeState

/-- Nothing has been sent. -/
def start (τ : Type) : PipeState τ :=
  ⟨.start, SinkLoop.start, [], [], [], [], []⟩

variable {τ : Type}

/-- What the channel between the engine and the sink loop has for the loop: the next
command, or its end. -/
def offers (s : PipeState τ) : LoopAction → Bool
  | .receive command => s.engine.commands[s.sink.taken.length]? = some command
  | .close =>
    match s.engine.phase with
    | .ended _ => s.sink.taken.length = s.engine.commands.length
    | _ => false
  | _ => true

/-- An operation is in a write that has ended well, with what the sink refused of it
recorded. -/
def Settled (s : PipeState τ) (op : DocumentOp) : Prop :=
  ∃ n ≤ s.sink.taken.length, op ∈ opsIn (s.sink.taken.take n) ∧ SettledBefore s.sink n

/-- A row is durable: the engine has dealt with it, and every operation that it has put out
for it is settled. -/
def Durable (s : PipeState τ) (k : ℕ) : Prop :=
  ∃ row, s.written[k]? = some row ∧ s.sent[k]?.map Prod.snd = some row.row ∧
    ∀ op ∈ row.out, s.Settled op

/-- How many rows had been sent when a mark was taken. -/
def promise (s : PipeState τ) (mark : ℕ) : ℕ :=
  s.marks[mark - 1]?.getD 0

end PipeState

namespace Pipeline

variable (p : Pipeline) {τ : Type}

/-- Something is sent down the load's channel. -/
def feedCopy (s : PipeState τ) (event : ChangeEvent) : Option (PipeState τ) :=
  (p.engine.step s.engine (.feedCopy event)).map fun e => { s with engine := e }

/-- One action, where it can be taken. -/
def step (s : PipeState τ) : PipeAction τ → Option (PipeState τ)
  | .row tag change =>
    (p.feedCopy s (.row change)).map fun s => { s with sent := s.sent ++ [(tag, change)] }
  | .copy event => if event.isBoundary then p.feedCopy s event else none
  | .take => some { s with marks := s.marks ++ [s.sent.length] }
  | .mark mark =>
    if 0 < mark ∧ mark ≤ s.marks.length then
      (p.feedCopy s (.loadMark mark)).map fun s => { s with announced := s.announced ++ [mark] }
    else none
  | .engine action =>
    if action.besideLoads then
      (p.engine.step s.engine action).map fun e =>
        { s with engine := e, written := s.written ++ p.engine.writtenRow s.engine e action }
    else none
  | .sink action =>
    if s.offers action then
      (p.loop.step s.sink action).map fun k =>
        { s with sink := k, reported := s.reported ++ reportedBy s.sink action }
    else none

end Pipeline

end Pg2osync
