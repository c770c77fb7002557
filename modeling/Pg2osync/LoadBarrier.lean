import Mathlib.Logic.ExistsUnique
import Pg2osync.LoadProgress
import Pg2osync.Superseded

/-!
# Progress behind the barrier

PostgreSQL's loader reads a table range by range, one wave of ranges at a time. The
readers of a wave send their rows side by side; when all have sent theirs the loader takes
a mark, sends it, waits until the sink reports one as high, and only then writes down how
many leading ranges are done. An attempt may end anywhere, and the next one goes on from
what is written down.

Whatever else goes the same way meanwhile, other loads' rows and marks included, may come
between any two steps. The server's part is what a range holds when it is read, and where
the table is cut.
-/

namespace Pg2osync

/-- One table as its load reads it. -/
structure LoadTable (κ ρ : Type) : Type where
  /-- the key a literal denotes -/
  meaning : String → κ
  /-- the key of a row -/
  key : ρ → κ
  /-- there is one key column, and the ranges are of it -/
  keyed : Bool
  /-- what the statement asks beside the range: the row is not soft-deleted, and passes the
  table's filter and the operator's -/
  selects : ρ → Bool
  /-- `build_change`: the row as it is sent, at the position read before its range -/
  buildChange : Lsn → ρ → RowChange

/-- A range as it was read. -/
structure Reading (ρ : Type) : Type where
  /-- the range -/
  range : KeyRange
  /-- the position read before it -/
  lsn : Lsn
  /-- the rows of the table at that time -/
  content : List ρ

/-- How far a loader is with its table. -/
inductive BarrierPhase : Type where
  /-- it has not come to it -/
  | visiting : BarrierPhase
  /-- it has cut it, and writes that down -/
  | cut : BarrierPhase
  /-- it is between two waves -/
  | between : BarrierPhase
  /-- the readers of a wave: what each has to send, once it has read its range -/
  | reading (readers : List (Option (List RowChange))) : BarrierPhase
  /-- a wave of so many ranges is sent, and a mark taken for it -/
  | marked (width mark : ℕ) : BarrierPhase
  /-- the mark is sent -/
  | waiting (width mark : ℕ) : BarrierPhase
  /-- it was reported, and the progress is written down -/
  | confirmed : BarrierPhase
  /-- every range is done, and this is written down -/
  | finishing : BarrierPhase
  /-- the table is behind -/
  | passed : BarrierPhase

/-- An attempt of the pipeline. -/
structure BarrierAttempt : Type where
  /-- the way to the target -/
  pipe : PipeState Unit
  /-- how many readers there are -/
  workers : ℕ
  /-- the boundaries of the ranges -/
  boundaries : List String
  /-- how many leading ranges are done -/
  done : ℕ
  /-- where the loader is -/
  phase : BarrierPhase

/-- The table's progress in the target, and the attempt that is made. -/
structure BarrierState (ρ : Type) : Type where
  /-- the progress document -/
  doc : Option Json
  /-- the attempt -/
  attempt : Option BarrierAttempt
  /-- ghost: how the attempts before it ended -/
  past : List (PipeState Unit)
  /-- ghost: how each range was read last -/
  lastRead : ℕ → Option (Reading ρ)

/-- What happens next. -/
inductive BarrierAction (ρ : Type) : Type where
  /-- an attempt begins -/
  | start (workers : ℕ) : BarrierAction ρ
  /-- the loader comes to the table, which the server would cut here -/
  | visit (sampled : List String) : BarrierAction ρ
  /-- the cut is written down -/
  | store : BarrierAction ρ
  /-- a wave begins -/
  | wave : BarrierAction ρ
  /-- a reader reads its range -/
  | read (reader : ℕ) (lsn : Lsn) (content : List ρ) : BarrierAction ρ
  /-- a reader sends a row -/
  | send (reader : ℕ) : BarrierAction ρ
  /-- the wave is sent, and a mark is taken -/
  | take : BarrierAction ρ
  /-- the mark is sent -/
  | sendMark : BarrierAction ρ
  /-- a mark as high is reported -/
  | confirm : BarrierAction ρ
  /-- the progress is written down -/
  | record : BarrierAction ρ
  /-- no range is left -/
  | finish : BarrierAction ρ
  /-- this is written down -/
  | recordFinished : BarrierAction ρ
  /-- every table is behind, and the document is removed -/
  | clear : BarrierAction ρ
  /-- anything else that goes the same way, the engine and the sink loop -/
  | beside (action : PipeAction Unit) : BarrierAction ρ
  /-- the attempt ends -/
  | crash : BarrierAction ρ

namespace LoadTable

variable {κ ρ : Type} [LinearOrder κ] (t : LoadTable κ ρ)

/-- The rows that the statement of a range yields, as they are sent. -/
def copied (reading : Reading ρ) : List RowChange :=
  (reading.content.filter fun row =>
    (!t.keyed || reading.range.holds t.meaning (t.key row)) && t.selects row).map
      (t.buildChange reading.lsn)

/-- One action within an attempt. -/
def attemptStep (p : Pipeline) (s : BarrierState ρ) (a : BarrierAttempt) :
    BarrierAction ρ → Option (BarrierState ρ)
  | .visit sampled =>
    match a.phase, s.doc.bind LoadProgress.fromDoc with
    | .visiting, none =>
      some { s with attempt := some { a with boundaries := sampled, done := 0, phase := .cut } }
    | .visiting, some ⟨_, true⟩ => some { s with attempt := some { a with phase := .passed } }
    | .visiting, some ⟨.ranges boundaries done, false⟩ =>
      some { s with
        attempt := some { a with boundaries := boundaries, done := done, phase := .between } }
    | .visiting, some ⟨.after _, false⟩ =>
      some { s with attempt := none, past := a.pipe :: s.past }
    | _, _ => none
  | .store =>
    match a.phase with
    | .cut => some { s with
        doc := some (LoadProgress.toDoc ⟨.ranges a.boundaries a.done, false⟩)
        attempt := some { a with phase := .between } }
    | _ => none
  | .wave =>
    match a.phase with
    | .between =>
      let left := (rangesFromBounds a.boundaries).length - a.done
      if 0 < left then
        some { s with attempt := some { a with
          phase := .reading (List.replicate (min (max a.workers 1) left) none) } }
      else none
    | _ => none
  | .read i lsn content =>
    match a.phase, (rangesFromBounds a.boundaries)[a.done + i]? with
    | .reading readers, some range =>
      match readers[i]? with
      | some none =>
        let reading := ⟨range, lsn, content⟩
        some { s with
          attempt := some { a with phase := .reading (readers.set i (some (t.copied reading))) }
          lastRead := Function.update s.lastRead (a.done + i) (some reading) }
      | _ => none
    | _, _ => none
  | .send i =>
    match a.phase with
    | .reading readers =>
      match readers[i]? with
      | some (some (change :: rest)) =>
        (p.step a.pipe (.row () change)).map fun pipe => { s with
          attempt := some { a with pipe := pipe, phase := .reading (readers.set i (some rest)) } }
      | _ => none
    | _ => none
  | .take =>
    match a.phase with
    | .reading readers =>
      if ∀ reader ∈ readers, reader = some [] then
        (p.step a.pipe .take).map fun pipe => { s with
          attempt := some { a with
            pipe := pipe, phase := .marked readers.length (a.pipe.marks.length + 1) } }
      else none
    | _ => none
  | .sendMark =>
    match a.phase with
    | .marked width mark =>
      (p.step a.pipe (.mark mark)).map fun pipe => { s with
        attempt := some { a with pipe := pipe, phase := .waiting width mark } }
    | _ => none
  | .confirm =>
    match a.phase with
    | .waiting width mark =>
      if mark ≤ a.pipe.sink.loadDone then
        some { s with attempt := some { a with done := a.done + width, phase := .confirmed } }
      else none
    | _ => none
  | .record =>
    match a.phase with
    | .confirmed => some { s with
        doc := some (LoadProgress.toDoc ⟨.ranges a.boundaries a.done, false⟩)
        attempt := some { a with phase := .between } }
    | _ => none
  | .finish =>
    match a.phase with
    | .between =>
      if (rangesFromBounds a.boundaries).length ≤ a.done then
        some { s with attempt := some { a with phase := .finishing } }
      else none
    | _ => none
  | .recordFinished =>
    match a.phase with
    | .finishing => some { s with
        doc := some (LoadProgress.toDoc ⟨.ranges a.boundaries a.done, true⟩)
        attempt := some { a with phase := .passed } }
    | _ => none
  | .clear =>
    match a.phase with
    | .passed => some { s with doc := none }
    | _ => none
  | .beside action =>
    (p.step a.pipe action).map fun pipe => { s with attempt := some { a with pipe := pipe } }
  | .crash => some { s with attempt := none, past := a.pipe :: s.past }
  | .start _ => none

/-- The load of a table over attempt after attempt. -/
def barrier (p : Pipeline) : Transition.System (BarrierState ρ) (BarrierAction ρ) where
  initial s := s = ⟨none, none, [], fun _ => none⟩
  step s action :=
    match s.attempt, action with
    | some a, action => t.attemptStep p s a action
    | none, .start workers =>
      some { s with attempt := some ⟨.start Unit, workers, [], 0, .visiting⟩ }
    | none, _ => none

end LoadTable

/-! ## What progress says -/

/-- A copied row has come through: every operation it comes to is settled, or was dropped
because its document was removed at a higher position. -/
def PipeState.Delivered (s : PipeState Unit) (change : RowChange) : Prop :=
  ∃ row ∈ s.written, row.row = change ∧ ∀ op ∈ row.ops, s.Settled op ∨ s.Dropped op

namespace BarrierState

variable {ρ : Type}

/-- The way to the target as each attempt had it. -/
def pipes (s : BarrierState ρ) : List (PipeState Unit) :=
  (s.attempt.map BarrierAttempt.pipe).toList ++ s.past

/-- A copied row is durably written: every operation it comes to is settled. -/
def WrittenDown (s : BarrierState ρ) (change : RowChange) : Prop :=
  ∃ pipe ∈ s.pipes, ∃ row ∈ pipe.written, row.row = change ∧ ∀ op ∈ row.ops, pipe.Settled op

/-- A copied row has come through. -/
def Landed (s : BarrierState ρ) (change : RowChange) : Prop :=
  ∃ pipe ∈ s.pipes, pipe.Delivered change

end BarrierState

namespace LoadTable

variable {κ ρ : Type} [LinearOrder κ] (t : LoadTable κ ρ)

/-- Of a range that was read: each row that it held when it was read last, and that the
load asks for, is written. -/
def RangeWritten (lastRead : ℕ → Option (Reading ρ)) (boundaries : List String) (r : ℕ)
    (written : RowChange → Prop) : Prop :=
  ∀ range, (rangesFromBounds boundaries)[r]? = some range →
    ∃ reading, lastRead r = some reading ∧ reading.range = range ∧
      ∀ row ∈ reading.content, t.selects row = true →
        range.holds t.meaning (t.key row) = true → written (t.buildChange reading.lsn row)

/-- **Progress is behind the data**: every range that is recorded as done is written, and
every range at all once the table is. -/
def ProgressHolds (s : BarrierState ρ) (written : RowChange → Prop) : Prop :=
  ∀ boundaries done finished,
    s.doc.bind LoadProgress.fromDoc = some ⟨.ranges boundaries done, finished⟩ →
    ∀ r, r < done ∨ finished = true → t.RangeWritten s.lastRead boundaries r written

/-- One of the ranges holds a key. -/
def InRange (boundaries : List String) (key : κ) (r : ℕ) : Prop :=
  ∃ range ∈ (rangesFromBounds boundaries)[r]?, KeyRange.holds t.meaning range key = true

/-- **The ranges partition the keys**: every key is in exactly one, so that the ranges from
one on hold exactly the keys that the ranges before it do not. -/
def Partitions (boundaries : List String) : Prop :=
  ∀ key, (∃! r, t.InRange boundaries key r) ∧
    ∀ done, (∃ r ≥ done, t.InRange boundaries key r) ↔ ¬ ∃ r < done, t.InRange boundaries key r

end LoadTable

end Pg2osync
