import Mathlib.Data.List.Sort
import Mathlib.Logic.Function.Basic
import Pg2osync.LoadProgress
import Pg2osync.Transition

/-!
# Attempts and their initial load

A pipeline runs attempt after attempt. Each one decides from what the target holds
where to resume streaming and whether to load, then loads beside the stream while
the checkpoint task persists positions. An attempt may end at any of its steps, by
a crash or by a failure of either half; the next one finds the target as it was
left.

A state is an attempt between two of its awaits. What the environment decides is in
the action: the slot's position, the sampled boundaries, the rows that have joined a
table since, the position that was persisted, whether a removal went through.
-/

namespace Pg2osync

/-- The two sources a pipeline streams from. -/
inductive SourceKind : Type where
  /-- PostgreSQL -/
  | postgres : SourceKind
  /-- MySQL -/
  | mysql : SourceKind
  deriving DecidableEq, Repr

/-- `usable_checkpoint`: a checkpoint is another stream's or this one's. -/
def usableCheckpoint (stored : Option Checkpoint) (expected : StreamId) : Option Checkpoint :=
  stored.filter fun c => c.stream.source = expected.source ∧ c.stream.stream = expected.stream

/-- `resume_position`: which position a reconnect may resume streaming from. -/
def resumePosition (polling : Bool) (checkpoint slot : Option Lsn) : Option Lsn :=
  if polling then none
  else match checkpoint, slot with
    | none, _ => none
    | some checkpoint, none => some checkpoint
    | some checkpoint, some slot => if checkpoint < slot then none else some checkpoint

/-- Where an attempt is. The list of a point holds the tables after the one the
load is at. -/
inductive LoadPoint : Type where
  /-- MySQL: dropping the progress of a load that has no checkpoint -/
  | discarding (rest : List String) : LoadPoint
  /-- MySQL: about to persist the position streaming starts from -/
  | anchoring : LoadPoint
  /-- at the head of the loop over the tables -/
  | visiting (rest : List String) : LoadPoint
  /-- PostgreSQL: about to cut a table and record that its load has begun -/
  | cutting (table : String) (rest : List String) : LoadPoint
  /-- PostgreSQL: about to read a wave of ranges, or done with the table -/
  | ranges (table : String) (boundaries : List String) (done : ℕ) (rest : List String) : LoadPoint
  /-- PostgreSQL: a wave is written and not recorded -/
  | waved (table : String) (boundaries : List String) (done : ℕ) (rest : List String) : LoadPoint
  /-- MySQL: about to read a chunk -/
  | chunks (table : String) (cursor : Option (List String)) (rest : List String) : LoadPoint
  /-- MySQL: a chunk is written and not recorded -/
  | chunked (table : String) (cursor : Option (List String)) (finished : Bool)
      (rest : List String) : LoadPoint
  /-- the load has failed -/
  | failed (table : String) (rest : List String) : LoadPoint
  /-- every table is read; removing the progress documents -/
  | clearing (rest : List String) : LoadPoint
  /-- the load is done -/
  | over : LoadPoint
  /-- the attempt resumed without a load -/
  | skipped : LoadPoint
  deriving DecidableEq, Repr

/-- What happens next. -/
inductive LoadAction (κ : Type) : Type where
  /-- an attempt starts; the slot is at a position -/
  | start (slot : Option Lsn) : LoadAction κ
  /-- the next progress document is dropped, or cannot be -/
  | discard (cleared : Bool) : LoadAction κ
  /-- the starting position is read and persisted -/
  | anchor (token : ℕ) (position : String) : LoadAction κ
  /-- the loop takes the next table, or has none -/
  | visit : LoadAction κ
  /-- the table is cut at boundaries -/
  | cut (boundaries : List String) : LoadAction κ
  /-- a wave of ranges is read and written -/
  | wave : LoadAction κ
  /-- a chunk is read and written; other rows have joined the table by now -/
  | chunk (others : List κ) : LoadAction κ
  /-- the progress is recorded -/
  | record : LoadAction κ
  /-- the next progress document is removed, or cannot be -/
  | clear (cleared : Bool) : LoadAction κ
  /-- the checkpoint task persists a position -/
  | persist (token : ℕ) (position : String) : LoadAction κ
  /-- the attempt ends -/
  | stop : LoadAction κ

/-- What the target holds of the load, and the attempt, if one is running. -/
structure LoadState (κ : Type) : Type where
  /-- the stored checkpoint -/
  checkpoint : Option Checkpoint
  /-- the stored state documents -/
  progress : String → Option Json
  /-- where the attempt is -/
  attempt : Option LoadPoint
  /-- ghost: the rows read and durably written, by table -/
  read : List (String × κ)

/-- A pipeline whose load is in question. `rows` are the rows a table had from the
start and keeps; rows that come and go beside them are the stream's. -/
structure LoadRun (κ : Type) [LinearOrder κ] : Type where
  /-- which source -/
  kind : SourceKind
  /-- which stream -/
  stream : StreamId
  /-- the configured tables -/
  tables : List String
  /-- MySQL: the child and aggregated tables, which its load reads after them -/
  watched : List String
  /-- PostgreSQL: whether changes are polled for -/
  polling : Bool
  /-- PostgreSQL: how many ranges are read at once -/
  readers : ℕ
  /-- MySQL: how many rows a chunk has -/
  chunkRows : ℕ
  /-- `char::is_alphanumeric` -/
  alphanumeric : Char → Bool
  /-- `parse_stored_position` -/
  parseStoredPosition : String → Option (String × ℕ)
  /-- the rows of a table, by key -/
  rows : String → List κ
  /-- the key that literals denote -/
  meaning : String → List String → κ
  /-- `key_literals` -/
  keyLiterals : String → κ → Option (List String)
  /-- how many columns a table's key has -/
  keyColumns : String → ℕ
  /-- MySQL: whether a table is read chunk by chunk -/
  chunked : String → Bool
  /-- a literal means exactly what the value means -/
  meaning_keyLiterals : ∀ table key literals, keyLiterals table key = some literals →
    meaning table literals = key
  /-- a table read chunk by chunk has a key -/
  keyColumns_pos : ∀ table, chunked table = true → 0 < keyColumns table
  /-- a table is watched once -/
  watched_fresh : ∀ table ∈ watched, table ∉ tables

namespace LoadRun

variable {κ : Type} [LinearOrder κ] (run : LoadRun κ)

/-- Where a table's progress is stored. -/
def progressKey (table : String) : String :=
  loadProgressKey run.alphanumeric run.stream table

/-- The progress stored for a table. -/
def stored (s : LoadState κ) (table : String) : Option LoadProgress :=
  (s.progress (run.progressKey table)).bind LoadProgress.fromDoc

/-- `unfinished`: a previous load left a table unfinished. -/
def unfinished (s : LoadState κ) : Bool :=
  run.tables.any fun table => (run.stored s table).any fun p => !p.finished

/-- A table's load is recorded finished. -/
def recordedFinished (s : LoadState κ) (table : String) : Bool :=
  (run.stored s table).any fun p => p.finished

/-- The tables a load reads, in order. -/
def admitted : List String :=
  match run.kind with
  | .postgres => run.tables
  | .mysql => run.tables ++ run.watched

/-- The position an attempt resumes from, if it resumes. -/
def resume (s : LoadState κ) (slot : Option Lsn) : Option Lsn :=
  let stored := usableCheckpoint s.checkpoint run.stream
  match run.kind with
  | .postgres =>
    let stored := if run.polling then none else stored
    let slot := if run.polling then none else slot
    resumePosition run.polling (stored.map Checkpoint.token) slot
  | .mysql => (stored.bind fun c => run.parseStoredPosition c.position).map Prod.snd

/-- What an attempt decides at its start: whether to load, and what MySQL does
first when it cannot resume. -/
def begin (s : LoadState κ) (slot : Option Lsn) : LoadPoint :=
  match run.kind, run.resume s slot, run.unfinished s with
  | .postgres, none, _ | .postgres, some _, true => .visiting run.admitted
  | .postgres, some _, false => .skipped
  | .mysql, some _, true => .visiting run.admitted
  | .mysql, some _, false => .skipped
  | .mysql, none, true => .discarding run.tables
  | .mysql, none, false => .anchoring

/-- Where the load of a table goes, from what is stored about it. -/
def visit (s : LoadState κ) (table : String) (rest : List String) : LoadPoint :=
  match run.stored s table, run.kind with
  | some ⟨_, true⟩, _ => .visiting rest
  | some ⟨.ranges boundaries done, false⟩, .postgres => .ranges table boundaries done rest
  | some ⟨.after _, false⟩, .postgres => .failed table rest
  | none, .postgres => .cutting table rest
  | some ⟨.after key, false⟩, .mysql =>
    .chunks table (if !key.isEmpty && run.chunked table then some key else none) rest
  | some ⟨.ranges _ _, false⟩, .mysql | none, .mysql => .chunks table none rest

/-- The rows of a range. -/
def rangeRows (table : String) (range : KeyRange) : List κ :=
  (run.rows table).filter (range.holds fun literal => run.meaning table [literal])

/-- The rows a chunk's statement looks at: past the cursor, if there is one that
fits the key. -/
def pastCursor (table : String) (cursor : Option (List String)) (key : κ) : Bool :=
  match cursor with
  | some literals =>
    if literals.length = run.keyColumns table then run.meaning table literals < key else true
  | none => true

/-- The rows of a chunk: the first ones past the cursor, in key order. -/
def chunkRowsOf (table : String) (cursor : Option (List String)) (others : List κ) : List κ :=
  let present := ((run.rows table ++ others).filter (run.pastCursor table cursor)).dedup
    |>.insertionSort (· ≤ ·)
  if run.chunked table then present.take (max run.chunkRows 1) else present

/-- `write_state` for a table's progress. -/
def write (s : LoadState κ) (table : String) (progress : LoadProgress) : LoadState κ :=
  { s with progress := Function.update s.progress (run.progressKey table) (some progress.toDoc) }

/-- `clear_state` for a table's progress. -/
def clearState (s : LoadState κ) (table : String) (cleared : Bool) : LoadState κ :=
  { s with progress :=
      if cleared then Function.update s.progress (run.progressKey table) none else s.progress }

/-- Whether the engine, and with it the checkpoint task, is running. -/
def streams : LoadPoint → Bool
  | .discarding _ | .anchoring => false
  | _ => true

/-- One action, where it can be taken. -/
def step (s : LoadState κ) : LoadAction κ → Option (LoadState κ)
  | .start slot =>
    match s.attempt with
    | none => some { s with attempt := some (run.begin s slot) }
    | some _ => none
  | .discard cleared =>
    match s.attempt with
    | some (.discarding (table :: rest)) =>
      some { run.clearState s table cleared with attempt := some (.discarding rest) }
    | some (.discarding []) => some { s with attempt := some .anchoring }
    | _ => none
  | .anchor token position =>
    match s.attempt with
    | some .anchoring => some { s with
        checkpoint := some ⟨run.stream, token, position⟩
        attempt := some (.visiting run.admitted) }
    | _ => none
  | .visit =>
    match s.attempt with
    | some (.visiting (table :: rest)) => some { s with attempt := some (run.visit s table rest) }
    | some (.visiting []) => some { s with attempt := some (.clearing run.admitted) }
    | _ => none
  | .cut boundaries =>
    match s.attempt with
    | some (.cutting table rest) =>
      -- a vector has fewer than `isize::MAX` elements
      if boundaries.length < 2 ^ 63 then some { run.write s table ⟨.ranges boundaries 0, false⟩ with
          attempt := some (.ranges table boundaries 0 rest) }
      else none
    | _ => none
  | .wave =>
    match s.attempt with
    | some (.ranges table boundaries done rest) =>
      let ranges := rangesFromBounds boundaries
      if done < ranges.length then
        let wave := (ranges.drop done).take run.readers
        some { s with
          attempt := some (.waved table boundaries (done + wave.length) rest)
          read := s.read ++ (wave.flatMap (run.rangeRows table)).map (table, ·) }
      else none
    | _ => none
  | .chunk others =>
    match s.attempt with
    | some (.chunks table cursor rest) =>
      let chunk := run.chunkRowsOf table cursor others
      let finished := !run.chunked table || chunk.length < max run.chunkRows 1
      let last := if run.chunked table then chunk.getLast?.bind (run.keyLiterals table) else none
      some { s with
        -- a full chunk without a key to continue from is an error
        attempt := some (if !finished && last.isNone then .failed table rest
          else .chunked table last finished rest)
        read := s.read ++ chunk.map (table, ·) }
    | _ => none
  | .record =>
    match s.attempt with
    | some (.waved table boundaries done rest) =>
      some { run.write s table ⟨.ranges boundaries done, false⟩ with
        attempt := some (.ranges table boundaries done rest) }
    | some (.ranges table boundaries done rest) =>
      if (rangesFromBounds boundaries).length ≤ done then
        some { run.write s table ⟨.ranges boundaries done, true⟩ with
          attempt := some (.visiting rest) }
      else none
    | some (.chunked table cursor finished rest) =>
      some { run.write s table ⟨.after (cursor.getD []), finished⟩ with
        attempt := some (if finished then .visiting rest else .chunks table cursor rest) }
    | _ => none
  | .clear cleared =>
    match s.attempt with
    | some (.clearing (table :: rest)) =>
      some { run.clearState s table cleared with attempt := some (.clearing rest) }
    | some (.clearing []) => some { s with attempt := some .over }
    | _ => none
  | .persist token position =>
    match s.attempt with
    | some point =>
      if streams point then some { s with checkpoint := some ⟨run.stream, token, position⟩ }
      else none
    | none => none
  | .stop =>
    match s.attempt with
    | some _ => some { s with attempt := none }
    | none => none

/-- A pipeline that has never run: no checkpoint of its stream, no progress. -/
def Fresh (s : LoadState κ) : Prop :=
  usableCheckpoint s.checkpoint run.stream = none ∧ (∀ key, s.progress key = none) ∧
    s.attempt = none ∧ s.read = []

/-- A pipeline's attempts as a transition system. -/
def system : Transition.System (LoadState κ) (LoadAction κ) where
  initial := run.Fresh
  step := run.step

/-! ## What is asked of a run -/

/-- The tables that the load of an attempt has not passed. -/
def ahead : LoadPoint → List String
  | .discarding _ | .anchoring => run.admitted
  | .visiting rest => rest
  | .cutting table rest | .ranges table _ _ rest | .waved table _ _ rest
  | .chunks table _ rest | .chunked table _ _ rest | .failed table rest => table :: rest
  | .clearing _ | .over | .skipped => []

/-- The attempt has no load, or has passed its last table. -/
def pastLoad (s : LoadState κ) : Bool :=
  s.attempt.any fun point => (run.ahead point).isEmpty

/-- Every row of a table has been read. -/
def WholeRead (s : LoadState κ) (table : String) : Prop :=
  ∀ key ∈ run.rows table, (table, key) ∈ s.read

/-- **No load is skipped**: a table recorded finished has been read, and so has
every configured table once an attempt is past its load, be it that the load went
through them or that the attempt resumed without one. -/
structure NeverSkips (s : LoadState κ) : Prop where
  /-- what is recorded finished is -/
  recorded : ∀ table ∈ run.tables, run.recordedFinished s table = true → run.WholeRead s table
  /-- an attempt that is past its load leaves nothing unread -/
  past : run.pastLoad s = true → ∀ table ∈ run.tables, run.WholeRead s table

/-- The target holds a checkpoint that an attempt would resume from, as far as it
depends on the target. -/
def resumable (s : LoadState κ) : Bool :=
  match run.kind with
  | .postgres => !run.polling && (usableCheckpoint s.checkpoint run.stream).isSome
  | .mysql =>
    ((usableCheckpoint s.checkpoint run.stream).bind fun c =>
      run.parseStoredPosition c.position).isSome

/-- An attempt may end here: there is no checkpoint to resume from, or an unfinished
progress document is stored, or the load has nothing ahead that is not recorded
finished. -/
def stopsSafely (s : LoadState κ) : LoadAction κ → Bool
  | .stop => !run.resumable s || run.unfinished s || s.attempt.all fun point =>
      run.tables.all fun table => !(run.ahead point).contains table || run.recordedFinished s table
  | _ => true

/-- No two configured tables record their progress in one document. -/
def DistinctKeys : Prop :=
  ∀ a ∈ run.tables, ∀ b ∈ run.tables, run.progressKey a = run.progressKey b → a = b

end LoadRun

end Pg2osync
