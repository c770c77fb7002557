import Pg2osync.OpenTransaction

/-!
# A committed transaction does not wait

A commit hands the buffer over, unless another event is waiting: then the buffer waits
for company, and the event is put aside for the next turn. Some events hand the buffer
over themselves, some begin a group of rows, and some do nothing at all. The loop then
goes to sleep with the buffer as it is.

The record below counts the commits of the stream, says of every operation in the
buffer which transaction it belongs to, and knows whether the load's channel is held
back by its rate: taking a copied row may use the allowance up, and time gives it back.
-/

namespace Pg2osync

open EngineState

/-- The engine, the rate of its load, and the record of the stream's transactions. -/
structure CommitState : Type where
  /-- the engine -/
  engine : EngineState
  /-- whether the rate holds the load's channel back -/
  held : Bool
  /-- the commits of the stream that the engine has seen, by position -/
  commits : List Lsn
  /-- the transaction of each operation in the buffer, by the commits before its own; a
  copied row has none -/
  owners : List (Option ℕ)
  /-- of each command, the transactions that were complete and that it has rows of -/
  cargo : List (List ℕ)

/-- What happens next. -/
inductive CommitAction : Type where
  /-- a step of the engine; a copied row that it takes may use the allowance up -/
  | act (action : EngineAction) (spent : Bool) : CommitAction
  /-- the rate lets another row through, or is changed -/
  | release : CommitAction

/-- Whether an event is a row. -/
def ChangeEvent.isRow : ChangeEvent → Bool
  | .row _ => true
  | _ => false

/-- Whether a step finds the load's channel held back exactly if it is. -/
def EngineAction.finds (held : Bool) : EngineAction → Bool
  | .turn _ first again _ => first == held && again == held
  | .gather found => found == held
  | _ => true

/-- Whether a step took a copied row off its channel. -/
def EngineState.tookRow (s e : EngineState) : Bool :=
  (s.copy.take (s.copy.length - e.copy.length)).any ChangeEvent.isRow

/-- The loop waits: there is nothing put aside and nothing that it may take. -/
def EngineState.Blocked (held : Bool) (s : EngineState) : Prop :=
  s.phase = .idle ∧ s.deferred = none ∧ s.tryNext held = none

namespace CommitState

/-- The commits after an event. -/
def note (ev : ChangeEvent) (s : CommitState) : CommitState :=
  match ev with
  | .commit lsn => if lsn = 0 then s else { s with commits := s.commits ++ [lsn] }
  | _ => s

/-- The transaction that the next row to be written belongs to. -/
def owner (s : CommitState) : Option ℕ :=
  match s.engine.phase with
  | .writing _ _ ((.stream, _) :: _) => some s.commits.length
  | _ => none

/-- Which transactions are complete, of those that the operations belong to. -/
def complete (s : CommitState) (owners : List (Option ℕ)) : List ℕ :=
  owners.filterMap fun owner => owner.filter (· < s.commits.length)

/-- The engine goes on to `e`: what it put out joins the buffer, and leaves with the
rest of it if that was handed over. -/
def record (owner : Option ℕ) (e : EngineState) (s : CommitState) : CommitState :=
  let news := (e.log.drop s.engine.log.length).filter Emitted.isOp
  let owners := s.owners ++ news.map fun _ => owner
  let commands := e.commands.drop s.engine.commands.length
  { s with
    engine := e
    owners := if batches commands = [] then owners else []
    cargo := s.cargo ++ commands.map fun command =>
      if command.isWrite then s.complete owners else [] }

end CommitState

namespace Engine

variable (engine : Engine)

/-- One step of the engine, recorded. -/
def commitAct (s : CommitState) (action : EngineAction) : Option CommitState :=
  (engine.step s.engine action).map fun e =>
    match action with
    | .turn _ held _ _ =>
      match s.engine.takeEvent held with
      | some ((_, ev), _) => (s.note ev).record none e
      | none => { s with engine := e }
    | _ => s.record s.owner e

/-- One action. -/
def commitStep (s : CommitState) : CommitAction → Option CommitState
  | .act action spent =>
    if action.finds s.held then (engine.commitAct s action).map fun next =>
      { next with held := s.held || spent && s.engine.tookRow next.engine }
    else none
  | .release => some { s with held := false }

end Engine

/-- The engine and its record before anything was sent. -/
def CommitState.start : CommitState := ⟨.start, false, [], [], []⟩

namespace Engine

variable (engine : Engine)

/-- The engine and its record as a transition system. -/
def commitSystem : Transition.System CommitState CommitAction where
  initial s := s = .start
  step := engine.commitStep

end Engine

/-! ## What is asked of a run -/

/-- **While the loop waits, nothing of a committed transaction is in its buffer.** -/
def CommitState.NoneWaits (s : CommitState) : Prop :=
  s.engine.Blocked s.held → ∀ t, some t ∈ s.owners → s.commits.length ≤ t

/-- Whether an event moves the buffer on: it hands it over, puts it off for one that is
waiting, or begins a group of rows. -/
def Engine.moves (engine : Engine) (e : EngineState) : ChangeEvent → Bool
  | .commit _ | .row _ => true
  | .loadMark _ => !e.txnOpen
  | .tableTruncated table _ => (engine.truncateScope table).isSome
  | .begin _ | .loadStarted | .loadFinished | .schemaDrift _ _ => false

/-- Whether a row of a committed transaction is in the buffer. -/
def CommitState.holdsRows (s : CommitState) : Bool :=
  !(s.complete s.owners).isEmpty

/-- Another event is waiting behind one that leaves what is pending in the buffer, and
behind a group of rows that does. -/
def Engine.followed (engine : Engine) (pending : CommitState → Bool) (s : CommitState) :
    CommitAction → Bool
  | .act (.turn _ held again _) _ =>
    match s.engine.takeEvent held with
    | some ((_, ev), e) => !pending s || engine.moves e ev || (e.tryNext again).isSome
    | none => true
  | .act .write _ =>
    match s.engine.phase with
    | .writing _ _ [] =>
      !pending s || s.engine.deferred.isSome || (s.engine.tryNext s.held).isSome
    | _ => true
  | _ => true

/-! ## What a step does with the buffer -/

/-- The position that a command carries. A batch's is that of its last operation. -/
def SinkCommand.carried : SinkCommand → Lsn
  | .write batch => (batch.getLast?.map LsnOp.lsn).getD 0
  | .position lsn => lsn
  | .truncate _ _ _ | .loadMark _ => 0

/-- A command that is not a batch and has no position. -/
def SinkCommand.isPlain : SinkCommand → Bool
  | .truncate _ _ _ | .loadMark _ => true
  | .write _ | .position _ => false

/-- A commit that finds the buffer empty still has a position. -/
def announced (pos : Lsn) (buffer : List LsnOp) : List SinkCommand :=
  if buffer = [] ∧ pos ≠ 0 then [.position pos] else []

variable {held : Bool}

namespace EngineState

/-- The buffer becomes `b`, and stays or is handed over. -/
structure Ships (pos : Lsn) (b : List LsnOp) (s e : EngineState) : Prop where
  /-- what is put out is in it -/
  log : ∃ news, e.log = s.log ++ news ∧
    b.length = s.buffer.length + (news.filter Emitted.isOp).length
  /-- it stays, or goes in one batch -/
  buffer : (e.buffer = b ∧ ∃ rest, (∀ command ∈ rest, command.isPlain = true) ∧
      e.commands = s.commands ++ (announced pos b ++ rest)) ∨
    ((b = [] → pos = 0) ∧ e.buffer = [] ∧
      ∃ rest, (∀ command ∈ rest, command.isPlain = true) ∧
        e.commands = s.commands ++ .write b :: rest)

variable {s s' e : EngineState} {pos : Lsn} {b : List LsnOp}

/-- Nothing happens to it. -/
theorem Ships.of_eq (hlog : e.log = s.log) (hbuffer : e.buffer = s.buffer)
    (hcommands : e.commands = s.commands) : Ships 0 s.buffer s e where
  log := ⟨[], hlog.trans (List.append_nil _).symm, rfl⟩
  buffer := .inl ⟨hbuffer, [], fun _ h => absurd h List.not_mem_nil, by simp [hcommands, announced]⟩

/-- What comes before changes nothing. -/
theorem Ships.after (h : Ships pos b s' e) (hlog : s'.log = s.log) (hbuffer : s'.buffer = s.buffer)
    (hcommands : s'.commands = s.commands) : Ships pos b s e where
  log := by
    rw [← hlog, ← hbuffer]
    exact h.log
  buffer := by
    rw [← hcommands]
    exact h.buffer

/-- What comes after only adds a plain command. -/
theorem Ships.plain (h : Ships pos b s s') {commands : List SinkCommand}
    (hplain : ∀ command ∈ commands, command.isPlain = true) (hlog : e.log = s'.log)
    (hbuffer : e.buffer = s'.buffer) (hcommands : e.commands = s'.commands ++ commands) :
    Ships pos b s e where
  log := by
    rw [hlog]
    exact h.log
  buffer := by
    have hboth : ∀ rest : List SinkCommand, (∀ command ∈ rest, command.isPlain = true) →
        ∀ command ∈ rest ++ commands, command.isPlain = true := fun rest hrest command hmem =>
      (List.mem_append.mp hmem).elim (hrest command) (hplain command)
    obtain ⟨hb, rest, hrest, hsent⟩ | ⟨hne, hempty, rest, hrest, hsent⟩ := h.buffer
    · refine .inl ⟨hbuffer.trans hb, rest ++ commands, hboth rest hrest, ?_⟩
      rw [hcommands, hsent, List.append_assoc, List.append_assoc]
    · refine .inr ⟨hne, hbuffer.trans hempty, rest ++ commands, hboth rest hrest, ?_⟩
      rw [hcommands, hsent, List.append_assoc, List.cons_append]

/-- What comes after changes nothing. -/
theorem Ships.same (h : Ships pos b s s') (hlog : e.log = s'.log) (hbuffer : e.buffer = s'.buffer)
    (hcommands : e.commands = s'.commands) : Ships pos b s e :=
  h.plain (fun _ hmem => absurd hmem List.not_mem_nil) hlog hbuffer
    (hcommands.trans (List.append_nil _).symm)

theorem Ships.handOver (hne : s.buffer ≠ []) : Ships pos s.buffer s s.handOver where
  log := ⟨[], (List.append_nil _).symm, rfl⟩
  buffer := .inr ⟨fun hnil => absurd hnil hne, rfl, [], fun _ h => absurd h List.not_mem_nil, rfl⟩

/-- Taking an event off a channel changes nothing. -/
theorem tryNext_frame {next : Origin × ChangeEvent} (h : s.tryNext held = some (next, e)) :
    e.log = s.log ∧ e.buffer = s.buffer ∧
      e.commands = s.commands ∧ e.phase = s.phase ∧ e.deferred = s.deferred ∧
      e.coalescing = s.coalescing := by
  obtain ⟨origin, ev⟩ := next
  obtain ⟨-, rest, -, rfl⟩ | ⟨-, rest, -, rfl⟩ := tryNext_cases h
  · exact ⟨rfl, rfl, rfl, rfl, rfl, rfl⟩
  · exact ⟨rfl, rfl, rfl, rfl, rfl, rfl⟩

theorem takeEvent_frame {next : Origin × ChangeEvent} (h : s.takeEvent held = some (next, e)) :
    e.log = s.log ∧ e.buffer = s.buffer ∧
      e.commands = s.commands ∧ e.phase = s.phase ∧ e.deferred = none := by
  rw [takeEvent] at h
  split at h
  · cases h
    exact ⟨rfl, rfl, rfl, rfl, rfl⟩
  · next hnone =>
    obtain ⟨hlog, hbuffer, hcommands, hphase, hdeferred, -⟩ := tryNext_frame h
    exact ⟨hlog, hbuffer, hcommands, hphase, hdeferred.trans hnone⟩

theorem ships_handOverOrWait (held overdue : Bool) (hne : s.buffer ≠ []) :
    Ships pos s.buffer s (s.handOverOrWait held overdue) := by
  rw [handOverOrWait]
  split
  · next next s' htry =>
    obtain ⟨hlog, hbuffer, hcommands, -⟩ := tryNext_frame htry
    have hne' : s'.buffer ≠ [] := hbuffer ▸ hne
    split
    · have hships : Ships pos s'.buffer s' s'.handOver := .handOver hne'
      rw [hbuffer] at hships
      exact (hships.after hlog hbuffer hcommands).same rfl rfl rfl
    · refine ⟨⟨[], hlog.trans (List.append_nil _).symm, rfl⟩, .inl ⟨hbuffer, [], ?_, ?_⟩⟩
      · exact fun _ h => absurd h List.not_mem_nil
      · simp [announced, hne, hcommands]
  · exact (Ships.handOver hne).same rfl rfl rfl

/-- The buffer when a commit is done with its operations. -/
def stampedBy (lsn : Lsn) (buffer : List LsnOp) : List LsnOp :=
  if lsn = 0 then buffer else stamp lsn buffer

theorem stampedBy_length (lsn : Lsn) (buffer : List LsnOp) :
    (stampedBy lsn buffer).length = buffer.length := by
  rw [stampedBy]
  split
  · rfl
  · exact List.length_modify ..

theorem stampedBy_eq_nil {lsn : Lsn} {buffer : List LsnOp} :
    stampedBy lsn buffer = [] ↔ buffer = [] := by
  rw [← List.length_eq_zero_iff, stampedBy_length, List.length_eq_zero_iff]

theorem stampBuffer_buffer (lsn : Lsn) (s : EngineState) :
    (s.stampBuffer lsn).buffer = stampedBy lsn s.buffer := by
  rw [stampBuffer, stampedBy]
  split <;> rfl

theorem ships_commitBuffer (lsn : Lsn) (held overdue : Bool) (s : EngineState) :
    Ships lsn (stampedBy lsn s.buffer) s (s.commitBuffer lsn held overdue) := by
  rw [commitBuffer]
  split
  · next hempty =>
    have hnil : s.buffer = [] := List.isEmpty_iff.mp hempty
    have hstamped : stampedBy lsn s.buffer = [] := stampedBy_eq_nil.mpr hnil
    rw [hstamped]
    split
    · refine ⟨⟨[], (List.append_nil _).symm, by simp [hnil]⟩, .inl ⟨hnil, [], ?_, ?_⟩⟩
      · exact fun _ h => absurd h List.not_mem_nil
      · next hzero => simp [announced, hzero]
    · refine ⟨⟨[], (List.append_nil _).symm, by simp [hnil]⟩, .inl ⟨hnil, [], ?_, ?_⟩⟩
      · exact fun _ h => absurd h List.not_mem_nil
      · next hne => simp [announced, hne, push]
  · next hfull =>
    have hne : s.buffer ≠ [] := fun hnil => hfull (List.isEmpty_iff.mpr hnil)
    have hbuffer := stampBuffer_buffer lsn s
    have hne' : (s.stampBuffer lsn).buffer ≠ [] := by
      rw [hbuffer]
      exact fun hnil => hne (stampedBy_eq_nil.mp hnil)
    obtain ⟨hlog, hcommands⟩ : (s.stampBuffer lsn).log = s.log ∧
        (s.stampBuffer lsn).commands = s.commands := by
      rw [stampBuffer]
      split <;> exact ⟨rfl, rfl⟩
    have hships : Ships lsn (s.stampBuffer lsn).buffer (s.stampBuffer lsn)
        ((s.stampBuffer lsn).handOverOrWait held overdue) := ships_handOverOrWait held overdue hne'
    obtain ⟨news, hnews, hlength⟩ := hships.log
    refine ⟨⟨news, hlog ▸ hnews, ?_⟩, ?_⟩
    · rw [← hbuffer, hlength, hbuffer, stampedBy_length]
    · rw [← hbuffer, ← hcommands]
      exact hships.buffer

theorem releaseMark_frame (s : EngineState) : s.releaseMark.log = s.log ∧
    s.releaseMark.buffer = s.buffer ∧ s.releaseMark.phase = s.phase ∧
    s.releaseMark.deferred = s.deferred ∧ s.releaseMark.events = s.events ∧
    s.releaseMark.copy = s.copy ∧ ∃ commands, (∀ command ∈ commands, command.isPlain = true) ∧
      s.releaseMark.commands = s.commands ++ commands := by
  rw [releaseMark]
  split
  · next mark _ =>
    split
    · refine ⟨rfl, rfl, rfl, rfl, rfl, rfl, [.loadMark mark], fun command h => ?_, rfl⟩
      rw [List.mem_singleton.mp h]
      rfl
    · exact ⟨rfl, rfl, rfl, rfl, rfl, rfl, [], fun _ h => absurd h List.not_mem_nil,
        (List.append_nil _).symm⟩
  · exact ⟨rfl, rfl, rfl, rfl, rfl, rfl, [], fun _ h => absurd h List.not_mem_nil,
      (List.append_nil _).symm⟩

theorem ships_commit (lsn : Lsn) (held overdue : Bool) (s : EngineState) :
    Ships lsn (stampedBy lsn s.buffer) s (s.commit lsn held overdue) := by
  obtain ⟨hlog, hbuffer, hcommands⟩ : (s.closeTxn lsn).log = s.log ∧
      (s.closeTxn lsn).buffer = s.buffer ∧ (s.closeTxn lsn).commands = s.commands := by
    rw [closeTxn]
    split <;> exact ⟨rfl, rfl, rfl⟩
  obtain ⟨hlog', hbuffer', -, -, -, -, commands, hplain, hsent⟩ :=
    releaseMark_frame ((s.closeTxn lsn).commitBuffer lsn held overdue)
  have hships := ships_commitBuffer lsn held overdue (s.closeTxn lsn)
  rw [hbuffer] at hships
  exact (hships.after hlog hbuffer hcommands).plain hplain hlog' hbuffer' hsent

theorem ships_mark (mark : ℕ) (s : EngineState) : Ships 0 s.buffer s (s.mark mark) := by
  have hplain : ∀ command ∈ [SinkCommand.loadMark mark], command.isPlain = true := fun command h => by
    rw [List.mem_singleton.mp h]
    rfl
  simp only [EngineState.mark]
  split
  · exact .of_eq rfl rfl rfl
  · split
    · exact (Ships.of_eq (s := s) rfl rfl rfl).plain hplain rfl rfl rfl
    · next hfull =>
      have hne : s.buffer ≠ [] := fun hnil => hfull (List.isEmpty_iff.mpr hnil)
      exact (Ships.handOver hne).plain hplain rfl rfl rfl

end EngineState

/-- The position that an event lends the buffer. -/
def ChangeEvent.position : ChangeEvent → Lsn
  | .commit lsn => lsn
  | _ => 0

variable {origin : Origin} {settings : EngineSettings}

namespace Engine

variable {engine : Engine} {s e : EngineState}

open EngineState

theorem ships_truncate (table : TableName) (version : Option ℕ) (s : EngineState) :
    Ships 0 s.buffer s (engine.truncate table version s) := by
  rw [Engine.truncate]
  split
  · exact .of_eq rfl rfl rfl
  · next pattern only _ =>
    obtain ⟨cleared, heq, -⟩ := raiseFloors_eq s.handOverRest pattern version only.isSome
    rw [heq]
    -- the clearing is put out, and is no operation
    have hnews : ([Emitted.truncated pattern version only.isSome].filter Emitted.isOp).length = 0 :=
      rfl
    have hplain : ∀ command ∈ [SinkCommand.truncate pattern version only],
        command.isPlain = true := fun command h => by
      rw [List.mem_singleton.mp h]
      rfl
    rw [handOverRest]
    split
    · refine ⟨⟨[.truncated pattern version only.isSome], rfl, by rw [hnews, Nat.add_zero]⟩, ?_⟩
      exact .inl ⟨rfl, [.truncate pattern version only], hplain, by simp [announced, push]⟩
    · next hfull =>
      refine ⟨⟨[.truncated pattern version only.isSome], rfl, by rw [hnews, Nat.add_zero]⟩, ?_⟩
      exact .inr ⟨fun _ => rfl, rfl, [.truncate pattern version only], hplain,
        by simp [handOver, push]⟩

/-- What a turn does with the buffer. -/
theorem ships_handle (settings : EngineSettings) (held overdue : Bool) (s : EngineState)
    (next : Origin × ChangeEvent) :
    Ships next.2.position (stampedBy next.2.position s.buffer) s
      (engine.handle settings held overdue s next) := by
  have hnone : stampedBy 0 s.buffer = s.buffer := if_pos rfl
  obtain ⟨origin, ev⟩ := next
  cases ev with
  | commit lsn => exact ships_commit lsn held overdue s
  | begin _ | row _ | loadStarted | loadFinished | schemaDrift _ _ =>
    exact hnone.symm ▸ Ships.of_eq rfl rfl rfl
  | loadMark mark => exact hnone.symm ▸ ships_mark mark s
  | tableTruncated table version => exact hnone.symm ▸ ships_truncate table version s

/-- Operations join the buffer, without a position; it goes out if it is full. -/
theorem ships_bufferOps (settings : EngineSettings) (origin : Origin) (ops : List DocumentOp)
    (s : EngineState) :
    Ships 0 (s.buffer ++ ops.map fun op => ⟨0, op⟩) s (bufferOps settings origin ops s) ∧
      ((s.buffer ++ ops.map fun op => (⟨0, op⟩ : LsnOp)).length < settings.batchSize →
        s.bytes + (ops.map opSize).sum < settings.batchMaxBytes →
        (bufferOps settings origin ops s).commands = s.commands) := by
  have hops : (ops.map (Emitted.op origin)).filter Emitted.isOp = ops.map (.op origin) := by
    refine List.filter_eq_self.mpr fun emitted hmem => ?_
    obtain ⟨op, -, rfl⟩ := List.mem_map.mp hmem
    rfl
  rw [bufferOps]
  generalize (if s.loadRunning then remember ops s.superseded else s.superseded) = known
  dsimp only
  split
  · next hfull =>
    rw [Bool.or_eq_true, decide_eq_true_eq, decide_eq_true_eq] at hfull
    refine ⟨⟨⟨ops.map (.op origin), rfl, by rw [hops]; simp⟩, .inr ⟨fun _ => rfl, rfl, [], ?_, rfl⟩⟩, ?_⟩
    · exact fun _ h => absurd h List.not_mem_nil
    · exact fun hsize hbytes => absurd hfull (by omega)
  · refine ⟨⟨⟨ops.map (.op origin), rfl, by rw [hops]; simp⟩, .inl ⟨rfl, [], ?_, ?_⟩⟩, fun _ _ => rfl⟩
    · exact fun _ h => absurd h List.not_mem_nil
    · simp [announced]

/-- A row's operations join the buffer. -/
theorem ships_writeRow {completions : Completions} {row : RowChange}
    (h : engine.writeRow settings completions origin row s = .ok e) : ∃ b, Ships 0 b s e := by
  obtain ⟨-, rfl⟩ | ⟨target, ops, left, -, -, rfl⟩ := writeRow_ok h
  · exact ⟨_, .of_eq rfl rfl rfl⟩
  · exact ⟨_, (ships_bufferOps settings origin _ s).1⟩

end Engine

/-! ## The invariant -/

theorem isWrite_plain {command : SinkCommand} (h : command.isPlain = true) :
    command.isWrite = false := by
  cases command <;> first | rfl | cases h

theorem isWrite_announced {pos : Lsn} {b : List LsnOp} {command : SinkCommand}
    (h : command ∈ announced pos b) : command.isWrite = false := by
  rw [announced] at h
  split at h
  · rw [List.mem_singleton.mp h]
    rfl
  · cases h

theorem batches_eq_nil {commands : List SinkCommand}
    (h : ∀ command ∈ commands, command.isWrite = false) : batches commands = [] :=
  List.filterMap_eq_nil_iff.mpr fun command hmem => by
    have hnot := h command hmem
    cases command <;> first | rfl | cases hnot

namespace CommitState

variable {s : CommitState} {e : EngineState} {pos : Lsn} {b : List LsnOp}

/-- What is recorded of a step that ships the buffer. -/
theorem record_cases (owner : Option ℕ) (h : s.engine.Ships pos b e) (htracks : s.owners.length = s.engine.buffer.length) :
    ∃ owners : List (Option ℕ), owners.length = b.length ∧
      (∀ o ∈ owners, o ∈ s.owners ∨ o = owner) ∧
      ((e.buffer = b ∧ ∃ rest, (∀ command ∈ rest, command.isPlain = true) ∧
          e.commands = s.engine.commands ++ (announced pos b ++ rest) ∧
          s.record owner e = { s with
            engine := e
            owners := owners
            cargo := s.cargo ++ (announced pos b ++ rest).map fun _ => [] }) ∨
        ((b = [] → pos = 0) ∧ e.buffer = [] ∧
          ∃ rest, (∀ command ∈ rest, command.isPlain = true) ∧
            e.commands = s.engine.commands ++ .write b :: rest ∧
            s.record owner e = { s with
              engine := e
              owners := []
              cargo := s.cargo ++ s.complete owners :: rest.map fun _ => [] })) := by
  obtain ⟨news, hnews, hlength⟩ := h.log
  refine ⟨s.owners ++ (news.filter Emitted.isOp).map fun _ => owner, ?_, ?_, ?_⟩
  · rw [List.length_append, List.length_map, htracks, hlength]
  · intro o ho
    refine (List.mem_append.mp ho).imp_right fun hnew => ?_
    obtain ⟨-, -, hsame⟩ := List.mem_map.mp hnew
    exact hsame.symm
  · simp only [record, hnews, List.drop_left]
    obtain ⟨hb, rest, hplain, hsent⟩ | ⟨hpos, hempty, rest, hplain, hsent⟩ := h.buffer
    · have hnone : ∀ command ∈ announced pos b ++ rest, command.isWrite = false := fun command hmem =>
        (List.mem_append.mp hmem).elim isWrite_announced fun hrest => isWrite_plain (hplain _ hrest)
      refine .inl ⟨hb, rest, hplain, hsent, ?_⟩
      rw [hsent, List.drop_left, if_pos (batches_eq_nil hnone)]
      congr 2
      exact List.map_congr_left fun command hmem => by simp [hnone command hmem]
    · refine .inr ⟨hpos, hempty, rest, hplain, hsent, ?_⟩
      rw [hsent, List.drop_left, if_neg (by simp [batches])]
      rw [List.map_cons]
      congr 3
      exact List.map_congr_left fun command hmem => by simp [isWrite_plain (hplain _ hmem)]

end CommitState

namespace EngineState

variable {s : EngineState} {held : Bool}

theorem tryNext_eq_none : s.tryNext held = none ↔ s.events = [] ∧ (s.copy = [] ∨ held = true) := by
  rw [tryNext.eq_def]
  split
  · next hevents => simp [hevents]
  · next hevents hcopy => cases held <;> simp [hevents, hcopy]
  · next hevents hcopy => simp [hevents, hcopy]

theorem handOverRest_buffer (s : EngineState) : s.handOverRest.buffer = [] := by
  rw [handOverRest]
  split
  · next hempty => exact List.isEmpty_iff.mp hempty
  · rfl

/-- A commit ends with an empty buffer or with an event that was put aside. -/
theorem commit_waits (lsn : Lsn) (overdue : Bool) (s : EngineState) :
    (s.commit lsn held overdue).buffer = [] ∨ (s.commit lsn held overdue).deferred ≠ none := by
  obtain ⟨-, hbuffer, -, hdeferred, -⟩ :=
    releaseMark_frame ((s.closeTxn lsn).commitBuffer lsn held overdue)
  rw [commit, hbuffer, hdeferred, commitBuffer]
  split
  · next hempty =>
    refine .inl ?_
    split
    · exact List.isEmpty_iff.mp hempty
    · exact List.isEmpty_iff.mp hempty
  · rw [handOverOrWait]
    split
    · refine .inr ?_
      split <;> exact Option.some_ne_none _
    · exact .inl rfl

end EngineState

variable {ev : ChangeEvent}

namespace Engine

variable {engine : Engine} {e : EngineState}

open EngineState

/-- A turn that leaves the loop waiting: the buffer is empty, or the event has not moved
it. -/
theorem handle_blocked {held found overdue : Bool}
    (h : (engine.handle settings held overdue e (origin, ev)).Blocked found) :
    (engine.handle settings held overdue e (origin, ev)).buffer = [] ∨
      engine.moves e ev = false ∧ e.tryNext found = none ∧
        (engine.handle settings held overdue e (origin, ev)).copy = e.copy ∧
        (engine.handle settings held overdue e (origin, ev)).buffer = e.buffer := by
  obtain ⟨hidle, hnone, hwaiting⟩ := h
  rw [tryNext_eq_none] at hwaiting ⊢
  cases ev with
  | begin _ | loadStarted | loadFinished | schemaDrift _ _ => exact .inr ⟨rfl, hwaiting, rfl, rfl⟩
  | row change => cases hidle
  | commit lsn => exact .inl ((commit_waits lsn overdue e).resolve_right fun h => h hnone)
  | loadMark mark =>
    simp only [handle, EngineState.mark] at hwaiting ⊢
    cases hopen : e.txnOpen with
    | true =>
      have htxn : e.wipe.txnOpen = true := hopen
      rw [if_pos htxn] at hwaiting ⊢
      exact .inr ⟨by rw [moves, hopen]; rfl, hwaiting, rfl, rfl⟩
    | false =>
      have htxn : ¬ e.wipe.txnOpen = true := by
        rw [show e.wipe.txnOpen = e.txnOpen from rfl, hopen]
        exact Bool.false_ne_true
      rw [if_neg htxn]
      refine .inl ?_
      split
      · next hempty => exact List.isEmpty_iff.mp hempty
      · rfl
  | tableTruncated table version =>
    simp only [handle, Engine.truncate] at hwaiting ⊢
    cases hscope : engine.truncateScope table with
    | none =>
      rw [hscope] at hwaiting
      exact .inr ⟨by rw [moves, hscope]; rfl, hwaiting, rfl, rfl⟩
    | some scope =>
      obtain ⟨pattern, only⟩ := scope
      refine .inl ?_
      obtain ⟨cleared, heq, -⟩ := raiseFloors_eq e.handOverRest pattern version only.isSome
      have hbuffer : (e.handOverRest.raiseFloors pattern version only.isSome).buffer = [] := by
        rw [heq]
        exact handOverRest_buffer e
      exact hbuffer

/-- Outside turns and the end of a group, a loop that waits had been waiting. -/
theorem step_blocked {e' : EngineState} {action : EngineAction} {found : Bool}
    (hturn : ∀ settings held again overdue, action ≠ .turn settings held again overdue)
    (hwrite : action ≠ .write) (h : engine.step e action = some e') (hblocked : e'.Blocked found) :
    e.Blocked found ∧ e.copy.length ≤ e'.copy.length := by
  obtain ⟨hidle, hnone, hwaiting⟩ := hblocked
  rw [tryNext_eq_none] at hwaiting
  cases does h with
  | turned => exact absurd rfl (hturn _ _ _ _)
  | wrote | unwritten | written => exact absurd rfl hwrite
  | fed => exact absurd hwaiting.1 (by simp)
  | fedCopy =>
    refine ⟨⟨hidle, hnone, tryNext_eq_none.mpr ⟨hwaiting.1, .inr ?_⟩⟩, by simp⟩
    exact hwaiting.2.resolve_left (by simp)
  | gathered | putAside | grouped | fetched | unread | stopped | cutOff => cases hidle
  | closedEvents hphase hdeferred | closedCopy hphase hdeferred =>
    exact ⟨⟨hphase, hdeferred, tryNext_eq_none.mpr hwaiting⟩, le_rfl⟩

end Engine

/-- What may be left in the buffer that should not wait: nothing in an empty one, and
nothing new while the buffer and the commits stay. -/
structure Pending (pending : CommitState → Bool) : Prop where
  /-- an empty buffer holds nothing -/
  empty : ∀ s : CommitState, s.owners.length = s.engine.buffer.length → s.engine.buffer = [] →
    pending s = false
  /-- what does not change the buffer adds nothing -/
  same : ∀ s s' : CommitState, s'.engine.buffer = s.engine.buffer → s'.commits = s.commits →
    (∀ o ∈ s'.owners, o ∈ s.owners ∨ o = none) → pending s = false → pending s' = false

/-- What holds between any two steps. -/
structure CommitInv (pending : CommitState → Bool) (s : CommitState) : Prop where
  /-- the record is of the buffer -/
  tracks : s.owners.length = s.engine.buffer.length
  /-- the loop does not wait with anything pending -/
  waits : s.engine.Blocked s.held → pending s = false

namespace Engine

variable {engine : Engine} {s e : EngineState} {action : EngineAction}

open EngineState

/-- What any step does with the buffer. -/
theorem ships_step (h : engine.step s action = some e) : ∃ pos b, Ships pos b s e := by
  cases does h with
  | wrote _ hrow =>
    obtain ⟨b, hships⟩ := ships_writeRow hrow
    exact ⟨0, _, hships.same rfl rfl rfl⟩
  | @turned settings held again overdue next taken hidle htake =>
    obtain ⟨hlog, hbuffer, hcommands, -⟩ := takeEvent_frame htake
    exact ⟨_, _, (ships_handle settings again overdue taken next).after hlog hbuffer hcommands⟩
  | gathered _ htry | putAside _ htry =>
    obtain ⟨-, rest, -, rfl⟩ | ⟨-, rest, -, rfl⟩ := tryNext_cases htry
    · exact ⟨0, _, .of_eq rfl rfl rfl⟩
    · exact ⟨0, _, .of_eq rfl rfl rfl⟩
  | fed | fedCopy | grouped | fetched | unread | unwritten | written | closedEvents | closedCopy
    | stopped | cutOff => exact ⟨0, _, .of_eq rfl rfl rfl⟩

end Engine

namespace CommitState

variable {s : CommitState} {e : EngineState} {owner : Option ℕ} {pos : Lsn} {b : List LsnOp}

/-- The record stays one of the buffer. -/
theorem record_tracks (h : s.engine.Ships pos b e)
    (htracks : s.owners.length = s.engine.buffer.length) :
    (s.record owner e).owners.length = (s.record owner e).engine.buffer.length := by
  obtain ⟨owners, hlength, -, ⟨hb, _, -, -, heq⟩ | ⟨-, hempty, _, -, -, heq⟩⟩ :=
    record_cases owner h htracks
  · rw [heq]
    exact hlength.trans (congrArg List.length hb.symm)
  · rw [heq]
    exact (congrArg List.length hempty).symm

/-- An operation in the buffer was there, or belongs to the transaction at hand. -/
theorem record_owners (h : s.engine.Ships pos b e)
    (htracks : s.owners.length = s.engine.buffer.length) :
    ∀ o ∈ (s.record owner e).owners, o ∈ s.owners ∨ o = owner := by
  obtain ⟨owners, -, hmem, ⟨-, _, -, -, heq⟩ | ⟨-, -, _, -, -, heq⟩⟩ :=
    record_cases owner h htracks
  · rw [heq]
    exact hmem
  · rw [heq]
    exact fun _ ho => absurd ho List.not_mem_nil

theorem complete_eq_nil {owners : List (Option ℕ)} (h : s.complete owners = []) {t : ℕ}
    (ht : some t ∈ owners) : s.commits.length ≤ t := by
  have hnone := List.filterMap_eq_nil_iff.mp h _ ht
  simpa using hnone

end CommitState

variable {s e : EngineState}

/-- Only an event that a turn takes off the load's channel leaves it. -/
theorem copy_takeEvent (h : s.takeEvent held = some ((origin, ev), e)) :
    e.copy = s.copy ∨ s.copy = ev :: e.copy := by
  rw [takeEvent] at h
  split at h
  · cases h
    exact .inl rfl
  · obtain ⟨-, rest, -, rfl⟩ | ⟨-, rest, hcopy, rfl⟩ := tryNext_cases h
    · exact .inl rfl
    · exact .inr hcopy

/-- Nothing was taken off the load's channel. -/
theorem tookRow_of_le (h : s.copy.length ≤ e.copy.length) : s.tookRow e = false := by
  rw [tookRow, Nat.sub_eq_zero_of_le h, List.take_zero, List.any_nil]

/-- No row was taken off it. -/
theorem tookRow_eq_false (hrow : ev.isRow = false)
    (h : e.copy = s.copy ∨ s.copy = ev :: e.copy) : s.tookRow e = false := by
  obtain h | h := h
  · exact tookRow_of_le (le_of_eq (congrArg List.length h.symm))
  · rw [tookRow, h, List.length_cons, Nat.add_sub_cancel_left]
    simp [hrow]

namespace CommitInv

variable {engine : Engine} {pending : CommitState → Bool} {s s' : CommitState} {e : EngineState}

theorem of_empty (hpending : Pending pending) (htracks : s.owners.length = s.engine.buffer.length)
    (h : s.engine.buffer = []) : CommitInv pending s :=
  ⟨htracks, fun _ => hpending.empty s htracks h⟩

/-- A turn of the loop. -/
theorem turn (hpending : Pending pending) (h : CommitInv pending s) (settings : EngineSettings)
    (overdue : Bool) {spent : Bool} {taken : EngineState}
    (htake : s.engine.takeEvent s.held = some ((origin, ev), taken))
    (hfollowed : pending s = false ∨ engine.moves taken ev = true ∨
      (taken.tryNext s.held).isSome = true)
    (hheld : s'.held = (s.held || spent && s.engine.tookRow s'.engine))
    (heq : s' = { (s.note ev).record none (engine.handle settings s.held overdue taken (origin, ev))
      with held := s'.held }) : CommitInv pending s' := by
  obtain ⟨hlog, hbuffer, hcommands, -⟩ := takeEvent_frame htake
  have hsame : (s.note ev).engine = s.engine ∧ (s.note ev).owners = s.owners := by
    cases ev with
    | commit lsn =>
      simp only [CommitState.note]
      split <;> exact ⟨rfl, rfl⟩
    | _ => exact ⟨rfl, rfl⟩
  have hships := (engine.ships_handle settings s.held overdue taken (origin, ev)).after hlog
    hbuffer hcommands
  rw [← hsame.1] at hships
  have htracks : (s.note ev).owners.length = (s.note ev).engine.buffer.length := by
    rw [hsame.1, hsame.2, h.tracks]
  have htracks' : s'.owners.length = s'.engine.buffer.length := by
    rw [heq]
    exact CommitState.record_tracks hships htracks
  have hengine : s'.engine = engine.handle settings s.held overdue taken (origin, ev) := by
    rw [heq]
    rfl
  by_cases hempty : s'.engine.buffer = []
  · exact .of_empty hpending htracks' hempty
  refine ⟨htracks', fun hblocked => ?_⟩
  rw [hengine] at hblocked hempty
  -- the event has not moved the buffer, and nothing is waiting behind it
  obtain ⟨hmoves, hwaiting, hcopy, hstays⟩ := (engine.handle_blocked hblocked).resolve_left hempty
  have hrow : ev.isRow = false := by cases ev <;> first | rfl | cases hmoves
  have hstill : s'.held = s.held := by
    have htook : s.engine.tookRow s'.engine = false := by
      refine tookRow_eq_false hrow ?_
      rw [hengine, hcopy]
      exact copy_takeEvent htake
    rw [hheld, htook, Bool.and_false, Bool.or_false]
  have hdone : pending s = false := by
    refine hfollowed.resolve_right fun hmore => hmore.elim (fun hmove => ?_) fun hsome => ?_
    · rw [hmoves] at hmove
      cases hmove
    · rw [hstill] at hwaiting
      rw [hwaiting] at hsome
      cases hsome
  refine hpending.same s s' (by rw [hengine, hstays, hbuffer]) ?_ (fun o ho => ?_) hdone
  · rw [heq]
    cases ev with
    | commit lsn => cases hmoves
    | _ => rfl
  · rw [heq] at ho
    rw [← hsame.2]
    exact CommitState.record_owners hships htracks _ ho

/-- The end of a group of rows. -/
theorem groupEnd (hpending : Pending pending) (h : CommitInv pending s) {completions : Completions}
    (hphase : s.engine.phase = .writing settings completions [])
    (hfollowed : pending s = false ∨ s.engine.deferred.isSome = true ∨
      (s.engine.tryNext s.held).isSome = true) (hidle : e = { s.engine with phase := .idle }) :
    CommitInv pending { s.record s.owner e with held := s.held } := by
  have hships : s.engine.Ships 0 s.engine.buffer e := by
    rw [hidle]
    exact .of_eq rfl rfl rfl
  refine ⟨CommitState.record_tracks hships h.tracks, fun ⟨_, hnone, hwaiting⟩ => ?_⟩
  obtain ⟨hdeferred, hbuffer, hnext⟩ : e.deferred = s.engine.deferred ∧
      e.buffer = s.engine.buffer ∧ (e.tryNext s.held = none → s.engine.tryNext s.held = none) := by
    rw [hidle]
    refine ⟨rfl, rfl, fun hwaits => ?_⟩
    rw [tryNext_eq_none] at hwaits ⊢
    exact hwaits
  have hnone : s.engine.deferred = none := hdeferred.symm.trans hnone
  have hwaiting : s.engine.tryNext s.held = none := hnext hwaiting
  have howner : s.owner = none := by rw [CommitState.owner, hphase]
  have hdone : pending s = false := by
    refine hfollowed.resolve_right fun hmore => hmore.elim (fun hsome => ?_) fun hsome => ?_
    · rw [hnone] at hsome
      cases hsome
    · rw [hwaiting] at hsome
      cases hsome
  refine hpending.same s _ hbuffer rfl (fun o ho => ?_) hdone
  rw [← howner]
  exact CommitState.record_owners hships h.tracks _ ho

/-- A step that leaves the loop at work. -/
theorem busy (h : CommitInv pending s) {pos : Lsn} {b : List LsnOp} {owner : Option ℕ}
    (hships : s.engine.Ships pos b e) (hbusy : e.phase ≠ .idle) :
    CommitInv pending { s.record owner e with held := held } where
  tracks := CommitState.record_tracks hships h.tracks
  waits hblocked := absurd hblocked.1 hbusy

/-- Anything else that happens. -/
theorem outside (hpending : Pending pending) (h : CommitInv pending s) {action : EngineAction}
    {spent : Bool}
    (hturn : ∀ settings held again overdue, action ≠ .turn settings held again overdue)
    (hwrite : action ≠ .write) (hstep : engine.step s.engine action = some e) :
    CommitInv pending
      { s.record s.owner e with held := s.held || spent && s.engine.tookRow e } := by
  obtain ⟨hbuffer, hcommands, -, hlog⟩ := step_outside hturn hwrite hstep
  have hships : s.engine.Ships 0 s.engine.buffer e := .of_eq hlog hbuffer hcommands
  refine ⟨CommitState.record_tracks hships h.tracks, fun hblocked => ?_⟩
  obtain ⟨hbefore, hlength⟩ := Engine.step_blocked hturn hwrite hstep hblocked
  have htook : s.engine.tookRow e = false := tookRow_of_le hlength
  rw [htook, Bool.and_false, Bool.or_false] at hbefore
  have howner : s.owner = none := by rw [CommitState.owner, hbefore.1]
  refine hpending.same s _ hbuffer rfl (fun o ho => ?_) (h.waits hbefore)
  rw [← howner]
  exact CommitState.record_owners hships h.tracks _ ho

/-- One action, if what stays in the buffer is followed. -/
theorem step (hpending : Pending pending) (h : CommitInv pending s) {action : CommitAction}
    (hfollowed : engine.followed pending s action = true)
    (hstep : engine.commitStep s action = some s') : CommitInv pending s' := by
  cases action with
  | release =>
    cases hstep
    refine ⟨h.tracks, fun hblocked => ?_⟩
    obtain ⟨hidle, hnone, hwaiting⟩ := hblocked
    obtain ⟨hevents, hcopy⟩ := tryNext_eq_none.mp hwaiting
    have hbefore : s.engine.Blocked s.held := ⟨hidle, hnone, tryNext_eq_none.mpr
      ⟨hevents, .inl (hcopy.resolve_right Bool.false_ne_true)⟩⟩
    exact hpending.same s _ rfl rfl (fun _ ho => .inl ho) (h.waits hbefore)
  | act action spent =>
    simp only [Engine.commitStep] at hstep
    split at hstep
    · next hfinds =>
      obtain ⟨next, hnext, rfl⟩ := Option.map_eq_some_iff.mp hstep
      obtain ⟨e, he, rfl⟩ := Option.map_eq_some_iff.mp hnext
      cases Engine.does he with
      | @turned settings _ _ overdue _ _ _ htake =>
        simp only [EngineAction.finds, Bool.and_eq_true, beq_iff_eq] at hfinds
        obtain ⟨rfl, rfl⟩ := hfinds
        simp only [Engine.followed, htake, Bool.or_eq_true, Bool.not_eq_true', or_assoc]
          at hfollowed
        simp only [htake]
        exact h.turn hpending settings overdue htake hfollowed rfl rfl
      | wrote _ hrow =>
        obtain ⟨b, hships⟩ := Engine.ships_writeRow hrow
        exact h.busy (hships.same rfl rfl rfl) fun h => by cases h
      | unwritten => exact h.busy (.of_eq rfl rfl rfl) fun h => by cases h
      | written hphase =>
        simp only [Engine.followed, hphase, Bool.or_eq_true, Bool.not_eq_true', or_assoc]
          at hfollowed
        have htook : s.engine.tookRow { s.engine with phase := .idle } = false :=
          tookRow_of_le le_rfl
        have hend := h.groupEnd hpending hphase hfollowed rfl
        have hheld : (s.held || spent && s.engine.tookRow { s.engine with phase := .idle }) =
            s.held := by rw [htook, Bool.and_false, Bool.or_false]
        exact hheld.symm ▸ hend
      | fed | fedCopy | gathered | putAside | grouped | fetched | unread | closedEvents | closedCopy
        | stopped | cutOff => exact h.outside hpending (by simp) (by simp) he
    · cases hstep

end CommitInv

/-- A row of a committed transaction is something that should not wait. -/
theorem pending_holdsRows : Pending CommitState.holdsRows where
  empty s htracks hempty := by
    have hnil : s.owners = [] := by
      rw [← List.length_eq_zero_iff, htracks, hempty, List.length_nil]
    rw [CommitState.holdsRows, hnil]
    rfl
  same s s' _ hcommits howners hnone := by
    rw [CommitState.holdsRows, Bool.not_eq_false', List.isEmpty_iff] at hnone ⊢
    refine List.filterMap_eq_nil_iff.mpr fun o ho => ?_
    cases o with
    | none => rfl
    | some t =>
      have hlate := CommitState.complete_eq_nil hnone ((howners _ ho).resolve_right nofun)
      simpa [hcommits] using hlate

namespace Engine

variable {engine : Engine} {s : CommitState}

/-- **If an event is waiting behind each one that leaves a committed transaction in the
buffer, the loop never waits with one**, whatever the two channels bring and however the
load's is held back. -/
theorem none_waits (h : (commitSystem engine).ReachUnder
    (fun s action => engine.followed CommitState.holdsRows s action = true) s) : s.NoneWaits := by
  have hinv : CommitInv CommitState.holdsRows s := h.invariant
    (fun _ hinitial => by
      rw [hinitial]
      exact .of_empty pending_holdsRows rfl rfl)
    fun _ _ _ hinv hfollowed hstep => hinv.step pending_holdsRows hfollowed hstep
  intro hblocked t ht
  have hnone := hinv.waits hblocked
  rw [CommitState.holdsRows, Bool.not_eq_false', List.isEmpty_iff] at hnone
  exact CommitState.complete_eq_nil hnone ht

end Engine

/-! ## Runs that the kernel follows -/

/-- The loop takes an event, while the load's channel is not held back. -/
def takeNext : CommitAction := .act takeEventOnce false

/-- A transaction of one row arrives and its row is written. -/
def oneTransaction (key : ℤ) (lsn : Lsn) : List CommitAction :=
  [.act (.feed (.begin lsn)) false, .act (.feed (storedRow key lsn)) false,
    .act (.feed (.commit lsn)) false, takeNext] ++
    writeRowOnce.map fun action => .act action false

/-- What a state shows of its transactions. -/
structure CommitsSeen : Type where
  /-- the commits that were seen -/
  commits : List Lsn
  /-- whose rows are in the buffer -/
  owners : List (Option ℕ)
  /-- whether the loop waits -/
  blocked : Bool
  deriving DecidableEq

/-- What a state shows. -/
def CommitState.see (s : CommitState) : CommitsSeen where
  commits := s.commits
  owners := s.owners
  blocked := match s.engine.phase with
    | .idle => s.engine.deferred.isNone && (s.engine.tryNext s.held).isNone
    | _ => false

theorem CommitState.blocked_of_see {s : CommitState} (h : s.see.blocked = true) :
    s.engine.Blocked s.held := by
  simp only [see] at h
  split at h
  · next hidle =>
    rw [Bool.and_eq_true, Option.isNone_iff_eq_none, Option.isNone_iff_eq_none] at h
    exact ⟨hidle, h⟩
  · cases h

/-- Two transactions that wait together go out together. -/
def companyWaits : List CommitAction :=
  oneTransaction 1 10 ++ [.act (.feed (.begin 20)) false, .act (.feed (storedRow 2 20)) false,
    .act (.feed (.commit 20)) false, takeNext, takeNext] ++
    (writeRowOnce.map fun action => .act action false) ++ [takeNext]

/-- Nothing waits in between, and nothing does in the end. -/
theorem companyWaits_goesOut : ∃ s,
    (Engine.commitSystem plainEngine).runUnder
      (plainEngine.followed CommitState.holdsRows) .start companyWaits = some s ∧
      s.see = ⟨[10, 20], [], true⟩ ∧ s.NoneWaits := by
  have hrun : ((Engine.commitSystem plainEngine).runUnder
      (plainEngine.followed CommitState.holdsRows) .start companyWaits).map CommitState.see = some ⟨[10, 20], [], true⟩ := by decide +kernel
  obtain ⟨s, hs, hsee⟩ := Option.map_eq_some_iff.mp hrun
  exact ⟨s, hs, hsee, Engine.none_waits (.of_runUnder (.initial rfl) hs)⟩

/-- The load says that it has finished while a transaction commits. -/
def finishWaits : List CommitAction :=
  oneTransaction 1 10 ++ [.act (.feedCopy .loadFinished) false, takeNext, takeNext]

/-- The transaction waits for nothing at all. -/
theorem finishWaits_forgotten :
    ∃ s, (Engine.commitSystem plainEngine).Reachable s ∧ ¬ s.NoneWaits := by
  have hrun : ((Engine.commitSystem plainEngine).run .start finishWaits).map CommitState.see =
      some ⟨[10], [some 0], true⟩ := by decide +kernel
  obtain ⟨s, hs, hsee⟩ := Option.map_eq_some_iff.mp hrun
  refine ⟨s, Transition.System.reachable_of_run rfl hs, fun h => ?_⟩
  have hlate := h (CommitState.blocked_of_see (by rw [hsee])) 0 (by
    have howners : s.owners = [some 0] := congrArg CommitsSeen.owners hsee
    rw [howners]
    exact List.mem_singleton.mpr rfl)
  have hcommits : s.commits = [10] := congrArg CommitsSeen.commits hsee
  rw [hcommits] at hlate
  exact absurd hlate (by decide)

end Pg2osync
