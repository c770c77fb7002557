import Pg2osync.LoadWindowSafety

/-!
# A transaction reaches the target whole

A transaction of the stream is open from its begin to its commit, and what its rows
put out waits in the buffer meanwhile. The load's boundaries and marks come between
them. A batch may be cut for its size, and a truncate cuts it; nothing else should
hand over a part of a transaction that is still open.

The record below says of every operation in the buffer which transaction it belongs
to, and of every batch why it was handed over and which transactions were complete.
-/

namespace Pg2osync

open EngineState

/-- Why a batch was handed over. -/
inductive Cause : Type where
  /-- the stream committed -/
  | stream : Cause
  /-- a load's boundary or its mark -/
  | load : Cause
  /-- the batch was large enough -/
  | size : Cause
  /-- a truncate follows -/
  | truncate : Cause
  deriving DecidableEq, Repr

/-- A batch, by the transactions its operations belong to. -/
structure Handed : Type where
  /-- why it was handed over -/
  cause : Cause
  /-- the transaction of each operation; a copied row has none -/
  owners : List (Option ℕ)
  /-- how many transactions were complete by then -/
  committed : ℕ
  deriving DecidableEq, Repr

/-- The engine, and the record of its transactions. -/
structure TxnState : Type where
  /-- the engine -/
  engine : EngineState
  /-- how many transactions the engine has seen begin -/
  begun : ℕ
  /-- how many of them, the first ones, it has seen commit -/
  committed : ℕ
  /-- the transaction of each operation in the buffer -/
  owners : List (Option ℕ)
  /-- the batches, in order -/
  handed : List Handed

/-- Whether something put out is an operation. -/
def Emitted.isOp : Emitted → Bool
  | .op _ _ => true
  | .truncated _ _ _ => false

/-- The batches among the commands. -/
def batches (commands : List SinkCommand) : List (List LsnOp) :=
  commands.filterMap fun
    | .write batch => some batch
    | _ => none

theorem batches_append (first second : List SinkCommand) :
    batches (first ++ second) = batches first ++ batches second :=
  List.filterMap_append

/-- Why an event that hands the buffer over does so. -/
def ChangeEvent.cause : ChangeEvent → Cause
  | .commit lsn => if lsn = 0 then .load else .stream
  | .tableTruncated _ _ => .truncate
  | _ => .load

namespace TxnState

/-- Transactions begin and commit one at a time. -/
def note (ev : ChangeEvent) (s : TxnState) : TxnState :=
  match ev with
  | .begin _ => { s with begun := s.begun + 1 }
  | .commit lsn => if lsn = 0 then s else { s with committed := s.begun }
  | _ => s

/-- The transaction that the next row to be written belongs to. -/
def owner (s : TxnState) : Option ℕ :=
  match s.engine.phase with
  | .writing _ _ ((.stream, _) :: _) => if s.engine.txnOpen then some s.begun else none
  | _ => none

/-- The engine goes on to `e`: what it put out joins the buffer, and leaves with the
rest of it if that was handed over. -/
def record (cause : Cause) (owner : Option ℕ) (e : EngineState) (s : TxnState) : TxnState :=
  let news := (e.log.drop s.engine.log.length).filter Emitted.isOp
  let owners := s.owners ++ news.map fun _ => owner
  if batches (e.commands.drop s.engine.commands.length) = [] then
    { s with engine := e, owners := owners }
  else
    { s with engine := e, owners := [], handed := s.handed ++ [⟨cause, owners, s.committed⟩] }

end TxnState

namespace Engine

variable (engine : Engine)

/-- One action of the engine, recorded. -/
def txnStep (s : TxnState) (action : EngineAction) : Option TxnState :=
  (engine.step s.engine action).map fun e =>
    match action with
    | .turn _ held _ _ =>
      match s.engine.takeEvent held with
      | some ((_, ev), _) => (s.note ev).record ev.cause none e
      | none => { s with engine := e }
    | .write => s.record .size s.owner e
    | _ => { s with engine := e }

/-- The engine and its record as a transition system. -/
def txnSystem : Transition.System TxnState EngineAction where
  initial s := s = ⟨.start, 0, 0, [], []⟩
  step := engine.txnStep

end Engine

/-! ## What is asked of a run -/

/-- **No transaction is torn.** -/
structure Untorn (s : TxnState) : Prop where
  /-- a batch with something of a transaction that was not complete has all of it,
  unless it was cut for its size or by a truncate -/
  whole : ∀ (i : ℕ) (batch : Handed), s.handed[i]? = some batch →
    batch.cause = .stream ∨ batch.cause = .load →
    ∀ t, some t ∈ batch.owners → batch.committed < t →
      (∀ (j : ℕ) (other : Handed), s.handed[j]? = some other → j ≠ i → some t ∉ other.owners) ∧
        some t ∉ s.owners
  /-- and no load hands over anything of such a transaction -/
  apart : ∀ batch ∈ s.handed, batch.cause = .load →
    ∀ t, some t ∈ batch.owners → t ≤ batch.committed

/-- A load's boundary does not hand the buffer over while something of an open
transaction is in it: another event is waiting, and the buffer can wait with it. -/
def boundaryWaits (s : TxnState) : EngineAction → Bool
  | .turn _ held heldAgain overdue =>
    match s.engine.takeEvent held with
    | some ((_, .commit lsn), e) => lsn ≠ 0 ||
        s.owners.all (fun owner => owner.all fun t => t ≤ s.committed) ||
        (e.tryNext heldAgain).isSome && !(e.coalescing && overdue)
    | _ => true
  | _ => true

namespace EngineState

/-! ## What a step hands over -/

variable {s s' e e' : EngineState}

/-- Nothing is put out, and the buffer stays. -/
structure Quiet (s e : EngineState) : Prop where
  /-- nothing is put out -/
  log : e.log = s.log
  /-- the buffer has as many operations -/
  buffer : e.buffer.length = s.buffer.length
  /-- no batch is handed over -/
  commands : ∃ commands, e.commands = s.commands ++ commands ∧ batches commands = []

/-- What is put out joins the buffer, which stays or is handed over. -/
inductive Delivers (s e : EngineState) : Prop where
  /-- it stays -/
  | kept (news : List Emitted) (commands : List SinkCommand) : e.log = s.log ++ news →
      e.commands = s.commands ++ commands → batches commands = [] →
      e.buffer.length = s.buffer.length + (news.filter Emitted.isOp).length → Delivers s e
  /-- it is handed over -/
  | handed (news : List Emitted) (commands : List SinkCommand) (batch : List LsnOp) :
      e.log = s.log ++ news → e.commands = s.commands ++ commands → batches commands = [batch] →
      batch.length = s.buffer.length + (news.filter Emitted.isOp).length → e.buffer = [] →
      Delivers s e

theorem Quiet.of_eq (hlog : e.log = s.log) (hbuffer : e.buffer.length = s.buffer.length)
    (hcommands : e.commands = s.commands) : Quiet s e :=
  ⟨hlog, hbuffer, [], hcommands.trans (List.append_nil _).symm, rfl⟩

theorem Quiet.refl (s : EngineState) : Quiet s s :=
  .of_eq rfl rfl rfl

theorem Quiet.batches_eq (h : Quiet s e) : batches (e.commands.drop s.commands.length) = [] := by
  obtain ⟨commands, hcommands, hnone⟩ := h.commands
  rw [hcommands, List.drop_left, hnone]

/-- A command that is not a batch. -/
theorem Quiet.push {command : SinkCommand} (h : command.isWrite = false) (s : EngineState) :
    Quiet s (s.push command) := by
  refine ⟨rfl, rfl, [command], rfl, ?_⟩
  cases command <;> first | rfl | cases h

theorem Quiet.trans (h : Quiet s s') (h' : Quiet s' e) : Quiet s e := by
  obtain ⟨first, hfirst, hnone⟩ := h.commands
  obtain ⟨second, hsecond, hnone'⟩ := h'.commands
  refine ⟨h'.log.trans h.log, h'.buffer.trans h.buffer, first ++ second, ?_, ?_⟩
  · rw [hsecond, hfirst, List.append_assoc]
  · rw [batches_append, hnone, hnone', List.append_nil]

theorem Quiet.delivers (h : Quiet s e) : Delivers s e := by
  obtain ⟨commands, hcommands, hnone⟩ := h.commands
  exact .kept [] commands (h.log.trans (List.append_nil _).symm) hcommands hnone h.buffer

theorem Delivers.of_eq (hlog : e.log = s.log) (hbuffer : e.buffer.length = s.buffer.length)
    (hcommands : e.commands = s.commands) : Delivers s e :=
  (Quiet.of_eq hlog hbuffer hcommands).delivers

/-- Nothing before. -/
theorem Quiet.deliversAfter (h : Quiet s s') (h' : Delivers s' e) : Delivers s e := by
  obtain ⟨first, hfirst, hnone⟩ := h.commands
  cases h' with
  | kept news second hlog hsecond hnone' hbuffer =>
    refine .kept news (first ++ second) (h.log ▸ hlog) ?_ ?_ (h.buffer ▸ hbuffer)
    · rw [hsecond, hfirst, List.append_assoc]
    · rw [batches_append, hnone, hnone', List.append_nil]
  | handed news second batch hlog hsecond hone hbatch hempty =>
    refine .handed news (first ++ second) batch (h.log ▸ hlog) ?_ ?_ (h.buffer ▸ hbatch) hempty
    · rw [hsecond, hfirst, List.append_assoc]
    · rw [batches_append, hnone, hone, List.nil_append]

/-- Nothing after. -/
theorem Delivers.quiet (h : Delivers s s') (h' : Quiet s' e) : Delivers s e := by
  obtain ⟨second, hsecond, hnone'⟩ := h'.commands
  cases h with
  | kept news first hlog hfirst hnone hbuffer =>
    refine .kept news (first ++ second) (h'.log.trans hlog) ?_ ?_ (h'.buffer.trans hbuffer)
    · rw [hsecond, hfirst, List.append_assoc]
    · rw [batches_append, hnone, hnone', List.append_nil]
  | handed news first batch hlog hfirst hone hbatch hempty =>
    refine .handed news (first ++ second) batch (h'.log.trans hlog) ?_ ?_ hbatch ?_
    · rw [hsecond, hfirst, List.append_assoc]
    · rw [batches_append, hone, hnone', List.append_nil]
    · rw [← List.length_eq_zero_iff, h'.buffer, hempty, List.length_nil]

theorem Delivers.handOver (s : EngineState) : Delivers s s.handOver :=
  .handed [] [.write s.buffer] s.buffer (List.append_nil _).symm rfl rfl rfl rfl

/-- Taking an event off a channel touches neither. -/
theorem quiet_tryNext {held : Bool} {next : Origin × ChangeEvent}
    (h : s.tryNext held = some (next, e)) :
    Quiet s e ∧ e.txnOpen = s.txnOpen ∧ e.coalescing = s.coalescing := by
  obtain ⟨origin, ev⟩ := next
  obtain ⟨-, rest, -, rfl⟩ | ⟨-, rest, -, rfl⟩ := tryNext_cases h
  · exact ⟨.of_eq rfl rfl rfl, rfl, rfl⟩
  · exact ⟨.of_eq rfl rfl rfl, rfl, rfl⟩

theorem quiet_takeEvent {held : Bool} {next : Origin × ChangeEvent}
    (h : s.takeEvent held = some (next, e)) : Quiet s e ∧ e.txnOpen = s.txnOpen := by
  unfold takeEvent at h
  split at h
  · cases h
    exact ⟨.of_eq rfl rfl rfl, rfl⟩
  · exact ⟨(quiet_tryNext h).1, (quiet_tryNext h).2.1⟩

theorem quiet_closeTxn (lsn : Lsn) (s : EngineState) :
    Quiet s (s.closeTxn lsn) ∧
      (s.closeTxn lsn).txnOpen = if lsn = 0 then s.txnOpen else false := by
  unfold closeTxn
  split
  · exact ⟨.refl s, rfl⟩
  · exact ⟨.of_eq rfl rfl rfl, rfl⟩

theorem quiet_stampBuffer (lsn : Lsn) (s : EngineState) :
    Quiet s (s.stampBuffer lsn) ∧ (s.stampBuffer lsn).txnOpen = s.txnOpen := by
  unfold stampBuffer
  split
  · exact ⟨.refl s, rfl⟩
  · exact ⟨.of_eq rfl (List.length_modify ..) rfl, rfl⟩

theorem quiet_releaseMark (s : EngineState) :
    Quiet s s.releaseMark ∧ s.releaseMark.txnOpen = s.txnOpen := by
  unfold releaseMark
  split
  · next mark _ =>
    split
    · exact ⟨⟨rfl, rfl, [.loadMark mark], rfl, rfl⟩, rfl⟩
    · exact ⟨.refl s, rfl⟩
  · exact ⟨.refl s, rfl⟩

/-- A buffer that is not full enough waits, if another event does. -/
theorem quiet_handOverOrWait {held overdue : Bool} {s : EngineState}
    (h : ((s.tryNext held).isSome && !(s.coalescing && overdue)) = true) :
    Quiet s (s.handOverOrWait held overdue) := by
  rw [Bool.and_eq_true, Bool.not_eq_true'] at h
  obtain ⟨⟨next, s'⟩, htry⟩ := Option.isSome_iff_exists.mp h.1
  obtain ⟨hquiet, -, hcoalescing⟩ := quiet_tryNext htry
  rw [handOverOrWait]
  simp only [htry, hcoalescing, h.2]
  exact hquiet.trans (.of_eq rfl rfl rfl)

theorem delivers_handOverOrWait (held overdue : Bool) (s : EngineState) :
    Delivers s (s.handOverOrWait held overdue) ∧
      (s.handOverOrWait held overdue).txnOpen = s.txnOpen := by
  rw [handOverOrWait]
  split
  · next next s' htry =>
    obtain ⟨hquiet, hopen, -⟩ := quiet_tryNext htry
    split
    · exact ⟨hquiet.deliversAfter ((Delivers.handOver s').quiet (.of_eq rfl rfl rfl)), hopen⟩
    · exact ⟨hquiet.deliversAfter (.of_eq rfl rfl rfl), hopen⟩
  · exact ⟨(Delivers.handOver s).quiet (.of_eq rfl rfl rfl), rfl⟩

/-- A commit hands over one batch at most, and closes its transaction. -/
theorem delivers_commit (lsn : Lsn) (held overdue : Bool) (s : EngineState) :
    Delivers s (s.commit lsn held overdue) ∧
      (s.commit lsn held overdue).txnOpen = if lsn = 0 then s.txnOpen else false := by
  obtain ⟨hclose, hopen⟩ := quiet_closeTxn lsn s
  obtain ⟨hrelease, hopen'⟩ := quiet_releaseMark ((s.closeTxn lsn).commitBuffer lsn held overdue)
  have hbuffer : Delivers (s.closeTxn lsn) ((s.closeTxn lsn).commitBuffer lsn held overdue) ∧
      ((s.closeTxn lsn).commitBuffer lsn held overdue).txnOpen = (s.closeTxn lsn).txnOpen := by
    rw [commitBuffer]
    split
    · split
      · exact ⟨(Quiet.refl _).delivers, rfl⟩
      · exact ⟨(Quiet.push rfl _).delivers, rfl⟩
    · obtain ⟨hstamp, hstamped⟩ := quiet_stampBuffer lsn (s.closeTxn lsn)
      obtain ⟨hdelivers, hstill⟩ :=
        delivers_handOverOrWait held overdue ((s.closeTxn lsn).stampBuffer lsn)
      exact ⟨hstamp.deliversAfter hdelivers, hstill.trans hstamped⟩
  exact ⟨hclose.deliversAfter (hbuffer.1.quiet hrelease), hopen'.trans (hbuffer.2.trans hopen)⟩

/-- A load's boundary that is put off hands over nothing. -/
theorem quiet_boundary {held overdue : Bool} {s : EngineState}
    (h : ((s.tryNext held).isSome && !(s.coalescing && overdue)) = true) :
    Quiet s (s.commit 0 held overdue) := by
  have hbuffer : Quiet s (s.commitBuffer 0 held overdue) := by
    rw [commitBuffer]
    split
    · exact .refl s
    · exact quiet_handOverOrWait h
  exact hbuffer.trans (quiet_releaseMark _).1

/-- A mark hands the buffer over, unless a transaction is open. -/
theorem delivers_mark (mark : ℕ) (s : EngineState) :
    (s.mark mark).txnOpen = s.txnOpen ∧
      (s.txnOpen = true → Quiet s (s.mark mark)) ∧ Delivers s (s.mark mark) := by
  simp only [EngineState.mark]
  split
  · exact ⟨rfl, fun _ => .of_eq rfl rfl rfl, .of_eq rfl rfl rfl⟩
  · next hclosed =>
    refine ⟨?_, fun hopen => absurd hopen hclosed, ?_⟩
    · split <;> rfl
    · split
      · exact Quiet.delivers ⟨rfl, rfl, [.loadMark mark], rfl, rfl⟩
      · exact (Delivers.handOver s).quiet ⟨rfl, rfl, [.loadMark mark], rfl, rfl⟩

theorem delivers_handOverRest (s : EngineState) : Delivers s s.handOverRest := by
  rw [handOverRest]
  split
  · exact .of_eq rfl rfl rfl
  · exact .handOver s

end EngineState

namespace Engine

variable {engine : Engine} {s e : EngineState}

open EngineState

/-- A truncate puts out no operation. -/
theorem delivers_truncate (table : TableName) (version : Option ℕ) (s : EngineState) :
    Delivers s (engine.truncate table version s) ∧
      (engine.truncate table version s).txnOpen = s.txnOpen := by
  rw [Engine.truncate]
  split
  · exact ⟨(Quiet.refl s).delivers, rfl⟩
  · next pattern only _ =>
    obtain ⟨cleared, heq, -⟩ := raiseFloors_eq s.handOverRest pattern version only.isSome
    have hopen : s.handOverRest.txnOpen = s.txnOpen := by
      rw [handOverRest]
      split <;> rfl
    rw [heq]
    refine ⟨?_, hopen⟩
    -- the clearing follows in a command of its own
    cases delivers_handOverRest s with
    | kept news commands hlog hcommands hnone hbuffer =>
      refine .kept (news ++ [.truncated pattern version only.isSome])
        (commands ++ [.truncate pattern version only]) ?_ ?_ ?_ ?_
      · exact (congrArg (· ++ _) hlog).trans (List.append_assoc ..)
      · exact (congrArg (· ++ _) hcommands).trans (List.append_assoc ..)
      · rw [batches_append, hnone]
        rfl
      · rw [List.filter_append]
        exact hbuffer.trans (by simp [Emitted.isOp])
    | handed news commands batch hlog hcommands hone hbatch hempty =>
      refine .handed (news ++ [.truncated pattern version only.isSome])
        (commands ++ [.truncate pattern version only]) batch ?_ ?_ ?_ ?_ hempty
      · exact (congrArg (· ++ _) hlog).trans (List.append_assoc ..)
      · exact (congrArg (· ++ _) hcommands).trans (List.append_assoc ..)
      · rw [batches_append, hone]
        rfl
      · rw [List.filter_append]
        exact hbatch.trans (by simp [Emitted.isOp])

/-- A row's operations join the buffer. -/
theorem delivers_bufferOps (settings : EngineSettings) (origin : Origin) (ops : List DocumentOp)
    (s : EngineState) : Delivers s (bufferOps settings origin ops s) ∧
      (bufferOps settings origin ops s).txnOpen = s.txnOpen := by
  have hops : (ops.map (Emitted.op origin)).filter Emitted.isOp = ops.map (.op origin) := by
    refine List.filter_eq_self.mpr fun emitted hmem => ?_
    obtain ⟨op, -, rfl⟩ := List.mem_map.mp hmem
    rfl
  rw [bufferOps]
  generalize (if s.loadRunning then remember ops s.superseded else s.superseded) = superseded
  dsimp only
  split
  · refine ⟨.handed (ops.map (.op origin)) [.write (s.buffer ++ ops.map fun op => ⟨0, op⟩)]
      (s.buffer ++ ops.map fun op => ⟨0, op⟩) rfl rfl rfl ?_ rfl, rfl⟩
    rw [hops]
    simp
  · refine ⟨.kept (ops.map (.op origin)) [] rfl (List.append_nil _).symm rfl ?_, rfl⟩
    rw [hops]
    simp

theorem delivers_writeRow {settings : EngineSettings} {completions : Completions}
    {origin : Origin} {row : RowChange}
    (h : engine.writeRow settings completions origin row s = .ok e) :
    Delivers s e ∧ e.txnOpen = s.txnOpen := by
  obtain ⟨-, rfl⟩ | ⟨target, ops, left, -, -, rfl⟩ := writeRow_ok h
  · exact ⟨(Quiet.refl e).delivers, rfl⟩
  · exact delivers_bufferOps settings origin _ s

end Engine

/-! ## The invariant -/

/-- What holds between any two steps of the engine and its record. -/
structure TxnInv (s : TxnState) : Prop where
  /-- the record is of the buffer -/
  tracks : s.owners.length = s.engine.buffer.length
  /-- and of the batches -/
  records : s.handed.map (fun batch => batch.owners.length) =
    (batches s.engine.commands).map List.length
  /-- what is in the buffer has begun -/
  begun : ∀ t, some t ∈ s.owners → t ≤ s.begun
  /-- no transaction is open that the engine takes for complete -/
  closed : s.engine.txnOpen = false → s.committed = s.begun
  /-- a batch that was not cut holds complete transactions only -/
  complete : ∀ batch ∈ s.handed, batch.cause = .stream ∨ batch.cause = .load →
    ∀ t, some t ∈ batch.owners → t ≤ batch.committed

/-- Nothing of a transaction that is not complete is handed over, in whole or in part. -/
theorem TxnInv.inWhole {s : TxnState} (h : TxnInv s) : Untorn s where
  whole _ batch hbatch hcause t ht hopen :=
    absurd (h.complete batch (List.mem_of_getElem? hbatch) hcause t ht) (not_le.mpr hopen)
  apart batch hbatch hcause t ht := h.complete batch hbatch (.inr hcause) t ht

variable {s s' : TxnState} {e : EngineState}

/-- A step that hands nothing over and opens or closes no transaction. -/
theorem TxnInv.idle (h : TxnInv s) (hbuffer : e.buffer = s.engine.buffer)
    (hcommands : e.commands = s.engine.commands) (hopen : e.txnOpen = s.engine.txnOpen) :
    TxnInv { s with engine := e } where
  tracks := h.tracks.trans (congrArg List.length hbuffer.symm)
  records := h.records.trans (by rw [hcommands])
  begun := h.begun
  closed hclosed := h.closed (hopen ▸ hclosed)
  complete := h.complete

/-- A step that puts something out, or hands something over. -/
theorem TxnInv.record (h : TxnInv s) {begun committed : ℕ} {cause : Cause} {owner : Option ℕ}
    (hdelivers : Delivers s.engine e) (hbegun : s.begun ≤ begun)
    (hclosed : e.txnOpen = false → committed = begun) (howner : ∀ t, owner = some t → t ≤ begun)
    (hcomplete : cause = .stream ∨ cause = .load → owner = none ∧
      (batches (e.commands.drop s.engine.commands.length) = [] ∨
        ∀ t, some t ∈ s.owners → t ≤ committed)) :
    TxnInv (TxnState.record cause owner e { s with begun := begun, committed := committed }) := by
  have hjoined : ∀ (news : List Emitted) t, some t ∈ s.owners ++ news.map (fun _ => owner) →
      some t ∈ s.owners ∨ owner = some t := fun news t ht => by
    refine (List.mem_append.mp ht).imp_right fun hnew => ?_
    obtain ⟨_, -, howner⟩ := List.mem_map.mp hnew
    exact howner
  have hle : ∀ (news : List Emitted) t, some t ∈ s.owners ++ news.map (fun _ => owner) →
      t ≤ begun := fun news t ht =>
    (hjoined news t ht).elim (fun hold => (h.begun t hold).trans hbegun) (howner t)
  rw [TxnState.record]
  cases hdelivers with
  | kept news commands hlog hcommands hnone hbuffer =>
    simp only [hlog, hcommands, List.drop_left, hnone, if_true]
    refine ⟨?_, h.records.trans ?_, hle _, hclosed, h.complete⟩
    · rw [List.length_append, List.length_map, h.tracks, hbuffer]
    · rw [hcommands, batches_append, hnone, List.append_nil]
  | handed news commands batch hlog hcommands hone hbatch hempty =>
    simp only [hlog, hcommands, List.drop_left, hone, List.cons_ne_nil, if_false]
    refine ⟨by rw [hempty]; rfl, ?_, fun t ht => absurd ht List.not_mem_nil, hclosed, ?_⟩
    · rw [hcommands, batches_append, hone, List.map_append, List.map_append, h.records]
      simp [hbatch, h.tracks]
    · intro other hother hcause t ht
      obtain hold | hnew := List.mem_append.mp hother
      · exact h.complete other hold hcause t ht
      · obtain rfl := List.mem_singleton.mp hnew
        obtain ⟨hnobody, hdone⟩ := hcomplete hcause
        rw [hcommands, List.drop_left, hone] at hdone
        refine (hjoined _ t ht).elim (hdone.resolve_left (List.cons_ne_nil _ _) t) fun hsome => ?_
        rw [hnobody] at hsome
        cases hsome

variable {engine : Engine}

/-- A turn of the loop. -/
theorem TxnInv.turn (h : TxnInv s) {settings : EngineSettings} {held heldAgain overdue : Bool}
    {origin : Origin} {ev : ChangeEvent} {taken : EngineState}
    (htake : s.engine.takeEvent held = some ((origin, ev), taken))
    (hwaits : boundaryWaits s (.turn settings held heldAgain overdue) = true) :
    TxnInv ((s.note ev).record ev.cause none
      (engine.handle settings heldAgain overdue taken (origin, ev))) := by
  obtain ⟨hquiet, hopen⟩ := quiet_takeEvent htake
  simp only [boundaryWaits, htake] at hwaits
  have hnobody : ∀ (begun t : ℕ), (none : Option ℕ) = some t → t ≤ begun :=
    fun _ _ hnone => by cases hnone
  have hbegun : ∀ t, some t ∈ s.owners → t ≤ s.begun := h.begun
  -- an event that hands nothing over
  have hpassed : ∀ {cause : Cause} {e : EngineState}, Quiet taken e →
      e.txnOpen = taken.txnOpen → TxnInv (s.record cause none e) := by
    intro cause e hstill hsame
    refine h.record (hquiet.trans hstill).delivers le_rfl ?_ (hnobody _) fun _ => ⟨rfl, .inl ?_⟩
    · exact fun hclosed => h.closed (by rw [← hopen, ← hsame, hclosed])
    · exact (hquiet.trans hstill).batches_eq
  cases ev with
  | begin lsn =>
    refine h.record (hquiet.deliversAfter (.of_eq rfl rfl rfl)) (Nat.le_succ _) ?_ (hnobody _) ?_
    · exact fun hclosed => by cases hclosed
    · exact fun _ => ⟨rfl, .inl (hquiet.trans (.of_eq rfl rfl rfl)).batches_eq⟩
  | commit lsn =>
    obtain ⟨hdelivers, hclose⟩ := delivers_commit lsn heldAgain overdue taken
    by_cases hlsn : lsn = 0
    · subst hlsn
      simp only [TxnState.note, if_true]
      refine h.record (hquiet.deliversAfter hdelivers) le_rfl ?_ (hnobody _) fun _ => ⟨rfl, ?_⟩
      · exact fun hclosed => h.closed (by rw [← hopen, ← hclosed]; exact hclose.symm)
      · simp only [ne_eq, not_true, decide_false, Bool.false_or, Bool.or_eq_true] at hwaits
        refine hwaits.symm.imp (fun hwaits => ?_) fun hdone t ht => ?_
        · exact (hquiet.trans (quiet_boundary hwaits)).batches_eq
        · exact of_decide_eq_true (List.all_eq_true.mp hdone _ ht)
    · simp only [TxnState.note, if_neg hlsn]
      exact h.record (hquiet.deliversAfter hdelivers) le_rfl (fun _ => rfl) (hnobody _)
        fun _ => ⟨rfl, .inr hbegun⟩
  | row change => exact hpassed (.of_eq rfl rfl rfl) rfl
  | loadMark mark =>
    obtain ⟨hsame, hheld, hdelivers⟩ := EngineState.delivers_mark mark taken
    refine h.record (hquiet.deliversAfter hdelivers) le_rfl ?_ (hnobody _) fun _ => ⟨rfl, ?_⟩
    · exact fun hclosed => h.closed (by rw [← hopen, ← hclosed]; exact hsame.symm)
    · -- a mark that comes between a begin and its commit is held
      cases hnow : taken.txnOpen with
      | true => exact .inl (hquiet.trans (hheld hnow)).batches_eq
      | false => exact .inr fun t ht => (hbegun t ht).trans (h.closed (hopen ▸ hnow)).ge
  | loadStarted | schemaDrift _ _ => exact hpassed (.refl taken) rfl
  | loadFinished => exact hpassed (.of_eq rfl rfl rfl) rfl
  | tableTruncated table version =>
    obtain ⟨hdelivers, hsame⟩ := engine.delivers_truncate table version taken
    refine h.record (hquiet.deliversAfter hdelivers) le_rfl ?_ (hnobody _) fun hcause => ?_
    · exact fun hclosed => h.closed (by rw [← hopen, ← hclosed]; exact hsame.symm)
    · obtain hcause | hcause := hcause <;> cases hcause

theorem owner_eq {t : ℕ} (h : s.owner = some t) : t = s.begun := by
  rw [TxnState.owner] at h
  split at h
  · split at h
    · exact (Option.some.inj h).symm
    · cases h
  · cases h

/-- What is sent, gathered or read stays outside the buffer. -/
theorem step_outside {s e : EngineState} {action : EngineAction}
    (hturn : ∀ settings held heldAgain overdue, action ≠ .turn settings held heldAgain overdue)
    (hwrite : action ≠ .write) (h : engine.step s action = some e) :
    e.buffer = s.buffer ∧ e.commands = s.commands ∧ e.txnOpen = s.txnOpen ∧ e.log = s.log := by
  cases Engine.does h with
  | turned => exact absurd rfl (hturn _ _ _ _)
  | wrote | unwritten | written => exact absurd rfl hwrite
  | gathered _ htry | putAside _ htry =>
    obtain ⟨-, rest, -, rfl⟩ | ⟨-, rest, -, rfl⟩ := EngineState.tryNext_cases htry
    · exact ⟨rfl, rfl, rfl, rfl⟩
    · exact ⟨rfl, rfl, rfl, rfl⟩
  | fed | fedCopy | grouped | fetched | unread | closedEvents | closedCopy | stopped | cutOff =>
    exact ⟨rfl, rfl, rfl, rfl⟩

/-- Anything the engine and its environment do, except a boundary that is not put off. -/
theorem TxnInv.step (h : TxnInv s) {action : EngineAction}
    (hwaits : boundaryWaits s action = true) (hstep : engine.txnStep s action = some s') :
    TxnInv s' := by
  obtain ⟨e, he, rfl⟩ := Option.map_eq_some_iff.mp hstep
  cases Engine.does he with
  | turned hidle htake =>
    simp only [htake]
    exact h.turn htake hwaits
  | wrote hphase hwrite =>
    obtain ⟨hdelivers, hopen⟩ := Engine.delivers_writeRow hwrite
    refine h.record (hdelivers.quiet (.of_eq rfl rfl rfl)) le_rfl ?_ ?_ ?_
    · exact fun hclosed => h.closed (hopen.symm.trans hclosed)
    · exact fun t howner => (owner_eq howner).le
    · exact fun hcause => by obtain hcause | hcause := hcause <;> cases hcause
  | unwritten | written =>
    refine h.record (.of_eq rfl rfl rfl) le_rfl h.closed ?_ ?_
    · exact fun t howner => (owner_eq howner).le
    · exact fun hcause => by obtain hcause | hcause := hcause <;> cases hcause
  | fed | fedCopy | gathered | putAside | grouped | fetched | unread | closedEvents | closedCopy
    | stopped | cutOff =>
    obtain ⟨hbuffer, hcommands, hopen, -⟩ := step_outside (fun _ _ _ _ => by simp) (by simp) he
    exact h.idle hbuffer hcommands hopen

namespace Engine

/-- **Where no load's boundary goes ahead of a commit, no transaction is torn**, whatever
the two channels bring and whatever else happens. -/
theorem untorn (h : (txnSystem engine).ReachUnder
    (fun s action => boundaryWaits s action = true) s) : Untorn s := by
  have hinv : TxnInv s := h.invariant
    (fun _ hinitial => by
      rw [hinitial]
      exact ⟨rfl, rfl, fun _ ht => absurd ht List.not_mem_nil, fun _ => rfl,
        fun _ hbatch => absurd hbatch List.not_mem_nil⟩)
    fun _ _ _ hinv hwaits hstep => hinv.step hwaits hstep
  exact hinv.inWhole

end Engine

/-! ## Runs that the kernel follows -/

/-- The engine and its record before anything was sent. -/
def TxnState.start : TxnState := ⟨.start, 0, 0, [], []⟩

/-- The stream stores a row. -/
def storedRow (key : ℤ) (version : ℕ) : ChangeEvent :=
  .row ⟨("public", "t"), .insert (.int key) (.obj [("id", .int key)]), some version⟩

/-- The loop takes an event that is not a row. -/
def takeEventOnce : EngineAction := .turn ⟨100, 1000000⟩ false false false

/-- The loop takes a row that waits alone, and writes it. -/
def writeRowOnce : List EngineAction :=
  [takeEventOnce, .gather false, .fetch (.ok fun _ _ _ => none), .write, .write]

/-- A transaction begins; a load's row and its boundary come before the transaction's
own row and its commit. -/
def boundaryFirst : List EngineAction :=
  [.feed (.begin 10), takeEventOnce, .feedCopy (storedRow 3 4), .feedCopy (.commit 0)] ++
    writeRowOnce ++ [takeEventOnce, .feed (storedRow 1 10), .feed (.commit 10)] ++ writeRowOnce ++
    [takeEventOnce]

/-- Two batches, none of them torn. -/
theorem boundaryFirst_untorn : ∃ s,
    (Engine.txnSystem plainEngine).runUnder boundaryWaits .start boundaryFirst = some s ∧
      s.handed = [⟨.load, [none], 0⟩, ⟨.stream, [some 1], 1⟩] ∧ Untorn s := by
  have hrun : ((Engine.txnSystem plainEngine).runUnder boundaryWaits .start boundaryFirst).map
      (·.handed) = some [⟨.load, [none], 0⟩, ⟨.stream, [some 1], 1⟩] := by decide +kernel
  obtain ⟨s, hs, hhanded⟩ := Option.map_eq_some_iff.mp hrun
  exact ⟨s, hs, hhanded, Engine.untorn (.of_runUnder (.initial rfl) hs)⟩

/-- A transaction of two rows; the boundary comes between them. -/
def boundaryBetween : List EngineAction :=
  [.feed (.begin 10), .feed (storedRow 1 10), takeEventOnce] ++ writeRowOnce ++
    [.feedCopy (.commit 0), takeEventOnce, .feed (storedRow 2 10)] ++ writeRowOnce

/-- The boundary hands over the first row of the transaction; the second is in the
buffer. -/
theorem boundaryBetween_torn :
    ∃ s, (Engine.txnSystem plainEngine).Reachable s ∧ ¬ Untorn s := by
  have hrun : ((Engine.txnSystem plainEngine).run .start boundaryBetween).map
      (fun s => (s.handed, s.owners)) = some ([⟨.load, [some 1], 0⟩], [some 1]) := by
    decide +kernel
  obtain ⟨s, hs, hrecord⟩ := Option.map_eq_some_iff.mp hrun
  obtain ⟨hhanded, howners⟩ := Prod.mk.inj hrecord
  refine ⟨s, Transition.System.reachable_of_run rfl hs, fun h => ?_⟩
  have hrest := h.whole 0 ⟨.load, [some 1], 0⟩ (by rw [hhanded]; rfl) (.inr rfl) 1
    (List.mem_singleton.mpr rfl) Nat.zero_lt_one
  exact hrest.2 (by rw [howners]; exact List.mem_singleton.mpr rfl)

end Pg2osync
