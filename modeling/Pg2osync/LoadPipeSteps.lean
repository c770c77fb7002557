import Pg2osync.LoadPipe

/-!
# What a step of the engine does to what a load has sent

The engine takes what a load has sent in the order it was sent in, and hands batches and
marks to the sink loop in the order of what it has taken. `Sends` is what a part of a step
does to the commands and the buffer, `Releases` what a commit may add to it, and
`CopyStep` sorts the steps by what they handle of the load's: nothing, a row, or a mark
that is held or goes out.
-/

namespace Pg2osync

/-! ## Counting -/

theorem opsIn_append (first second : List SinkCommand) :
    opsIn (first ++ second) = opsIn first ++ opsIn second := by
  rw [opsIn, batches_append, List.flatten_append, List.map_append]
  rfl

theorem marksIn_append (first second : List SinkCommand) :
    marksIn (first ++ second) = marksIn first ++ marksIn second :=
  List.filterMap_append

theorem mem_marksIn {commands : List SinkCommand} {mark : ℕ} :
    mark ∈ marksIn commands ↔ SinkCommand.loadMark mark ∈ commands := by
  rw [marksIn, List.mem_filterMap]
  constructor
  · rintro ⟨command, hmem, h⟩
    split at h
    · obtain rfl := Option.some.inj h
      exact hmem
    · cases h
  · exact fun hmem => ⟨_, hmem, rfl⟩

/-- A longer part of the commands has more operations. -/
theorem opsIn_mono {first second : List SinkCommand} (h : first <+: second) :
    opsIn first <+: opsIn second := by
  obtain ⟨rest, rfl⟩ := h
  rw [opsIn_append]
  exact List.prefix_append _ _

variable {command : SinkCommand} {commands : List SinkCommand}

theorem opsIn_push (h : batches [command] = []) :
    opsIn (commands ++ [command]) = opsIn commands := by
  rw [opsIn_append, opsIn, opsIn, h, List.flatten_nil, List.map_nil, List.append_nil]

variable {next : Origin × ChangeEvent} {held : Bool}

namespace EngineState

/-! ## What a step hands over -/

variable {e e' e'' : EngineState}

theorem putOut_of_eq (hcommands : e'.commands = e.commands)
    (hbuffer : e'.buffer.map (·.op) = e.buffer.map (·.op)) : e'.putOut = e.putOut := by
  rw [putOut, putOut, hcommands, hbuffer]

/-- What is handed over was put out before. -/
theorem putOut_handOver (e : EngineState) : e.handOver.putOut = e.putOut := by
  have hbatch : opsIn [.write e.buffer] = e.buffer.map (·.op) :=
    congrArg (List.map LsnOp.op) (List.append_nil e.buffer)
  change opsIn (e.commands ++ [.write e.buffer]) ++ [] = opsIn e.commands ++ e.buffer.map (·.op)
  rw [opsIn_append, hbatch, List.append_nil]

theorem putOut_push (hbatch : batches [command] = []) : (e.push command).putOut = e.putOut := by
  change opsIn (e.commands ++ [command]) ++ e.buffer.map (·.op) = e.putOut
  rw [opsIn_push hbatch]
  rfl

/-- The commands grow, by a mark last of all and only behind everything put out. -/
structure Sends (e e' : EngineState) (mark : Option ℕ) : Prop where
  /-- no other mark is among them -/
  commands : ∃ more, e'.commands = e.commands ++ (more ++ (mark.map SinkCommand.loadMark).toList) ∧
    marksIn more = []
  /-- behind a mark nothing is left in the buffer -/
  flushed : mark.isSome = true → e'.buffer = []
  /-- and nothing that was put out is lost -/
  putOut : e.putOut <+: e'.putOut

theorem Sends.of_eq (hcommands : e'.commands = e.commands)
    (hbuffer : e'.buffer.map (·.op) = e.buffer.map (·.op)) : Sends e e' none where
  commands := ⟨[], by rw [hcommands]; exact (List.append_nil _).symm, rfl⟩
  flushed := nofun
  putOut := by
    have heq := putOut_of_eq hcommands hbuffer
    exact heq ▸ List.prefix_refl _

theorem Sends.refl (e : EngineState) : Sends e e none :=
  .of_eq rfl rfl

theorem Sends.trans {mark : Option ℕ} (h : Sends e e' none) (h' : Sends e' e'' mark) :
    Sends e e'' mark where
  commands := by
    obtain ⟨first, hfirst, hnone⟩ := h.commands
    obtain ⟨second, hsecond, hnone'⟩ := h'.commands
    refine ⟨first ++ second, ?_, by rw [marksIn_append, hnone, hnone', List.append_nil]⟩
    rw [hsecond, hfirst]
    simp only [Option.map_none, Option.toList_none, List.append_nil, List.append_assoc]
  flushed := h'.flushed
  putOut := h.putOut.trans h'.putOut

theorem Sends.handOver (e : EngineState) : Sends e e.handOver none where
  commands := ⟨[.write e.buffer], rfl, rfl⟩
  flushed := nofun
  putOut := by
    have heq := putOut_handOver e
    exact heq ▸ List.prefix_refl _

/-- A command that is neither a batch nor a mark. -/
theorem Sends.push (e : EngineState) (hbatch : batches [command] = [])
    (hmark : marksIn [command] = []) : Sends e (e.push command) none where
  commands := ⟨[command], rfl, hmark⟩
  flushed := nofun
  putOut := by
    have heq := putOut_push (e := e) hbatch
    exact heq ▸ List.prefix_refl _

/-- A mark, behind an empty buffer. -/
theorem Sends.mark (mark : ℕ) (hempty : e.buffer = []) :
    Sends e (e.push (.loadMark mark)) (some mark) where
  commands := ⟨[], rfl, rfl⟩
  flushed _ := hempty
  putOut := by
    have heq := putOut_push (e := e) (show batches [.loadMark mark] = [] from rfl)
    exact heq ▸ List.prefix_refl _

/-- A mark that was held goes out, or none does. -/
def Releases (e e' : EngineState) : Prop :=
  (Sends e e' none ∧ e'.pendingMark = e.pendingMark) ∨
    ∃ mark, Sends e e' (some mark) ∧ e.pendingMark = some mark ∧ e'.pendingMark = none

theorem Releases.after (h : Sends e e' none) (hmark : e'.pendingMark = e.pendingMark)
    (h' : Releases e' e'') : Releases e e'' := by
  obtain ⟨hsends, hsame⟩ | ⟨mark, hsends, hheld, hnone⟩ := h'
  · exact .inl ⟨h.trans hsends, hsame.trans hmark⟩
  · exact .inr ⟨mark, h.trans hsends, hmark ▸ hheld, hnone⟩

theorem releases_releaseMark (e : EngineState) : Releases e e.releaseMark := by
  rw [releaseMark]
  split
  · next mark hheld =>
    split
    · next hready =>
      rw [Bool.and_eq_true, List.isEmpty_iff] at hready
      obtain ⟨hcommands, hflushed, hputOut⟩ := Sends.mark mark hready.1
      exact .inr ⟨mark, ⟨hcommands, hflushed, hputOut⟩, hheld, rfl⟩
    · exact .inl ⟨.refl e, rfl⟩
  · exact .inl ⟨.refl e, rfl⟩

theorem sends_tryNext (h : e.tryNext held = some (next, e')) :
    Sends e e' none ∧ e'.pendingMark = e.pendingMark ∧
      e'.buffer = e.buffer := by
  obtain ⟨origin, ev⟩ := next
  obtain ⟨-, rest, -, rfl⟩ | ⟨-, rest, -, rfl⟩ := tryNext_cases h
  · exact ⟨.of_eq rfl rfl, rfl, rfl⟩
  · exact ⟨.of_eq rfl rfl, rfl, rfl⟩

theorem sends_takeEvent (h : e.takeEvent held = some (next, e')) :
    Sends e e' none ∧ e'.pendingMark = e.pendingMark ∧ e'.buffer = e.buffer ∧
      e'.commands = e.commands ∧ e'.txnOpen = e.txnOpen := by
  rw [takeEvent] at h
  split at h
  · cases h
    exact ⟨.of_eq rfl rfl, rfl, rfl, rfl, rfl⟩
  · obtain ⟨origin, ev⟩ := next
    obtain ⟨-, rest, -, rfl⟩ | ⟨-, rest, -, rfl⟩ := tryNext_cases h
    · exact ⟨.of_eq rfl rfl, rfl, rfl, rfl, rfl⟩
    · exact ⟨.of_eq rfl rfl, rfl, rfl, rfl, rfl⟩

theorem sends_handOverOrWait (held overdue : Bool) (e : EngineState) :
    Sends e (e.handOverOrWait held overdue) none ∧
      (e.handOverOrWait held overdue).pendingMark = e.pendingMark := by
  rw [handOverOrWait]
  split
  · next next e' htry =>
    obtain ⟨hsends, hmark, -⟩ := sends_tryNext htry
    split
    · exact ⟨hsends.trans ((Sends.handOver e').trans (.of_eq rfl rfl)), hmark⟩
    · exact ⟨hsends.trans (.of_eq rfl rfl), hmark⟩
  · exact ⟨(Sends.handOver e).trans (.of_eq rfl rfl), rfl⟩

/-- A position is lent to an operation, which stays what it is. -/
theorem map_op_stamp (lsn : Lsn) (buffer : List LsnOp) :
    (stamp lsn buffer).map (·.op) = buffer.map (·.op) := by
  rw [stamp]
  refine List.ext_getElem? fun i => ?_
  rw [List.getElem?_map, List.getElem?_map, List.getElem?_modify]
  split
  · cases buffer[i]? <;> rfl
  · cases buffer[i]? <;> rfl

theorem sends_commitBuffer (lsn : Lsn) (held overdue : Bool) (e : EngineState) :
    Sends e (e.commitBuffer lsn held overdue) none ∧
      (e.commitBuffer lsn held overdue).pendingMark = e.pendingMark := by
  rw [commitBuffer]
  split
  · split
    · exact ⟨.refl e, rfl⟩
    · exact ⟨.push e rfl rfl, rfl⟩
  · obtain ⟨hsends, hmark⟩ := sends_handOverOrWait held overdue (e.stampBuffer lsn)
    have hstamp : Sends e (e.stampBuffer lsn) none ∧
        (e.stampBuffer lsn).pendingMark = e.pendingMark := by
      rw [stampBuffer]
      split
      · exact ⟨.refl e, rfl⟩
      · exact ⟨.of_eq rfl (map_op_stamp lsn e.buffer), rfl⟩
    exact ⟨hstamp.1.trans hsends, hmark.trans hstamp.2⟩

/-- A commit hands over a batch or a position, and then a mark that was held. -/
theorem releases_commit (lsn : Lsn) (held overdue : Bool) (e : EngineState) :
    Releases e (e.commit lsn held overdue) := by
  have hclose : Sends e (e.closeTxn lsn) none ∧ (e.closeTxn lsn).pendingMark = e.pendingMark := by
    rw [closeTxn]
    split
    · exact ⟨.refl e, rfl⟩
    · exact ⟨.of_eq rfl rfl, rfl⟩
  obtain ⟨hbuffer, hmark⟩ := sends_commitBuffer lsn held overdue (e.closeTxn lsn)
  exact .after (hclose.1.trans hbuffer) (hmark.trans hclose.2) (releases_releaseMark _)

/-- A mark that comes outside a transaction follows what is in the buffer. -/
theorem sends_mark {mark : ℕ} (hclosed : e.txnOpen = false) :
    Sends e (e.mark mark) (some mark) ∧ (e.mark mark).pendingMark = e.pendingMark := by
  have hwipe : Sends e e.wipe none := .of_eq rfl rfl
  have hclosed' : e.wipe.txnOpen = false := hclosed
  rw [EngineState.mark]
  simp only [hclosed', Bool.false_eq_true, if_false]
  split
  · next hempty => exact ⟨hwipe.trans (.mark mark (List.isEmpty_iff.mp hempty)), rfl⟩
  · have hflat : Sends e.wipe.handOver { e.wipe.handOver with coalescing := false } none :=
      .of_eq rfl rfl
    exact ⟨hwipe.trans ((Sends.handOver e.wipe).trans (hflat.trans (.mark mark rfl))), rfl⟩

/-- One that comes inside a transaction is held. -/
theorem parks_mark {mark : ℕ} (hopen : e.txnOpen = true) :
    (e.mark mark).pendingMark = some mark ∧ (e.mark mark).commands = e.commands ∧
      (e.mark mark).buffer = e.buffer := by
  have hmark : e.mark mark = { e.wipe with pendingMark := some mark } := by
    rw [EngineState.mark]
    exact if_pos hopen
  rw [hmark]
  exact ⟨rfl, rfl, rfl⟩

end EngineState

variable {settings : EngineSettings} {origin : Origin} {completions : Completions} {row : RowChange}

namespace Engine

open EngineState

variable {engine : Engine} {e e' : EngineState}

theorem sends_truncate (table : TableName) (version : Option ℕ) (e : EngineState) :
    Sends e (engine.truncate table version e) none ∧
      (engine.truncate table version e).pendingMark = e.pendingMark := by
  rw [truncate]
  split
  · exact ⟨.refl e, rfl⟩
  · next pattern only _ =>
    have hrest : Sends e e.handOverRest none ∧ e.handOverRest.pendingMark = e.pendingMark := by
      rw [handOverRest]
      split
      · exact ⟨.of_eq rfl rfl, rfl⟩
      · exact ⟨.handOver e, rfl⟩
    have hraise : Sends e.handOverRest
        (e.handOverRest.raiseFloors pattern version only.isSome) none ∧
        (e.handOverRest.raiseFloors pattern version only.isSome).pendingMark =
          e.handOverRest.pendingMark := by
      obtain ⟨cleared, heq, -⟩ := raiseFloors_eq e.handOverRest pattern version only.isSome
      rw [heq]
      exact ⟨.of_eq rfl rfl, rfl⟩
    have hpush : Sends _ ((e.handOverRest.raiseFloors pattern version only.isSome).push
        (.truncate pattern version only)) none := .push _ rfl rfl
    exact ⟨hrest.1.trans (hraise.1.trans (hpush.trans (.of_eq rfl rfl))),
      hraise.2.trans hrest.2⟩

theorem putOut_bufferOps (settings : EngineSettings) (origin : Origin) (ops : List DocumentOp)
    (e : EngineState) : (bufferOps settings origin ops e).putOut = e.putOut ++ ops := by
  have hbuffer : (e.buffer ++ ops.map (LsnOp.mk 0)).map LsnOp.op = e.buffer.map LsnOp.op ++ ops := by
    rw [List.map_append, List.map_map]
    exact congrArg (_ ++ ·) (List.map_id ops)
  rw [bufferOps]
  dsimp only
  split
  · have hbatch : opsIn [.write (e.buffer ++ ops.map (LsnOp.mk 0))] =
        (e.buffer ++ ops.map (LsnOp.mk 0)).map LsnOp.op :=
      congrArg (List.map LsnOp.op) (List.append_nil _)
    change opsIn (e.commands ++ [.write (e.buffer ++ ops.map (LsnOp.mk 0))]) ++ [] = _
    rw [opsIn_append, hbatch, hbuffer, List.append_nil, EngineState.putOut, List.append_assoc]
  · change opsIn e.commands ++ (e.buffer ++ ops.map (LsnOp.mk 0)).map LsnOp.op = _
    rw [hbuffer, EngineState.putOut, List.append_assoc]

theorem sends_bufferOps (settings : EngineSettings) (origin : Origin) (ops : List DocumentOp)
    (e : EngineState) : Sends e (bufferOps settings origin ops e) none ∧
      (bufferOps settings origin ops e).pendingMark = e.pendingMark := by
  rw [bufferOps]
  have hbuffered : ∀ (known : String × String → Option ℕ) (bytes : ℕ) (log : List Emitted),
      Sends e { e with
        superseded := known
        buffer := e.buffer ++ ops.map fun op => ⟨0, op⟩
        bytes := bytes
        log := log } none := fun known bytes log =>
    { commands := ⟨[], (List.append_nil _).symm, rfl⟩
      flushed := fun h => by cases h
      putOut := by
        change _ <+: opsIn e.commands ++ (e.buffer ++ _).map (·.op)
        rw [List.map_append, ← List.append_assoc]
        exact List.prefix_append _ _ }
  dsimp only
  split
  · exact ⟨(hbuffered _ _ _).trans (.handOver _), rfl⟩
  · exact ⟨hbuffered _ _ _, rfl⟩

theorem sends_writeRow (h : engine.writeRow settings completions origin row e = .ok e') :
    Sends e e' none ∧ e'.pendingMark = e.pendingMark := by
  obtain ⟨-, rfl⟩ | ⟨target, ops, left, -, -, rfl⟩ := writeRow_ok h
  · exact ⟨.refl e', rfl⟩
  · exact sends_bufferOps settings origin _ e

/-- What a row adds to what is put out. -/
theorem putOut_writeRow (h : engine.writeRow settings completions origin row e = .ok e') :
    e'.putOut = e.putOut ++ (engine.opsOf completions row).filter fun op => !e.dead op := by
  obtain ⟨hnone, rfl⟩ | ⟨target, ops, left, htarget, hops, rfl⟩ := writeRow_ok h
  · simp only [opsOf, hnone, List.filter_nil, List.append_nil]
  · simp only [opsOf, htarget, hops]
    exact putOut_bufferOps settings origin _ e

end Engine

/-! ## What a step does to what a load has sent -/

/-- An action takes a mark off the load's channel. -/
def EngineState.TakesMark (e : EngineState) (action : EngineAction) (mark : ℕ) : Prop :=
  ∃ settings held heldAgain overdue taken, action = .turn settings held heldAgain overdue ∧
    e.takeEvent held = some ((.copy, .loadMark mark), taken)

/-- What an action of the engine handles of what a load has sent, and what it makes of
it. -/
inductive EngineState.CopyStep (e e' : EngineState) (action : EngineAction) :
    List WrittenRow → Prop where
  /-- neither a row nor a mark -/
  | elsewhere (handled : List ChangeEvent) : e.pending .copy = handled ++ e'.pending .copy →
      (∀ ev ∈ handled, ev.rowOf = none ∧ ∀ mark, ev ≠ .loadMark mark) → Releases e e' →
      CopyStep e e' action []
  /-- a row -/
  | row (written : WrittenRow) : e.pending .copy = .row written.row :: e'.pending .copy →
      written.upTo = e'.putOut → written.out <:+ e'.putOut → Sends e e' none → e'.pendingMark = e.pendingMark →
      CopyStep e e' action [written]
  /-- a mark, which is held -/
  | parked (mark : ℕ) : e.pending .copy = .loadMark mark :: e'.pending .copy →
      e.TakesMark action mark → e.txnOpen = true → e'.pendingMark = some mark →
      e'.commands = e.commands → e'.buffer = e.buffer → CopyStep e e' action []
  /-- a mark, which goes out -/
  | passed (mark : ℕ) : e.pending .copy = .loadMark mark :: e'.pending .copy →
      e.TakesMark action mark → e.txnOpen = false → Sends e e' (some mark) →
      e'.pendingMark = e.pendingMark → CopyStep e e' action []

/-- A group is gathered with nothing put aside, and the stream sends no marks. -/
structure EngineState.Tidy (e : EngineState) : Prop where
  /-- nothing is put aside -/
  gathers : ∀ settings rows, e.phase = .gathering settings rows → e.deferred = none
  /-- the stream's events are the stream's -/
  stream : ∀ ev ∈ e.pending .stream, ev.isStream = true

namespace EngineState

variable {e e' : EngineState} {action : EngineAction}

/-- Nothing is handled. -/
theorem CopyStep.still (hpending : ∀ origin, e'.pending origin = e.pending origin)
    (h : Releases e e') : CopyStep e e' action [] :=
  .elsewhere [] (hpending .copy).symm (fun _ hev => absurd hev List.not_mem_nil) h

theorem Tidy.of_pending (h : e.Tidy) (hpending : ∀ origin, e'.pending origin = e.pending origin)
    (hgathers : ∀ settings rows, e'.phase = .gathering settings rows → e'.deferred = none) :
    e'.Tidy where
  gathers := hgathers
  stream ev hev := h.stream ev (hpending .stream ▸ hev)

/-- An event is handled that is neither a row nor a mark. -/
theorem CopyStep.one {ev : ChangeEvent} (hhead : e.pending origin = ev :: e'.pending origin)
    (hother : ∀ other, other ≠ origin → e'.pending other = e.pending other)
    (hev : ev.rowOf = none ∧ ∀ mark, ev ≠ .loadMark mark) (h : Releases e e') :
    CopyStep e e' action [] := by
  cases origin with
  | copy =>
    exact .elsewhere [ev] hhead (fun other hother => List.mem_singleton.mp hother ▸ hev) h
  | stream =>
    have hsame := hother .copy nofun
    exact .elsewhere [] hsame.symm (fun _ hev => absurd hev List.not_mem_nil) h

theorem Tidy.one {ev : ChangeEvent} (h : e.Tidy)
    (hhead : e.pending origin = ev :: e'.pending origin)
    (hother : ∀ other, other ≠ origin → e'.pending other = e.pending other)
    (hgathers : ∀ settings rows, e'.phase = .gathering settings rows → e'.deferred = none) :
    e'.Tidy where
  gathers := hgathers
  stream other hmem := by
    refine h.stream other ?_
    cases origin with
    | stream => exact hhead ▸ List.mem_cons_of_mem _ hmem
    | copy => exact hother .stream nofun ▸ hmem

theorem pending_truncate (engine : Engine) (table : TableName) (version : Option ℕ)
    (e : EngineState) : (∀ origin, (engine.truncate table version e).pending origin =
        e.pending origin) ∧ (engine.truncate table version e).phase = e.phase := by
  rw [Engine.truncate]
  split
  · exact ⟨fun _ => rfl, rfl⟩
  · next pattern only _ =>
    obtain ⟨hphase, -, -⟩ := Engine.phase_handOverRest e
    obtain ⟨cleared, heq, -⟩ :=
      Engine.raiseFloors_eq e.handOverRest pattern version only.isSome
    rw [heq]
    exact ⟨(Engine.sameWindow_handOverRest e).pending, hphase⟩

end EngineState

namespace Engine

open EngineState

variable {engine : Engine} {e e' : EngineState}

theorem copyStep_turn (h : e.Tidy) (hidle : e.phase = .idle) {held heldAgain overdue : Bool}
    {taken : EngineState} (htake : e.takeEvent held = some (next, taken)) :
    CopyStep e (engine.handle settings heldAgain overdue taken next)
        (.turn settings held heldAgain overdue) [] ∧
      (engine.handle settings heldAgain overdue taken next).Tidy := by
  obtain ⟨origin, ev⟩ := next
  obtain ⟨hphase, hdeferred, hhead, hother, -⟩ := pending_of_takeEvent hidle htake
  obtain ⟨hsends, hheld, hbuffer, hcommands, hopen⟩ := sends_takeEvent htake
  -- whatever the event, handling it leaves the loop idle unless it is a row
  have hdone : ∀ after : EngineState, (∀ o, after.pending o = taken.pending o) →
      after.phase = taken.phase → (ev.rowOf = none ∧ ∀ mark, ev ≠ .loadMark mark) →
      Releases taken after →
      CopyStep e after (.turn settings held heldAgain overdue) [] ∧ after.Tidy := by
    intro after hpending hsame hev hreleases
    have hhead' : e.pending origin = ev :: after.pending origin := by rw [hhead, hpending]
    have hother' : ∀ other, other ≠ origin → after.pending other = e.pending other :=
      fun other hne => (hpending other).trans (hother other hne)
    refine ⟨.one hhead' hother' hev (.after hsends hheld hreleases),
      h.one hhead' hother' fun _ _ hgather => ?_⟩
    rw [hsame, hphase] at hgather
    cases hgather
  cases ev with
  | begin lsn =>
    exact hdone _ (fun _ => rfl) rfl ⟨rfl, nofun⟩ (.inl ⟨.of_eq rfl rfl, rfl⟩)
  | commit lsn =>
    exact hdone _ (SameWindow.commit lsn heldAgain overdue hdeferred).pending
      (phase_commit lsn heldAgain overdue taken) ⟨rfl, nofun⟩
      (releases_commit lsn heldAgain overdue taken)
  | loadStarted | schemaDrift =>
    exact hdone _ (fun _ => rfl) rfl ⟨rfl, nofun⟩ (.inl ⟨.refl taken, rfl⟩)
  | loadFinished =>
    exact hdone _ (fun _ => rfl) rfl ⟨rfl, nofun⟩ (.inl ⟨.of_eq rfl rfl, rfl⟩)
  | tableTruncated table version =>
    obtain ⟨hpending, hsame⟩ := pending_truncate engine table version taken
    exact hdone _ hpending hsame ⟨rfl, nofun⟩ (.inl (sends_truncate table version taken))
  | row change =>
    have hpending : ∀ o, ({ taken with phase := .gathering settings [(origin, change)] } :
        EngineState).pending o = e.pending o := by
      intro o
      by_cases ho : o = origin
      · subst ho
        rw [hhead]
        simp [EngineState.pending, inHand, groupRows, hdeferred, hphase]
        rfl
      · rw [← hother o ho]
        simp [EngineState.pending, inHand, groupRows, hdeferred, hphase, Ne.symm ho]
        rfl
    exact ⟨.still hpending (.inl ⟨hsends.trans (.of_eq rfl rfl), hheld⟩),
      h.of_pending hpending fun _ _ _ => hdeferred⟩
  | loadMark mark =>
    have hcopy : origin = .copy := by
      cases origin with
      | copy => rfl
      | stream =>
        have hstream : ChangeEvent.isStream (.loadMark mark) = true :=
          h.stream _ (hhead ▸ List.mem_cons_self)
        cases hstream
    obtain ⟨hpending, -, -, hsame, hstill⟩ := mark_frame mark taken
    have hhead' : e.pending origin = .loadMark mark :: (taken.mark mark).pending origin := by
      rw [hhead, hpending]
    refine ⟨?_, h.one hhead' (fun other hne => (hpending other).trans (hother other hne))
      fun _ _ _ => hstill.trans hdeferred⟩
    have htakes : e.TakesMark (.turn settings held heldAgain overdue) mark :=
      ⟨settings, held, heldAgain, overdue, taken, rfl, hcopy ▸ htake⟩
    cases htxn : taken.txnOpen with
    | true =>
      obtain ⟨hparked, hsent, hkept⟩ := parks_mark htxn
      exact .parked mark (hcopy ▸ hhead') htakes (hopen ▸ htxn) hparked (hsent.trans hcommands)
        (hkept.trans hbuffer)
    | false =>
      obtain ⟨hpassed, hkept⟩ := sends_mark htxn
      exact .passed mark (hcopy ▸ hhead') htakes (hopen ▸ htxn) (hsends.trans hpassed)
        (hkept.trans hheld)

theorem sends_gather (h : engine.step e (.gather held) = some e') :
    Sends e e' none ∧ e'.pendingMark = e.pendingMark := by
  cases does h with
  | gathered _ htry | putAside _ htry =>
    obtain ⟨hsends, hheld, -⟩ := sends_tryNext htry
    exact ⟨hsends.trans (.of_eq rfl rfl), hheld⟩
  | grouped => exact ⟨.of_eq rfl rfl, rfl⟩

theorem copyStep_wrote (h : e.Tidy) {rest : List (Origin × RowChange)} {after : EngineState}
    (hphase : e.phase = .writing settings completions ((origin, row) :: rest))
    (hwrite : engine.writeRow settings completions origin row e = .ok after) :
    CopyStep e { after with phase := .writing settings completions rest } .write
        (engine.writtenRow e { after with phase := .writing settings completions rest } .write) ∧
      ({ after with phase := .writing settings completions rest } : EngineState).Tidy := by
  obtain ⟨hsends, hheld⟩ := sends_writeRow hwrite
  obtain ⟨hhead, hother⟩ := pending_writing hphase
  have hpending : ∀ o, ({ after with phase := .writing settings completions rest } :
      EngineState).pending o =
        ({ e with phase := .writing settings completions rest } : EngineState).pending o := by
    obtain ⟨-, rfl⟩ | ⟨target, ops, left, -, -, rfl⟩ := writeRow_ok hwrite
    · exact fun _ => rfl
    · exact (bufferOps_frame settings origin _ e _).1
  refine ⟨?_, h.one (hhead.trans (by rw [hpending]))
    (fun other hne => (hpending other).trans (hother other hne)) fun _ _ h => by cases h⟩
  simp only [writtenRow, hphase]
  cases origin with
  | copy =>
    exact .row _ (hhead.trans (by rw [hpending])) rfl
      (putOut_writeRow hwrite ▸ List.suffix_append _ _) (hsends.trans (.of_eq rfl rfl)) hheld
  | stream =>
    have hsame := (hpending .copy).trans (hother .copy fun h => by cases h)
    exact .elsewhere [] hsame.symm (fun _ hev => absurd hev List.not_mem_nil)
      (.inl ⟨hsends.trans (.of_eq rfl rfl), hheld⟩)

/-- **What one step of the engine does to what a load has sent.** -/
theorem copyStep (h : e.Tidy) {action : EngineAction} (hbeside : action.besideLoads = true)
    (hstep : engine.step e action = some e') (hrunning : ∀ result, e'.phase ≠ .ended result) :
    CopyStep e e' action (engine.writtenRow e e' action) ∧ e'.Tidy := by
  have hquiet : Sends e e' none → e'.pendingMark = e.pendingMark →
      (∀ o, e'.pending o = e.pending o) →
      (∀ settings rows, e'.phase = .gathering settings rows → e'.deferred = none) →
      CopyStep e e' action [] ∧ e'.Tidy := fun hsends hheld hpending hgathers =>
    ⟨.still hpending (.inl ⟨hsends, hheld⟩), h.of_pending hpending hgathers⟩
  cases does hstep with
  | turned hidle htake => exact copyStep_turn h hidle htake
  | wrote hphase hwrite => exact copyStep_wrote h hphase hwrite
  | fedCopy => cases hbeside
  | gathered | putAside | grouped =>
    obtain ⟨hsame, hgathers⟩ := SameWindow.of_gather h.gathers hstep
    obtain ⟨hsends, hheld⟩ := sends_gather hstep
    exact hquiet hsends hheld hsame.pending hgathers
  | @fed event =>
    have hcopy : ({ e with events := e.events ++ [event] } : EngineState).pending .copy =
        e.pending .copy ++ [] := pending_feed .copy
    have hstream : ({ e with events := e.events ++ [event] } : EngineState).pending .stream =
        e.pending .stream ++ [event] := pending_feed .stream
    rw [List.append_nil] at hcopy
    refine ⟨.elsewhere [] hcopy.symm (fun _ hev => absurd hev List.not_mem_nil)
      (.inl ⟨.of_eq rfl rfl, rfl⟩), h.gathers, fun ev hev => ?_⟩
    rw [hstream] at hev
    obtain hold | hnew := List.mem_append.mp hev
    · exact h.stream ev hold
    · exact List.mem_singleton.mp hnew ▸ hbeside
  | fetched hphase =>
    exact hquiet (.of_eq rfl rfl) rfl (SameWindow.regroup (by simp [groupRows, hphase])).pending
      fun _ _ h => by cases h
  | written hphase =>
    simp only [writtenRow, hphase]
    exact hquiet (.of_eq rfl rfl) rfl (SameWindow.regroup (by simp [groupRows, hphase])).pending
      fun _ _ h => by cases h
  | closedEvents hidle hdeferred | closedCopy hidle hdeferred =>
    exact hquiet (.of_eq rfl rfl) rfl (pending_closed hidle _ _) fun _ _ _ => hdeferred
  | unread | unwritten | stopped | cutOff => exact absurd rfl (hrunning _)

end Engine

end Pg2osync
