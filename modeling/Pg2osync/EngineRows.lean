import Pg2osync.Superseded

/-!
# The engine, row by row

A step of the engine either leaves the rows on their way as they are, and puts nothing out
for one, or it materialises the oldest row of one channel and puts out what of it is not
dead. Nothing else is said here of a step, so that what is proved of the documents needs
nothing else.
-/

namespace Pg2osync

/-- The rows that one channel has brought and that are not materialised, oldest first. -/
def EngineState.rowsOf (e : EngineState) (origin : Origin) : List RowChange :=
  (e.pending origin).filterMap ChangeEvent.rowOf

/-- What of a row is put out. -/
def Engine.outOf (engine : Engine) (e : EngineState) (completions : Completions)
    (row : RowChange) : List DocumentOp :=
  (engine.opsOf completions row).filter fun op => !e.dead op

/-- What an action of the engine does to the rows on their way. -/
inductive EngineState.RowStep (engine : Engine) (e e' : EngineState) (action : EngineAction) :
    Prop where
  /-- nothing: what it handles are no rows -/
  | quiet (handled : Origin → List ChangeEvent) :
      (∀ origin, e.pending origin = handled origin ++ e'.pending origin) →
      (∀ origin, ∀ ev ∈ handled origin, ev.rowOf = none) →
      (e'.log = e.log ∨ ∃ origin table version, .tableTruncated table version ∈ handled origin) →
      RowStep engine e e' action
  /-- the oldest row of a channel is materialised -/
  | row (settings : EngineSettings) (completions : Completions) (origin : Origin)
      (row : RowChange) (rest : List (Origin × RowChange)) :
      action = .write → e.phase = .writing settings completions ((origin, row) :: rest) →
      e.pending origin = .row row :: e'.pending origin →
      (∀ other, other ≠ origin → e'.pending other = e.pending other) →
      e'.log = e.log ++ (engine.outOf e completions row).map (.op origin) →
      (∀ target, engine.mapping.targetFor row.table = some target → ∃ ops left,
        materialize target row.table row.kind engine.rules (engine.previousOf completions row)
          row.version = .ok (ops, left)) →
      RowStep engine e e' action

variable {origin : Origin}

namespace EngineState

variable {engine : Engine} {e e' : EngineState} {action : EngineAction}

theorem RowStep.still (hpending : ∀ origin, e'.pending origin = e.pending origin)
    (hlog : e'.log = e.log) : RowStep engine e e' action :=
  .quiet (fun _ => []) (fun origin => (hpending origin).symm)
    (fun _ _ hev => absurd hev List.not_mem_nil) (.inl hlog)

/-- One event is handled that is no row. -/
theorem RowStep.one {ev : ChangeEvent} (hhead : e.pending origin = ev :: e'.pending origin)
    (hother : ∀ other, other ≠ origin → e'.pending other = e.pending other) (hev : ev.rowOf = none)
    (hlog : e'.log = e.log ∨ ∃ table version, ev = .tableTruncated table version) :
    RowStep engine e e' action := by
  refine .quiet (fun o => if o = origin then [ev] else []) (fun o => ?_) (fun o other hmem => ?_) ?_
  · by_cases ho : o = origin
    · subst ho
      rw [if_pos rfl]
      exact hhead
    · rw [if_neg ho, List.nil_append, hother o ho]
  · by_cases ho : o = origin
    · rw [if_pos ho, List.mem_singleton] at hmem
      exact hmem ▸ hev
    · rw [if_neg ho] at hmem
      exact absurd hmem List.not_mem_nil
  · refine hlog.imp_right ?_
    rintro ⟨table, version, rfl⟩
    exact ⟨origin, table, version, by rw [if_pos rfl]; exact List.mem_singleton.mpr rfl⟩

end EngineState

namespace Engine

open EngineState

variable {engine : Engine} {e e' : EngineState}

theorem rowStep_turn (hidle : e.phase = .idle) {settings : EngineSettings}
    {held heldAgain overdue : Bool} {next : Origin × ChangeEvent} {taken : EngineState}
    (htake : e.takeEvent held = some (next, taken)) :
    RowStep engine e (engine.handle settings heldAgain overdue taken next)
      (.turn settings held heldAgain overdue) := by
  obtain ⟨origin, ev⟩ := next
  obtain ⟨hphase, hdeferred, hhead, hother, hlog, -⟩ := pending_of_takeEvent hidle htake
  have hdone : ∀ after : EngineState, (∀ o, after.pending o = taken.pending o) →
      ev.rowOf = none → (after.log = e.log ∨ ∃ table version, ev = .tableTruncated table version) →
      RowStep engine e after (.turn settings held heldAgain overdue) := by
    intro after hpending hev hout
    refine .one (hhead.trans (by rw [hpending])) (fun other hne => ?_) hev hout
    exact (hpending other).trans (hother other hne)
  cases ev with
  | begin | loadStarted | loadFinished | schemaDrift => exact hdone _ (fun _ => rfl) rfl (.inl hlog)
  | commit lsn =>
    have hsame := SameWindow.commit lsn heldAgain overdue hdeferred
    exact hdone _ hsame.pending rfl (.inl (hsame.log.trans hlog))
  | loadMark mark =>
    obtain ⟨hpending, hsame, -⟩ := mark_frame mark taken
    exact hdone _ hpending rfl (.inl (hsame.trans hlog))
  | tableTruncated table version =>
    exact hdone _ (pending_truncate engine table version taken).1 rfl (.inr ⟨table, version, rfl⟩)
  | row change =>
    refine .still (fun o => ?_) hlog
    by_cases ho : o = origin
    · subst ho
      rw [hhead]
      simp [handle, EngineState.pending, inHand, groupRows, hdeferred, hphase]
      rfl
    · rw [← hother o ho]
      simp [handle, EngineState.pending, inHand, groupRows, hdeferred, hphase, Ne.symm ho]
      rfl

theorem rowStep_wrote {settings : EngineSettings} {completions : Completions} {row : RowChange}
    {rest : List (Origin × RowChange)} {after : EngineState}
    (hphase : e.phase = .writing settings completions ((origin, row) :: rest))
    (hwrite : engine.writeRow settings completions origin row e = .ok after) :
    RowStep engine e { after with phase := .writing settings completions rest } .write := by
  obtain ⟨hhead, hother⟩ := pending_writing hphase
  have hframe : (∀ o, ({ after with phase := .writing settings completions rest } :
      EngineState).pending o =
        ({ e with phase := .writing settings completions rest } : EngineState).pending o) ∧
      after.log = e.log ++ (engine.outOf e completions row).map (.op origin) ∧
      ∀ target, engine.mapping.targetFor row.table = some target → ∃ ops left,
        materialize target row.table row.kind engine.rules
          (engine.previousOf completions row) row.version = .ok (ops, left) := by
    obtain ⟨hnone, rfl⟩ | ⟨target, ops, left, htarget, hops, rfl⟩ := writeRow_ok hwrite
    · simp [outOf, opsOf, hnone]
    · obtain ⟨hpending, hlog, -⟩ := bufferOps_frame settings origin
        (ops.filter fun op => !e.dead op) e (.writing settings completions rest)
      refine ⟨hpending, ?_, fun other hother => ?_⟩
      · simp only [outOf, opsOf, htarget, hops]
        exact hlog
      · obtain rfl := Option.some.inj (htarget.symm.trans hother)
        exact ⟨ops, left, hops⟩
  obtain ⟨hpending, hlog, hops⟩ := hframe
  exact .row settings completions origin row rest rfl hphase (hhead.trans (by rw [hpending]))
    (fun other hne => (hpending other).trans (hother other hne)) hlog hops

/-- **What one step of the engine does to the rows on their way.** -/
theorem rowStep (hgathers : ∀ settings rows, e.phase = .gathering settings rows →
    e.deferred = none) {action : EngineAction} (hsent : ∀ ev, action ≠ .feed ev ∧ action ≠ .feedCopy ev)
    (hstep : engine.step e action = some e') (hrunning : ∀ result, e'.phase ≠ .ended result) :
    RowStep engine e e' action := by
  cases does hstep with
  | fed => exact absurd rfl (hsent _).1
  | fedCopy => exact absurd rfl (hsent _).2
  | turned hidle htake => exact rowStep_turn hidle htake
  | wrote hphase hwrite => exact rowStep_wrote hphase hwrite
  | gathered | putAside | grouped =>
    have hsame := (SameWindow.of_gather hgathers hstep).1
    exact .still hsame.pending hsame.log
  | fetched hphase | written hphase =>
    exact .still (SameWindow.regroup (by simp [groupRows, hphase])).pending rfl
  | closedEvents hidle | closedCopy hidle => exact .still (pending_closed hidle _ _) rfl
  | unread | unwritten | stopped | cutOff => exact absurd rfl (hrunning _)

end Engine

/-! ## What is sent to the engine -/

namespace EngineState

variable {e : EngineState} {ev : ChangeEvent}

theorem rowsOf_feed (origin : Origin) :
    ({ e with events := e.events ++ [ev] } : EngineState).rowsOf origin =
      e.rowsOf origin ++ if origin = .stream then ev.rowOf.toList else [] := by
  rw [rowsOf, Engine.pending_feed, List.filterMap_append, ← rowsOf]
  split
  · cases hrow : ev.rowOf <;> simp [hrow]
  · rfl

theorem rowsOf_feedCopy (origin : Origin) :
    ({ e with copy := e.copy ++ [ev] } : EngineState).rowsOf origin =
      e.rowsOf origin ++ if origin = .copy then ev.rowOf.toList else [] := by
  rw [rowsOf, Engine.pending_feedCopy, List.filterMap_append, ← rowsOf]
  split
  · cases hrow : ev.rowOf <;> simp [hrow]
  · rfl

theorem Tidy.feed (h : e.Tidy) (hev : ev.isStream = true) :
    ({ e with events := e.events ++ [ev] } : EngineState).Tidy where
  gathers := h.gathers
  stream other hother := by
    rw [Engine.pending_feed, if_pos rfl, List.mem_append, List.mem_singleton] at hother
    exact hother.elim (h.stream other) fun heq => heq ▸ hev

theorem Tidy.feedCopy (h : e.Tidy) : ({ e with copy := e.copy ++ [ev] } : EngineState).Tidy where
  gathers := h.gathers
  stream other hother := by
    rw [Engine.pending_feedCopy, if_neg Origin.noConfusion, List.append_nil] at hother
    exact h.stream other hother

/-- What is handled quietly are no rows. -/
theorem rowsOf_quiet {e' : EngineState} {handled : List ChangeEvent}
    (h : e.pending origin = handled ++ e'.pending origin)
    (hhandled : ∀ ev ∈ handled, ev.rowOf = none) : e'.rowsOf origin = e.rowsOf origin := by
  rw [rowsOf, rowsOf, h, List.filterMap_append, List.filterMap_eq_nil_iff.mpr hhandled,
    List.nil_append]

end EngineState

end Pg2osync
