import Pg2osync.Superseded

/-!
# When the window closes

What the stream removes is remembered while a load runs. A load says when it starts and when it
is over, and the engine keeps one flag for all of them, by what came last; a mark forgets what is
remembered and leaves the flag. The load an attempt begins with says that it is over. A table
that is added says that it starts, and nothing when it has been read.
-/

namespace Pg2osync

/-! ## The loads of an attempt -/

/-- The reading of a table that was added. -/
inductive AddedLoad : Type where
  /-- it has the channel, and has not said that it starts -/
  | joining : AddedLoad
  /-- it reads -/
  | reading : AddedLoad
  /-- it has read the table, or has failed -/
  | ended : AddedLoad
  deriving DecidableEq

/-- The engine and the loads of an attempt. -/
structure LoadsState : Type where
  /-- the engine -/
  engine : EngineState
  /-- whether the attempt's own load has said that it is over -/
  finished : Bool
  /-- the tables that were added -/
  added : List AddedLoad
  /-- whether the attempt is over -/
  ended : Bool
  /-- ghost: how much had been put out when the engine last forgot -/
  marked : ℕ

/-- What happens next. -/
inductive LoadsAction : Type where
  /-- the stream sends an event -/
  | stream (event : ChangeEvent) : LoadsAction
  /-- the attempt's load sends one -/
  | copied (event : ChangeEvent) : LoadsAction
  /-- it says that it is over -/
  | finish : LoadsAction
  /-- a table is being added -/
  | join : LoadsAction
  /-- its load says that it starts -/
  | start (load : ℕ) : LoadsAction
  /-- it sends an event -/
  | added (load : ℕ) (event : ChangeEvent) : LoadsAction
  /-- it ends -/
  | leave (load : ℕ) : LoadsAction
  /-- the attempt is over -/
  | conclude : LoadsAction
  /-- the engine does something other than being sent an event -/
  | engine (action : EngineAction) : LoadsAction

/-- What a load sends between its start and its end. -/
def ChangeEvent.isCopied : ChangeEvent → Bool
  | .row _ | .loadMark _ => true
  | .commit lsn => lsn = 0
  | _ => false

/-- An event at which the engine forgets. -/
def ChangeEvent.forgets : ChangeEvent → Bool
  | .loadMark _ | .loadFinished => true
  | _ => false

namespace Engine

variable (engine : Engine)

/-- The engine forgets in a step. -/
def forgets (s : EngineState) : EngineAction → Bool
  | .turn _ held _ _ => (s.takeEvent held).any fun taken => taken.1.2.forgets
  | .closeCopy => true
  | _ => false

/-- One step of the loads, the stream or the engine, where it can be taken. The channel closes
when nobody holds it any more. -/
def loadsStep (s : LoadsState) : LoadsAction → Option LoadsState
  | .stream event =>
    if event.isStream && !s.ended then
      (engine.step s.engine (.feed event)).map fun e => { s with engine := e }
    else none
  | .copied event =>
    if event.isCopied && !s.finished && !s.ended then
      (engine.step s.engine (.feedCopy event)).map fun e => { s with engine := e }
    else none
  | .finish =>
    if !s.finished && !s.ended then
      (engine.step s.engine (.feedCopy .loadFinished)).map fun e =>
        { s with engine := e, finished := true }
    else none
  | .join => if !s.ended then some { s with added := s.added ++ [.joining] } else none
  | .start i =>
    match s.added[i]? with
    | some .joining => (engine.step s.engine (.feedCopy .loadStarted)).map fun e =>
        { s with engine := e, added := s.added.set i .reading }
    | _ => none
  | .added i event =>
    match s.added[i]? with
    | some .reading =>
      if event.isCopied then
        (engine.step s.engine (.feedCopy event)).map fun e => { s with engine := e }
      else none
    | _ => none
  | .leave i => some { s with added := s.added.set i .ended }
  | .conclude => some { s with ended := true }
  | .engine (.feed _) | .engine (.feedCopy _) => none
  | .engine .closeCopy =>
    if s.ended && s.added.all (· = .ended) then
      (engine.step s.engine .closeCopy).map fun e =>
        { s with engine := e, marked := s.engine.log.length }
    else none
  | .engine action => (engine.step s.engine action).map fun e =>
      { s with
        engine := e
        marked := if forgets s.engine action then s.engine.log.length else s.marked }

/-- The loads of an attempt as a transition system. -/
def loadsSystem : Transition.System LoadsState LoadsAction where
  initial s := s = ⟨.start, false, [], false, 0⟩
  step := engine.loadsStep

end Engine

/-! ## What is asked -/

/-- Nothing is remembered. -/
structure EngineState.Forgotten (e : EngineState) : Prop where
  /-- no document -/
  superseded : ∀ key, e.superseded key = none
  /-- and no pattern -/
  cleared : e.cleared = []

/-- What is remembered was put out after the first operations. -/
structure EngineState.RecallsFrom (e : EngineState) (n : ℕ) : Prop where
  /-- these were put out -/
  bound : n ≤ e.log.length
  /-- the documents -/
  superseded : ∀ index id v, e.superseded (index, id) = some v →
    ∃ origin routing, .op origin (.delete index id routing (some v)) ∈ e.log.drop n
  /-- the patterns -/
  cleared : ∀ c ∈ e.cleared, .truncated c.1 (some c.2) false ∈ e.log.drop n

/-- No load is between its start and its end, and the engine has heard of the ends: the attempt's
load has said so, or the channel is closed. -/
def LoadsState.Quiet (s : LoadsState) : Prop :=
  (s.finished = true ∧ .reading ∉ s.added ∧ .loadFinished ∉ s.engine.pending .copy) ∨
    s.engine.copyOpen = false

/-- **The window is closed while no load runs**, and what is remembered came since the last mark. -/
structure Engine.WindowCloses (engine : Engine) (s : LoadsState) : Prop where
  /-- nothing is remembered -/
  forgotten : s.Quiet → s.engine.Forgotten
  /-- nor does the engine begin to -/
  still : s.Quiet → ∀ action e, engine.step s.engine action = some e → e.Forgotten
  /-- no more is kept than was put out since the last mark -/
  bounded : s.engine.RecallsFrom s.marked

/-- No table is added once the attempt's load has said that it is over. -/
def LoadsState.timely (s : LoadsState) : LoadsAction → Bool
  | .start _ => !s.finished
  | _ => true

/-! ## What is recorded -/

variable {after : EngineState} {next : Origin × ChangeEvent} {held : Bool}

namespace EngineState

variable {e e' e'' : EngineState} {n : ℕ}

theorem Recorded.recallsFrom (h : Recorded e e') (he : e.RecallsFrom n) : e'.RecallsFrom n := by
  obtain ⟨news, hlog, hsuperseded, hcleared⟩ := h.news
  have hdrop : e'.log.drop n = e.log.drop n ++ news := by
    rw [hlog, List.drop_append_of_le_length he.bound]
  refine ⟨?_, fun index id v hknown => ?_, fun c hc => ?_⟩
  · rw [hlog, List.length_append]
    exact he.bound.trans (Nat.le_add_right _ _)
  · rw [hdrop]
    rcases hsuperseded index id v hknown with hbefore | ⟨origin, routing, hnew⟩
    · obtain ⟨origin, routing, hold⟩ := he.superseded index id v hbefore
      exact ⟨origin, routing, List.mem_append_left _ hold⟩
    · exact ⟨origin, routing, List.mem_append_right _ hnew⟩
  · rw [hdrop]
    rcases hcleared c hc with hbefore | hnew
    · exact List.mem_append_left _ (he.cleared c hbefore)
    · exact List.mem_append_right _ hnew

theorem Recorded.forgotten (h : Recorded e e') (hload : e.loadRunning = false)
    (he : e.Forgotten) : e'.Forgotten where
  superseded key := by
    rw [h.superseded hload]
    exact he.superseded key
  cleared := by
    rw [h.cleared hload]
    exact he.cleared

theorem Forgotten.recallsFrom (h : e.Forgotten) : e.RecallsFrom e.log.length where
  bound := le_rfl
  superseded index id v hknown := by
    rw [h.superseded] at hknown
    cases hknown
  cleared c hc := by
    rw [h.cleared] at hc
    cases hc

theorem forgotten_wipe (e : EngineState) : e.wipe.Forgotten :=
  ⟨fun _ => rfl, rfl⟩

/-! ## What is heard of the loads -/

/-- What the loop takes off the load's channel, if it forgets or not: the end of a load is handled
or put aside. -/
structure Hears (forgets : Bool) (e e' : EngineState) : Prop where
  /-- the flag goes by what is taken -/
  taken : ∃ taken, e.copy = taken ++ e'.copy ∧ e'.loadRunning = taken.foldl took e.loadRunning ∧
    (.loadFinished ∈ taken → forgets = true ∨ e'.deferred = some (.copy, .loadFinished))
  /-- what was put aside is handled or stays so -/
  kept : e.deferred = some (.copy, .loadFinished) →
    forgets = true ∨ e'.deferred = some (.copy, .loadFinished)

variable {forgets : Bool}

theorem Hears.of_eq (hcopy : e'.copy = e.copy) (hload : e'.loadRunning = e.loadRunning)
    (hdeferred : e'.deferred = e.deferred) : Hears forgets e e' where
  taken := by
    refine ⟨[], ?_, hload, fun h => absurd h List.not_mem_nil⟩
    rw [hcopy, List.nil_append]
  kept h := by
    rw [hdeferred]
    exact .inr h

theorem Hears.trans (h : Hears forgets e e') (h' : Hears forgets e' e'') : Hears forgets e e'' where
  taken := by
    obtain ⟨taken, hcopy, hload, hfinished⟩ := h.taken
    obtain ⟨taken', hcopy', hload', hfinished'⟩ := h'.taken
    refine ⟨taken ++ taken', ?_, ?_, fun hmem => ?_⟩
    · rw [hcopy, hcopy', List.append_assoc]
    · rw [hload', hload, List.foldl_append]
    · rcases List.mem_append.mp hmem with hmem | hmem
      · exact (hfinished hmem).elim .inl h'.kept
      · exact hfinished' hmem
  kept hdeferred := (h.kept hdeferred).elim .inl h'.kept

/-- The next event is put aside. -/
theorem Hears.defer (h : e.tryNext held = some (next, after)) (hfree : e.deferred = none)
    (hcopy : e'.copy = after.copy) (hload : e'.loadRunning = after.loadRunning)
    (hdeferred : e'.deferred = some next) : Hears forgets e e' := by
  obtain ⟨origin, ev⟩ := next
  refine ⟨?_, fun hput => ?_⟩
  · obtain ⟨rfl, rest, -, rfl⟩ | ⟨rfl, rest, hchannel, rfl⟩ := tryNext_cases h
    · exact ⟨[], hcopy.symm, hload, fun hmem => absurd hmem List.not_mem_nil⟩
    · refine ⟨[ev], ?_, hload, fun hmem => .inr ?_⟩
      · rw [hcopy]
        exact hchannel
      · rw [hdeferred, List.mem_singleton.mp hmem]
  · rw [hfree] at hput
    cases hput

/-- The next event is a row, which joins the group. -/
theorem Hears.row {origin : Origin} {change : RowChange}
    (h : e.tryNext held = some ((origin, .row change), after)) (hfree : e.deferred = none)
    (hcopy : e'.copy = after.copy) (hload : e'.loadRunning = after.loadRunning) :
    Hears forgets e e' := by
  refine ⟨?_, fun hput => ?_⟩
  · obtain ⟨rfl, rest, -, rfl⟩ | ⟨rfl, rest, hchannel, rfl⟩ := tryNext_cases h
    · exact ⟨[], hcopy.symm, hload, fun hmem => absurd hmem List.not_mem_nil⟩
    · refine ⟨[.row change], ?_, hload, fun hmem => ?_⟩
      · rw [hcopy]
        exact hchannel
      · cases List.mem_singleton.mp hmem
  · rw [hfree] at hput
    cases hput

theorem Hears.handOverOrWait (held overdue : Bool) (hfree : e.deferred = none) :
    Hears forgets e (e.handOverOrWait held overdue) := by
  rw [EngineState.handOverOrWait]
  split
  · next next after htry =>
    split
    · exact .defer htry hfree rfl rfl rfl
    · exact .defer htry hfree rfl rfl rfl
  · exact .of_eq rfl rfl rfl

theorem Hears.commit (lsn : Lsn) (held overdue : Bool) (hfree : e.deferred = none) :
    Hears forgets e (e.commit lsn held overdue) := by
  have hclose : Hears forgets e (e.closeTxn lsn) := by
    rw [closeTxn]
    split <;> exact .of_eq rfl rfl rfl
  have hrelease : ∀ e : EngineState, Hears forgets e e.releaseMark := fun e => by
    rw [releaseMark]
    split
    · split <;> exact .of_eq rfl rfl rfl
    · exact .of_eq rfl rfl rfl
  have hbuffer : ∀ e : EngineState, e.deferred = none →
      Hears forgets e (e.commitBuffer lsn held overdue) := fun e hfree => by
    rw [commitBuffer]
    split
    · split <;> exact .of_eq rfl rfl rfl
    · have hstamp : Hears forgets e (e.stampBuffer lsn) := by
        rw [stampBuffer]
        split <;> exact .of_eq rfl rfl rfl
      refine hstamp.trans (.handOverOrWait held overdue ?_)
      rw [deferred_stampBuffer]
      exact hfree
  have hstill : (e.closeTxn lsn).deferred = none := (deferred_closeTxn lsn e).trans hfree
  exact (hclose.trans (hbuffer _ hstill)).trans (hrelease _)

/-- While a group is gathered nothing is put aside. -/
def Gathers (e : EngineState) : Prop :=
  ∀ settings rows, e.phase = .gathering settings rows → e.deferred = none

/-- One step of the loop, if it forgets or not. -/
structure LoopStep (forgets : Bool) (e e' : EngineState) : Prop where
  /-- what it takes off the load's channel -/
  hears : Hears forgets e e'
  /-- the channel stays open -/
  copyOpen : e'.copyOpen = e.copyOpen
  /-- nothing is put aside while a group is gathered -/
  gathers : e'.Gathers
  /-- a step that forgets does nothing else -/
  forgotten : forgets = true → e'.Forgotten ∧ e'.log = e.log
  /-- any other records what it puts out -/
  recorded : forgets = false → Recorded e e'

theorem gathers_of_phase (h : ∀ settings rows, e.phase ≠ .gathering settings rows) : e.Gathers :=
  fun settings rows hphase => absurd hphase (h settings rows)

/-- A step that does not forget. -/
theorem LoopStep.keeps (hrecorded : Recorded e e') (hopen : e'.copyOpen = e.copyOpen)
    (hhears : Hears false e e') (hgathers : e'.Gathers) : LoopStep false e e' where
  hears := hhears
  copyOpen := hopen
  gathers := hgathers
  forgotten h := by cases h
  recorded _ := hrecorded

/-- A step that changes neither the channel nor what is remembered. -/
theorem LoopStep.elsewhere (hlog : e'.log = e.log) (hsuperseded : e'.superseded = e.superseded)
    (hcleared : e'.cleared = e.cleared) (hopen : e'.copyOpen = e.copyOpen)
    (hcopy : e'.copy = e.copy) (hload : e'.loadRunning = e.loadRunning)
    (hdeferred : e'.deferred = e.deferred) (hgathers : e'.Gathers) : LoopStep false e e' :=
  .keeps (.of_eq hlog hsuperseded hcleared) hopen (.of_eq hcopy hload hdeferred) hgathers

end EngineState

variable {action : EngineAction}

namespace Engine

open EngineState

variable {engine : Engine} {e e' : EngineState}

theorem loopStep_commit (lsn : Lsn) (held overdue : Bool) (hidle : e.phase = .idle)
    (hfree : e.deferred = none) : LoopStep false e (e.commit lsn held overdue) := by
  have hwindow := SameWindow.commit lsn held overdue hfree
  refine .keeps hwindow.recorded hwindow.copyOpen (.commit lsn held overdue hfree) ?_
  apply gathers_of_phase
  rw [phase_commit, hidle]
  intro settings rows h
  cases h

theorem loopStep_mark (mark : ℕ) (hidle : e.phase = .idle) : LoopStep true e (e.mark mark) := by
  obtain ⟨-, hlog, hopen, hphase, hdeferred⟩ := mark_frame mark e
  refine ⟨?_, hopen, ?_, fun _ => ⟨?_, hlog⟩, fun h => by cases h⟩
  · rw [EngineState.mark]
    dsimp only
    split
    · exact .of_eq rfl rfl rfl
    · split <;> exact .of_eq rfl rfl rfl
  · apply gathers_of_phase
    rw [hphase, hidle]
    intro settings rows h
    cases h
  · rw [EngineState.mark]
    dsimp only
    split
    · exact ⟨fun _ => rfl, rfl⟩
    · split <;> exact ⟨fun _ => rfl, rfl⟩

theorem loopStep_truncate (table : TableName) (version : Option ℕ) (hgathers : e.Gathers) :
    LoopStep false e (engine.truncate table version e) := by
  have hrecorded : Recorded e (engine.truncate table version e) := recorded_truncate table version e
  rw [truncate] at hrecorded ⊢
  split at hrecorded
  · exact .elsewhere rfl rfl rfl rfl rfl rfl rfl hgathers
  · next pattern only _ =>
    obtain ⟨hphase, hdeferred, hload⟩ := phase_handOverRest e
    have hrest := sameWindow_handOverRest e
    have hcopy : e.handOverRest.copy = e.copy := by
      rw [handOverRest]
      split <;> rfl
    obtain ⟨cleared, hraised, -⟩ := raiseFloors_eq e.handOverRest pattern version only.isSome
    refine .keeps hrecorded ?_ ?_ ?_
    · rw [hraised]
      exact hrest.copyOpen
    · rw [hraised]
      exact .of_eq hcopy hload hdeferred
    · rw [hraised]
      intro settings rows h
      exact hdeferred.trans (hgathers settings rows (hphase.symm.trans h))

/-- What a turn does with its event. -/
theorem loopStep_handle (settings : EngineSettings) (held overdue : Bool) (hidle : e.phase = .idle)
    (hfree : e.deferred = none) (next : Origin × ChangeEvent) :
    LoopStep next.2.forgets e (engine.handle settings held overdue e next) := by
  obtain ⟨origin, ev⟩ := next
  have hgathers : e.Gathers := fun _ _ _ => hfree
  cases ev with
  | begin | row | loadStarted | schemaDrift =>
    exact .elsewhere rfl rfl rfl rfl rfl rfl rfl fun _ _ _ => hfree
  | commit lsn => exact loopStep_commit lsn held overdue hidle hfree
  | loadMark mark => exact loopStep_mark mark hidle
  | tableTruncated table version => exact loopStep_truncate table version hgathers
  | loadFinished =>
    exact ⟨.of_eq rfl rfl rfl, rfl, hgathers, fun _ => ⟨forgotten_wipe e, rfl⟩, fun h => by cases h⟩

/-- The event of a turn is handled. -/
theorem hears_takeEvent (h : e.takeEvent held = some (next, after)) :
    Hears next.2.forgets e after := by
  rw [takeEvent] at h
  split at h
  · next put hput =>
    cases h
    refine ⟨⟨[], rfl, rfl, fun hmem => absurd hmem List.not_mem_nil⟩, fun hkept => .inl ?_⟩
    rw [hput] at hkept
    rw [Option.some.inj hkept]
    rfl
  · next hfree =>
    obtain ⟨origin, ev⟩ := next
    refine ⟨?_, fun hkept => ?_⟩
    · obtain ⟨rfl, rest, -, rfl⟩ | ⟨rfl, rest, hchannel, rfl⟩ := tryNext_cases h
      · exact ⟨[], rfl, rfl, fun hmem => absurd hmem List.not_mem_nil⟩
      · refine ⟨[ev], hchannel, rfl, fun hmem => .inl ?_⟩
        rw [← List.mem_singleton.mp hmem]
        rfl
    · rw [hfree] at hkept
      cases hkept

variable {settings : EngineSettings}

/-- A start that is taken changes nothing but the flag. -/
theorem recorded_turn {held heldAgain overdue : Bool} (hidle : e.phase = .idle)
    (h : e.takeEvent held = some (next, after))
    (hrecorded : Recorded after (engine.handle settings heldAgain overdue after next)) :
    Recorded e (engine.handle settings heldAgain overdue after next) := by
  obtain ⟨origin, ev⟩ := next
  obtain ⟨-, -, -, -, hlog, hsuperseded, hcleared, -, hload⟩ := pending_of_takeEvent hidle h
  have hstarted : e.loadRunning = false → after.loadRunning = false ∨ ev = .loadStarted := by
    intro hoff
    rcases hload with hsame | htook
    · exact .inl (hsame.trans hoff)
    · rw [hoff] at htook
      cases ev with
      | loadStarted => exact .inr rfl
      | loadFinished | begin | commit | row | loadMark | schemaDrift | tableTruncated =>
        exact .inl htook
  obtain ⟨news, hnews, hdocuments, hpatterns⟩ := hrecorded.news
  rw [hsuperseded] at hdocuments
  rw [hcleared] at hpatterns
  refine ⟨⟨news, ?_, hdocuments, hpatterns⟩, fun hoff => ?_, fun hoff => ?_⟩
  · rw [hnews, hlog]
  · rcases hstarted hoff with hstill | rfl
    · exact (hrecorded.superseded hstill).trans hsuperseded
    · exact hsuperseded
  · rcases hstarted hoff with hstill | rfl
    · exact (hrecorded.cleared hstill).trans hcleared
    · exact hcleared

theorem loopStep_turn {held heldAgain overdue : Bool} (hidle : e.phase = .idle)
    (h : e.takeEvent held = some (next, after)) :
    LoopStep next.2.forgets e (engine.handle settings heldAgain overdue after next) := by
  obtain ⟨hphase, hfree, -, -, hlog, -, -, hopen, -⟩ := pending_of_takeEvent hidle h
  have hhandle : LoopStep next.2.forgets after
      (engine.handle settings heldAgain overdue after next) :=
    loopStep_handle settings heldAgain overdue hphase hfree next
  refine ⟨(hears_takeEvent h).trans hhandle.hears, hhandle.copyOpen.trans hopen, hhandle.gathers,
    fun hforgets => ?_, fun hforgets => recorded_turn hidle h (hhandle.recorded hforgets)⟩
  obtain ⟨hforgotten, hlog'⟩ := hhandle.forgotten hforgets
  exact ⟨hforgotten, hlog'.trans hlog⟩

/-- A row is materialised. -/
theorem loopStep_wrote {completions : Completions} {origin : Origin} {row : RowChange}
    {rest : List (Origin × RowChange)}
    (h : engine.writeRow settings completions origin row e = .ok after) :
    LoopStep false e { after with phase := .writing settings completions rest } := by
  have hgathers : ({ after with phase := .writing settings completions rest } :
      EngineState).Gathers := gathers_of_phase fun settings rows h => by cases h
  obtain ⟨-, rfl⟩ | ⟨target, ops, left, -, -, rfl⟩ := writeRow_ok h
  · exact .elsewhere rfl rfl rfl rfl rfl rfl rfl hgathers
  · have hrecorded := recorded_bufferOps settings origin (ops.filter fun op => !e.dead op) e
    refine .keeps ?_ ?_ ?_ hgathers
    · exact ⟨hrecorded.news, hrecorded.superseded, hrecorded.cleared⟩
    · exact (bufferOps_frame settings origin _ e .idle).2.2.2.2
    · unfold bufferOps
      dsimp only
      split <;> exact .of_eq rfl rfl rfl

/-- A step of the loop other than the closing of the load's channel. -/
theorem loopStep (hgathers : e.Gathers) (hcopied : ∀ event, action ≠ .feedCopy event)
    (hclose : action ≠ .closeCopy) (h : engine.step e action = some e') :
    LoopStep (forgets e action) e e' := by
  cases does h with
  | fedCopy => exact absurd rfl (hcopied _)
  | closedCopy => exact absurd rfl hclose
  | fed => exact .elsewhere rfl rfl rfl rfl rfl rfl rfl hgathers
  | turned hidle htake =>
    rw [forgets, htake, Option.any_some]
    exact loopStep_turn hidle htake
  | gathered hphase htry =>
    obtain ⟨hframe, hafter⟩ := SameWindow.of_gather hgathers h
    exact .keeps hframe.recorded hframe.copyOpen (.row htry (hgathers _ _ hphase) rfl rfl) hafter
  | putAside hphase htry =>
    obtain ⟨hframe, hafter⟩ := SameWindow.of_gather hgathers h
    exact .keeps hframe.recorded hframe.copyOpen (.defer htry (hgathers _ _ hphase) rfl rfl rfl)
      hafter
  | wrote _ hwrite => exact loopStep_wrote hwrite
  | closedEvents _ hfree => exact .elsewhere rfl rfl rfl rfl rfl rfl rfl fun _ _ _ => hfree
  | grouped | fetched | unread | unwritten | written | stopped | cutOff =>
    exact .elsewhere rfl rfl rfl rfl rfl rfl rfl
      (gathers_of_phase fun settings rows h => by cases h)

end Engine

/-! ## Closed -/

namespace EngineState

variable {e e' : EngineState} {forgets : Bool}

theorem mem_of_foldl_took {events : List ChangeEvent} (h : events.foldl took true = false) :
    .loadFinished ∈ events := by
  induction events with
  | nil => cases h
  | cons event rest ih =>
    cases event with
    | loadFinished => exact List.mem_cons_self
    | begin | commit | row | loadMark | loadStarted | schemaDrift | tableTruncated =>
      exact List.mem_cons_of_mem _ (ih h)

/-- The flag, once the load's channel has been read. -/
def flagAhead (e : EngineState) : Bool :=
  e.copy.foldl took e.loadRunning

/-- Where no load runs, nothing is remembered, unless the end of a load is put aside. -/
def Heeds (e : EngineState) : Prop :=
  e.loadRunning = false → e.Forgotten ∨ e.deferred = some (.copy, .loadFinished)

theorem Heeds.of_eq (h : e.Heeds) (hload : e'.loadRunning = e.loadRunning)
    (hdeferred : e'.deferred = e.deferred) (hsuperseded : e'.superseded = e.superseded)
    (hcleared : e'.cleared = e.cleared) : e'.Heeds := by
  intro hoff
  rw [hload] at hoff
  rw [hdeferred]
  refine (h hoff).imp_left fun hforgotten => ⟨fun key => ?_, ?_⟩
  · rw [hsuperseded]
    exact hforgotten.superseded key
  · rw [hcleared]
    exact hforgotten.cleared

theorem LoopStep.heeds (h : LoopStep forgets e e') (he : e.Heeds) : e'.Heeds := by
  intro hoff
  cases forgets with
  | true => exact .inl (h.forgotten rfl).1
  | false =>
    obtain ⟨taken, -, hflag, hfinished⟩ := h.hears.taken
    cases hload : e.loadRunning with
    | false =>
      rcases he hload with hforgotten | hput
      · exact .inl ((h.recorded rfl).forgotten hload hforgotten)
      · exact (h.hears.kept hput).imp_left fun hfalse => by cases hfalse
    | true =>
      -- the flag was lowered, so the end of a load was taken, and not handled
      rw [hload, hoff] at hflag
      exact (hfinished (mem_of_foldl_took hflag.symm)).imp_left fun hfalse => by cases hfalse

theorem LoopStep.flagAhead (h : LoopStep forgets e e') : e'.flagAhead = e.flagAhead := by
  obtain ⟨taken, hcopy, hflag, -⟩ := h.hears.taken
  rw [EngineState.flagAhead, EngineState.flagAhead, hcopy, hflag, List.foldl_append]

theorem LoopStep.recallsFrom {n : ℕ} (h : LoopStep forgets e e') (he : e.RecallsFrom n) :
    e'.RecallsFrom (if forgets then e.log.length else n) := by
  cases forgets with
  | true =>
    obtain ⟨hforgotten, hlog⟩ := h.forgotten rfl
    rw [if_pos rfl, ← hlog]
    exact hforgotten.recallsFrom
  | false => exact (h.recorded rfl).recallsFrom he

/-- The channels are read, and nothing more comes. -/
structure Spent (e : EngineState) : Prop where
  /-- of the stream -/
  events : e.events = []
  /-- of the loads -/
  copy : e.copy = []
  /-- nothing is put aside -/
  deferred : e.deferred = none
  /-- no group is at hand -/
  phase : e.phase = .idle ∨ ∃ result, e.phase = .ended result
  /-- and nothing is remembered -/
  forgotten : e.Forgotten

end EngineState

theorem EngineState.Spent.gathers {e : EngineState} (h : e.Spent) : e.Gathers := by
  intro settings rows hphase
  rcases h.phase with hidle | ⟨result, hended⟩
  · cases hidle.symm.trans hphase
  · cases hended.symm.trans hphase

namespace Engine

open EngineState

variable {engine : Engine} {e e' : EngineState}

theorem spent_closeCopy (h : engine.step e .closeCopy = some e') :
    e'.Spent ∧ e'.flagAhead = e.flagAhead ∧ e'.log = e.log := by
  cases does h with
  | closedCopy hidle hfree hevents hcopy =>
    refine ⟨⟨hevents, hcopy, hfree, ?_, ⟨fun _ => rfl, rfl⟩⟩, rfl, rfl⟩
    dsimp only
    split
    · exact .inl rfl
    · exact .inr ⟨_, rfl⟩

theorem spent_step (he : e.Spent) (hfeed : ∀ event, action ≠ .feed event)
    (hcopied : ∀ event, action ≠ .feedCopy event) (h : engine.step e action = some e') :
    e'.Spent := by
  cases does h with
  | fed => exact absurd rfl (hfeed _)
  | fedCopy => exact absurd rfl (hcopied _)
  | @turned _ held _ _ _ _ _ htake =>
    have hnothing : e.takeEvent held = none := by
      simp only [takeEvent, he.deferred, tryNext, he.events, he.copy]
    cases hnothing.symm.trans htake
  | gathered hbusy | putAside hbusy | grouped hbusy | fetched hbusy | unread hbusy | wrote hbusy
    | unwritten hbusy | written hbusy =>
    rcases he.phase with hphase | ⟨result, hphase⟩
    all_goals cases hphase.symm.trans hbusy
  | closedEvents =>
    refine ⟨he.events, he.copy, he.deferred, ?_, he.forgotten.1, he.forgotten.2⟩
    dsimp only
    split
    · exact .inl rfl
    · exact .inr ⟨_, rfl⟩
  | closedCopy => exact (spent_closeCopy h).1
  | stopped | cutOff =>
    exact ⟨he.events, he.copy, he.deferred, .inr ⟨_, rfl⟩, he.forgotten.1, he.forgotten.2⟩

end Engine

/-! ## One step of the loads -/

/-- What a load says down its channel. -/
inductive Says (s : LoadsState) (action : LoadsAction) : ChangeEvent → Bool → Prop where
  /-- a row, a boundary or a mark -/
  | copied {event : ChangeEvent} : event.isCopied = true → Says s action event s.finished
  /-- that the attempt's load is over -/
  | finished : s.finished = false → Says s action .loadFinished true
  /-- that a table's load starts -/
  | started {i : ℕ} : action = .start i → Says s action .loadStarted s.finished

/-- What a step of the loads does. -/
inductive LoadsMove (engine : Engine) (s : LoadsState) (action : LoadsAction) :
    LoadsState → Prop where
  /-- the engine is not concerned -/
  | aside {added : List AddedLoad} {ended : Bool} : (s.ended = true → ended = true) →
      LoadsMove engine s action { s with added := added, ended := ended }
  /-- the stream sends an event, before the attempt is over -/
  | streams {event : ChangeEvent} : s.ended = false → LoadsMove engine s action
      { s with engine := { s.engine with events := s.engine.events ++ [event] } }
  /-- a load sends one -/
  | copies {event : ChangeEvent} {finished : Bool} {added : List AddedLoad} :
      s.engine.copyOpen = true → Says s action event finished → LoadsMove engine s action
        { s with
          engine := { s.engine with copy := s.engine.copy ++ [event] }
          finished := finished
          added := added }
  /-- the engine does something else -/
  | loops {act : EngineAction} {e : EngineState} : (∀ event, act ≠ .feed event) →
      (∀ event, act ≠ .feedCopy event) → act ≠ .closeCopy → engine.step s.engine act = some e →
      LoadsMove engine s action
        { s with
          engine := e
          marked := if Engine.forgets s.engine act then s.engine.log.length else s.marked }
  /-- the channel closes -/
  | closes {e : EngineState} : s.ended = true → engine.step s.engine .closeCopy = some e →
      LoadsMove engine s action { s with engine := e, marked := s.engine.log.length }

variable {engine : Engine}

theorem loadsMove {s s' : LoadsState} {action : LoadsAction}
    (hstep : engine.loadsStep s action = some s') : LoadsMove engine s action s' := by
  cases action with
  | stream event =>
    simp only [Engine.loadsStep] at hstep
    split at hstep
    · next hsends =>
      obtain ⟨e, hfeed, rfl⟩ := Option.map_eq_some_iff.mp hstep
      cases Engine.does hfeed with
      | fed =>
        rw [Bool.and_eq_true, Bool.not_eq_true'] at hsends
        exact .streams hsends.2
    · cases hstep
  | copied event =>
    simp only [Engine.loadsStep] at hstep
    split at hstep
    · next hsends =>
      obtain ⟨e, hfeed, rfl⟩ := Option.map_eq_some_iff.mp hstep
      obtain ⟨hopen, rfl⟩ := Engine.step_feedCopy hfeed
      rw [Bool.and_eq_true, Bool.and_eq_true] at hsends
      exact .copies hopen (.copied hsends.1.1)
    · cases hstep
  | finish =>
    simp only [Engine.loadsStep] at hstep
    split at hstep
    · next hsends =>
      obtain ⟨e, hfeed, rfl⟩ := Option.map_eq_some_iff.mp hstep
      obtain ⟨hopen, rfl⟩ := Engine.step_feedCopy hfeed
      rw [Bool.and_eq_true, Bool.not_eq_true'] at hsends
      exact .copies hopen (.finished hsends.1)
    · cases hstep
  | join =>
    simp only [Engine.loadsStep] at hstep
    split at hstep <;> cases hstep
    exact .aside id
  | start i =>
    simp only [Engine.loadsStep] at hstep
    split at hstep
    · obtain ⟨e, hfeed, rfl⟩ := Option.map_eq_some_iff.mp hstep
      obtain ⟨hopen, rfl⟩ := Engine.step_feedCopy hfeed
      exact .copies hopen (.started rfl)
    · cases hstep
  | added i event =>
    simp only [Engine.loadsStep] at hstep
    split at hstep
    · split at hstep
      · next hcopied =>
        obtain ⟨e, hfeed, rfl⟩ := Option.map_eq_some_iff.mp hstep
        obtain ⟨hopen, rfl⟩ := Engine.step_feedCopy hfeed
        exact .copies hopen (.copied hcopied)
      · cases hstep
    · cases hstep
  | leave i =>
    cases hstep
    exact .aside id
  | conclude =>
    cases hstep
    exact .aside fun _ => rfl
  | engine action =>
    cases action with
    | feed event | feedCopy event => cases hstep
    | closeCopy =>
      simp only [Engine.loadsStep] at hstep
      split at hstep
      · next hover =>
        obtain ⟨e, he, rfl⟩ := Option.map_eq_some_iff.mp hstep
        rw [Bool.and_eq_true] at hover
        exact .closes hover.1 he
      · cases hstep
    | sinkGone =>
      cases hstep
      exact .loops (fun _ hne => by cases hne) (fun _ hne => by cases hne)
        (fun hne => by cases hne) rfl
    | turn | gather | fetch | write | closeEvents | shutdown =>
      obtain ⟨e, he, rfl⟩ := Option.map_eq_some_iff.mp hstep
      exact .loops (fun _ hne => by cases hne) (fun _ hne => by cases hne)
        (fun hne => by cases hne) he

namespace LoadsState

open EngineState

/-- What holds between any two steps of a run in which no table is added late. -/
structure Inv (s : LoadsState) : Prop where
  /-- nothing is put aside while a group is gathered -/
  gathers : s.engine.Gathers
  /-- the engine forgets what it is told to -/
  heeds : s.engine.Heeds
  /-- nothing behind the end of the attempt's load says that a load runs -/
  said : s.finished = true → s.engine.flagAhead = false
  /-- a closed channel is the end -/
  closed : s.engine.copyOpen = false → s.ended = true ∧ s.engine.Spent
  /-- what is remembered came since the last mark -/
  recalls : s.engine.RecallsFrom s.marked

theorem Inv.start : Inv ⟨.start, false, [], false, 0⟩ where
  gathers := gathers_of_phase fun settings rows h => by cases h
  heeds h := by cases h
  said h := by cases h
  closed h := by cases h
  recalls := Forgotten.recallsFrom ⟨fun _ => rfl, rfl⟩

variable {s : LoadsState}

/-- Behind its end the attempt's load says nothing, and a late load would. -/
theorem Inv.says (h : s.Inv) {action : LoadsAction} (htimely : s.timely action = true)
    {event : ChangeEvent} {finished : Bool} (hemits : Says s action event finished)
    (hfinished : finished = true) : took s.engine.flagAhead event = false := by
  cases hemits with
  | copied hcopied =>
    rw [h.said hfinished]
    cases event with
    | row | commit | loadMark => rfl
    | begin | loadStarted | loadFinished | schemaDrift | tableTruncated => cases hcopied
  | finished => rfl
  | started haction =>
    rw [haction, timely, hfinished] at htimely
    cases htimely

/-- Every step keeps it, unless a table is added late. -/
theorem Inv.step (h : s.Inv) {action : LoadsAction} {s' : LoadsState}
    (htimely : s.timely action = true) (hmove : LoadsMove engine s action s') : s'.Inv := by
  cases hmove with
  | aside hover =>
    refine ⟨h.gathers, h.heeds, h.said, fun hclosed => ?_, h.recalls⟩
    exact ⟨hover (h.closed hclosed).1, (h.closed hclosed).2⟩
  | streams hover =>
    refine ⟨h.gathers, h.heeds.of_eq rfl rfl rfl rfl, h.said, fun hclosed => ?_,
      h.recalls.bound, h.recalls.superseded, h.recalls.cleared⟩
    -- the stream ends with the attempt, and the channel closes after it
    have hended := (h.closed hclosed).1
    rw [hover] at hended
    cases hended
  | copies hopen hemits =>
    refine ⟨h.gathers, h.heeds.of_eq rfl rfl rfl rfl, fun hfinished => ?_, fun hclosed => ?_,
      h.recalls.bound, h.recalls.superseded, h.recalls.cleared⟩
    · rw [flagAhead, List.foldl_append]
      exact h.says htimely hemits hfinished
    · cases hopen.symm.trans hclosed
  | loops hfeed hcopied hclose he =>
    have hone := Engine.loopStep h.gathers hcopied hclose he
    refine ⟨hone.gathers, hone.heeds h.heeds, fun hfinished => ?_, fun hclosed => ?_,
      hone.recallsFrom h.recalls⟩
    · exact hone.flagAhead.trans (h.said hfinished)
    · obtain ⟨hover, hspent⟩ := h.closed (hone.copyOpen.symm.trans hclosed)
      exact ⟨hover, Engine.spent_step hspent hfeed hcopied he⟩
  | closes hover he =>
    obtain ⟨hspent, hflag, hlog⟩ := Engine.spent_closeCopy he
    refine ⟨hspent.gathers, fun _ => .inl hspent.forgotten,
      fun hfinished => hflag.trans (h.said hfinished), fun _ => ⟨hover, hspent⟩, ?_⟩
    rw [← hlog]
    exact hspent.forgotten.recallsFrom

/-- While it is quiet and the channel is open, no load runs. -/
theorem Inv.quiet (h : s.Inv) (hfinished : s.finished = true)
    (hheard : .loadFinished ∉ s.engine.pending .copy) :
    s.engine.loadRunning = false ∧ s.engine.Forgotten := by
  have hput : s.engine.deferred ≠ some (.copy, .loadFinished) := by
    intro hput
    apply hheard
    simp [EngineState.pending, inHand, hput]
  have hload : s.engine.loadRunning = false := by
    cases hload : s.engine.loadRunning with
    | false => rfl
    | true =>
      have hahead := h.said hfinished
      rw [flagAhead, hload] at hahead
      exact absurd (List.mem_append_right _ (mem_of_foldl_took hahead)) hheard
  exact ⟨hload, (h.heeds hload).resolve_right hput⟩

/-- Nothing is added where nothing is remembered and no load runs. -/
theorem forgotten_step {e e' : EngineState} (hgathers : e.Gathers) (hload : e.loadRunning = false)
    (he : e.Forgotten) (h : engine.step e action = some e') : e'.Forgotten := by
  by_cases hclose : action = .closeCopy
  · subst hclose
    exact (Engine.spent_closeCopy h).1.forgotten
  · by_cases hcopied : ∀ event, action ≠ .feedCopy event
    · have hone := Engine.loopStep hgathers hcopied hclose h
      cases hforgets : Engine.forgets e action with
      | true => exact (hone.forgotten hforgets).1
      | false => exact (hone.recorded hforgets).forgotten hload he
    · obtain ⟨event, hevent⟩ := not_forall_not.mp hcopied
      subst hevent
      obtain ⟨-, rfl⟩ := Engine.step_feedCopy h
      exact ⟨he.superseded, he.cleared⟩

/-- Nor where the channels are read. -/
theorem forgotten_of_spent {e e' : EngineState} (hclosed : e.copyOpen = false) (he : e.Spent)
    (h : engine.step e action = some e') : e'.Forgotten := by
  by_cases hfeed : ∀ event, action ≠ .feed event
  · by_cases hcopied : ∀ event, action ≠ .feedCopy event
    · exact (Engine.spent_step he hfeed hcopied h).forgotten
    · obtain ⟨event, rfl⟩ := not_forall_not.mp hcopied
      cases hclosed.symm.trans (Engine.step_feedCopy h).1
  · obtain ⟨event, rfl⟩ := not_forall_not.mp hfeed
    cases Engine.does h with
    | fed => exact ⟨he.forgotten.superseded, he.forgotten.cleared⟩

theorem Inv.windowCloses (h : s.Inv) (engine : Engine) : engine.WindowCloses s where
  forgotten hquiet := by
    rcases hquiet with ⟨hfinished, -, hheard⟩ | hclosed
    · exact (h.quiet hfinished hheard).2
    · exact (h.closed hclosed).2.forgotten
  still hquiet action e hstep := by
    rcases hquiet with ⟨hfinished, -, hheard⟩ | hclosed
    · obtain ⟨hload, hforgotten⟩ := h.quiet hfinished hheard
      exact forgotten_step h.gathers hload hforgotten hstep
    · exact forgotten_of_spent hclosed (h.closed hclosed).2 hstep
  bounded := h.recalls

end LoadsState

namespace Engine

open EngineState

variable {engine : Engine} {s s' : LoadsState}

/-- **The window closes where no table is added late.** -/
theorem window_closes (h : (loadsSystem engine).ReachUnder (fun s a => s.timely a = true) s) :
    engine.WindowCloses s := by
  have hinv : s.Inv := h.invariant (fun s hinitial => hinitial ▸ LoadsState.Inv.start)
    fun _ _ _ hinv htimely hstep => hinv.step htimely (loadsMove hstep)
  exact hinv.windowCloses engine

/-- A load was added late: the attempt's load is over, and the last that the channel says is that
a load runs. -/
structure LeftOpen (s : LoadsState) : Prop where
  /-- nothing is put aside while a group is gathered -/
  gathers : s.engine.Gathers
  /-- the attempt's load is over -/
  finished : s.finished = true
  /-- what the channel says -/
  flag : s.engine.flagAhead = true

theorem leftOpen_start {i : ℕ} (hgathers : s.engine.Gathers) (hfinished : s.finished = true)
    (h : engine.loadsStep s (.start i) = some s') : LeftOpen s' := by
  simp only [loadsStep] at h
  split at h
  · obtain ⟨e, hfeed, rfl⟩ := Option.map_eq_some_iff.mp h
    obtain ⟨-, rfl⟩ := step_feedCopy hfeed
    refine ⟨hgathers, hfinished, ?_⟩
    rw [flagAhead, List.foldl_append]
    rfl
  · cases h

/-- Nobody takes it back. -/
theorem LeftOpen.step (h : LeftOpen s) {action : LoadsAction}
    (hmove : LoadsMove engine s action s') : LeftOpen s' := by
  cases hmove with
  | aside => exact ⟨h.gathers, h.finished, h.flag⟩
  | streams => exact ⟨h.gathers, h.finished, h.flag⟩
  | @copies event finished added hopen hemits =>
    cases hemits with
    | copied hcopied =>
      refine ⟨h.gathers, h.finished, ?_⟩
      rw [flagAhead, List.foldl_append]
      change took s.engine.flagAhead event = true
      rw [h.flag]
      cases event with
      | row | commit | loadMark => rfl
      | begin | loadStarted | loadFinished | schemaDrift | tableTruncated => cases hcopied
    | finished hrunning => cases hrunning.symm.trans h.finished
    | started =>
      refine ⟨h.gathers, h.finished, ?_⟩
      rw [flagAhead, List.foldl_append]
      rfl
  | loops hfeed hcopied hclose he =>
    have hone := loopStep h.gathers hcopied hclose he
    exact ⟨hone.gathers, h.finished, hone.flagAhead.trans h.flag⟩
  | closes hover he =>
    obtain ⟨hspent, hflag, -⟩ := spent_closeCopy he
    exact ⟨hspent.gathers, h.finished, hflag.trans h.flag⟩

theorem gathers_step (h : s.engine.Gathers) {action : LoadsAction}
    (hmove : LoadsMove engine s action s') : s'.engine.Gathers := by
  cases hmove with
  | aside | streams | copies => exact h
  | loops _ hcopied hclose he => exact (loopStep h hcopied hclose he).gathers
  | closes _ he => exact (spent_closeCopy he).1.gathers

/-- **A table that is added late leaves the window open**: whatever happens once its load has
started, an engine that has read the channel takes it that a load runs. -/
theorem loadRunning_of_late {later : LoadsState} {i : ℕ} (h : (loadsSystem engine).Reachable s)
    (hfinished : s.finished = true) (hstart : engine.loadsStep s (.start i) = some s')
    (hlater : (loadsSystem engine).Later s' later) (hread : later.engine.copy = []) :
    later.engine.loadRunning = true := by
  have hgathers : s.engine.Gathers := h.invariant (fun _ hs => hs ▸ LoadsState.Inv.start.gathers)
    fun _ _ _ hinv hstep => gathers_step hinv (loadsMove hstep)
  have hopen : LeftOpen later := hlater.invariant (leftOpen_start hgathers hfinished hstart)
    fun _ _ _ hinv hstep => hinv.step (loadsMove hstep)
  have hflag := hopen.flag
  rw [flagAhead, hread] at hflag
  exact hflag

end Engine

/-! ## Runs that the kernel follows -/

/-- The attempt begins. -/
def LoadsState.start : LoadsState := ⟨.start, false, [], false, 0⟩

/-- The loop takes an event that is not a row. -/
def takesEvent : List LoadsAction := [.engine (.turn ⟨100, 1000000⟩ false false false)]

/-- It takes a row and writes it. -/
def takesRow : List LoadsAction :=
  takesEvent ++ [.engine (.gather false), .engine (.fetch (.ok fun _ _ _ => none)), .engine .write,
    .engine .write]

/-- The attempt's load is over. -/
def loadEnds : List LoadsAction := .finish :: takesEvent

/-- A table is added, read and marked. -/
def tableAdded : List LoadsAction :=
  [.join, .start 0] ++ takesEvent ++ [.added 0 (.row (copiedRow 5 copiedOne))] ++ takesRow ++
    [.added 0 (.loadMark 1)] ++ takesEvent ++ [.leave 0]

/-- The stream removes a row. -/
def rowRemoved : List LoadsAction :=
  .stream (removedOne 7) :: takesRow

/-- A table is added while the attempt's load runs. -/
theorem window_closes_tableAdded : ∃ s,
    (Engine.loadsSystem plainEngine).runUnder LoadsState.timely .start
      (tableAdded ++ loadEnds ++ rowRemoved) = some s ∧
      s.engine.log.length = 2 ∧ s.Quiet ∧ plainEngine.WindowCloses s := by
  have hrun : ((Engine.loadsSystem plainEngine).runUnder LoadsState.timely .start
      (tableAdded ++ loadEnds ++ rowRemoved)).map (fun s =>
        (s.engine.log.length, s.finished, s.added, s.engine.pending .copy)) =
      some (2, true, [.ended], []) := by decide +kernel
  obtain ⟨s, hs, heq⟩ := Option.map_eq_some_iff.mp hrun
  simp only [Prod.mk.injEq] at heq
  obtain ⟨hlog, hfinished, hadded, hpending⟩ := heq
  refine ⟨s, hs, hlog, .inl ⟨hfinished, ?_, ?_⟩, ?_⟩
  · rw [hadded]
    decide
  · rw [hpending]
    exact List.not_mem_nil
  · exact Engine.window_closes (.of_runUnder (.initial rfl) hs)

/-- A table is added once the attempt's load is over, and read; then the stream removes a row, and
this is remembered. -/
theorem not_window_closes : ¬∀ (engine : Engine) (s : LoadsState),
    (Engine.loadsSystem engine).Reachable s → engine.WindowCloses s := by
  have hrun : ((Engine.loadsSystem plainEngine).run .start
      (loadEnds ++ tableAdded ++ rowRemoved)).map (fun s =>
        (s.finished, s.added, s.engine.pending .copy, s.engine.superseded ("t", "1"))) =
      some (true, [.ended], [], some 7) := by decide +kernel
  obtain ⟨s, hs, heq⟩ := Option.map_eq_some_iff.mp hrun
  simp only [Prod.mk.injEq] at heq
  obtain ⟨hfinished, hadded, hpending, hknown⟩ := heq
  intro h
  have hquiet : s.Quiet := by
    refine .inl ⟨hfinished, ?_, ?_⟩
    · rw [hadded]
      decide
    · rw [hpending]
      exact List.not_mem_nil
  have hreach := Transition.System.reachable_of_run rfl hs
  have hnone := ((h plainEngine s hreach).forgotten hquiet).superseded ("t", "1")
  rw [hnone] at hknown
  cases hknown

/-- The table that is added once the attempt's load is over. -/
theorem loadRunning_tableAdded : ∃ s s' later, plainEngine.loadsStep s (.start 0) = some s' ∧
    (Engine.loadsSystem plainEngine).Later s' later ∧ later.engine.loadRunning = true := by
  have hrun : ((Engine.loadsSystem plainEngine).run .start (loadEnds ++ [.join]) >>= fun s =>
      plainEngine.loadsStep s (.start 0) >>= fun s' => ((Engine.loadsSystem plainEngine).step s'
        (.engine (.turn ⟨100, 1000000⟩ false false false))).map fun later =>
          (s.finished, later.engine.copy)) = some (true, []) := by decide +kernel
  obtain ⟨s, hs, h⟩ := Option.bind_eq_some_iff.mp hrun
  obtain ⟨s', hstart, h⟩ := Option.bind_eq_some_iff.mp h
  obtain ⟨later, hstep, h⟩ := Option.map_eq_some_iff.mp h
  obtain ⟨hfinished, hread⟩ := Prod.mk.inj h
  have hlater : (Engine.loadsSystem plainEngine).Later s' later := .single ⟨_, hstep⟩
  exact ⟨s, s', later, hstart, hlater, Engine.loadRunning_of_late
    (Transition.System.reachable_of_run rfl hs) hfinished hstart hlater hread⟩

end Pg2osync
