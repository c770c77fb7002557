import Pg2osync.LoadWindow

/-!
# Where the window holds, nothing is resurrected

A removal by the stream lies at or below the position the source is at, so a row read
after it carries a version that is not below it: only the rows that are on their way
when a removal is put out can be below it. For those the engine remembers it. What is
remembered is lost again when the window closes, for every loader at once.

The stream's own rows come in the order of their versions, and nothing that was put
out is above what is still to come.
-/

namespace Pg2osync

/-! ## What the window remembers -/

theorem lt_raiseFloor {floor : Option ℕ} {v w : ℕ} :
    v < raiseFloor floor w ↔ floor.any (fun f => v < f) = true ∨ v < w := by
  cases floor <;> simp [raiseFloor]

variable {v : ℕ}

theorem remember_of_known {ops : List DocumentOp} {known : String × String → Option ℕ}
    {key : String × String} (h : (known key).any (fun f => v < f) = true) :
    (remember ops known key).any (fun f => v < f) = true := by
  induction ops generalizing known with
  | nil => exact h
  | cons op rest ih =>
    refine ih ?_
    unfold rememberOp
    split
    · next index id routing w =>
      rw [Function.update_apply]
      split
      · next heq =>
        subst heq
        exact decide_eq_true (lt_raiseFloor.mpr (.inl h))
      · exact h
    · exact h

theorem remember_of_mem {ops : List DocumentOp} {known : String × String → Option ℕ}
    {index id : String} {routing : Option String} {v w : ℕ}
    (h : .delete index id routing (some w) ∈ ops) (hlt : v < w) :
    (remember ops known (index, id)).any (fun f => v < f) = true := by
  induction ops generalizing known with
  | nil => cases h
  | cons op rest ih =>
    obtain rfl | hrest := List.mem_cons.mp h
    · -- later removals of the row only raise the floor
      rw [remember, List.foldl_cons]
      refine remember_of_known ?_
      simp only [rememberOp, Function.update_self]
      exact decide_eq_true (lt_raiseFloor.mpr (.inr hlt))
    · exact ih hrest

variable {pattern : String}

theorem raiseCleared_of_known {version : ℕ} {cleared : List (String × ℕ)} {index : String}
    (h : cleared.any (fun c => v < c.2 && indexMatchesPattern c.1 index) = true) :
    (raiseCleared pattern version cleared).any (fun c => v < c.2 && indexMatchesPattern c.1 index)
      = true := by
  induction cleared with
  | nil => cases h
  | cons c rest ih =>
    obtain ⟨p, at_⟩ := c
    simp only [List.any_cons, Bool.or_eq_true, Bool.and_eq_true, decide_eq_true_eq] at h
    rw [raiseCleared]
    split
    · simp only [List.any_cons, Bool.or_eq_true, Bool.and_eq_true, decide_eq_true_eq]
      exact h.imp_left fun ⟨hlt, hmatch⟩ => ⟨lt_of_lt_of_le hlt (le_max_left _ _), hmatch⟩
    · simp only [List.any_cons, Bool.or_eq_true, Bool.and_eq_true, decide_eq_true_eq]
      exact h.imp_right ih

theorem raiseCleared_self {version : ℕ} {cleared : List (String × ℕ)} {index : String}
    (hlt : v < version) (hmatch : indexMatchesPattern pattern index) :
    (raiseCleared pattern version cleared).any (fun c => v < c.2 && indexMatchesPattern c.1 index)
      = true := by
  induction cleared with
  | nil => simp [raiseCleared, hlt, hmatch]
  | cons c rest ih =>
    obtain ⟨p, at_⟩ := c
    rw [raiseCleared]
    split
    · next heq => simp [heq, hmatch, hlt]
    · simp [ih]

variable {version : Option ℕ}

theorem removes_truncated {confined : Bool} {index id : String} :
    (Emitted.truncated pattern version confined).removes index id v = true ↔
      ∃ w, version = some w ∧ confined = false ∧ v < w ∧
        indexMatchesPattern pattern index = true := by
  cases version <;> cases confined <;> simp [Emitted.removes]

variable {origin : Origin}

theorem removes_op {op : DocumentOp} {index id : String}
    (h : (Emitted.op origin op).removes index id v = true) :
    origin = .stream ∧ ∃ routing w, op = .delete index id routing (some w) ∧ v < w := by
  unfold Emitted.removes at h
  split at h
  · next i d routing w heq =>
    injection heq with horigin hop
    simp only [Bool.and_eq_true, decide_eq_true_eq] at h
    obtain ⟨⟨rfl, rfl⟩, hlt⟩ := h
    exact ⟨horigin, routing, w, hop, hlt⟩
  · next heq => cases heq
  · cases h

/-- Only a write with a version can bring anything back. -/
theorem respects_of_upsert {op : DocumentOp} {earlier : Emitted}
    (h : ∀ index id routing doc v pipeline, op = .upsert index id routing doc (some v) pipeline →
      earlier.removes index id v = false) : (Emitted.op origin op).respects earlier := by
  unfold Emitted.respects
  split
  · next index id routing doc v pipeline heq =>
    injection heq with _ hop
    exact h index id routing doc v pipeline hop
  · trivial

variable {settings : EngineSettings} {next : Origin × ChangeEvent} {ev : ChangeEvent}

namespace EngineState

/-! ## What is pending -/

/-- Two states of the engine between which nothing was handled: what is pending, put
out and remembered is the same. -/
structure SameWindow (s s' : EngineState) : Prop where
  /-- what is pending -/
  pending : ∀ origin, s'.pending origin = s.pending origin
  /-- what was put out -/
  log : s'.log = s.log
  /-- what is remembered of documents -/
  superseded : s'.superseded = s.superseded
  /-- and of patterns -/
  cleared : s'.cleared = s.cleared
  /-- whether the load's channel is open -/
  copyOpen : s'.copyOpen = s.copyOpen

variable {s s' s'' : EngineState}

theorem SameWindow.refl (s : EngineState) : s.SameWindow s :=
  ⟨fun _ => rfl, rfl, rfl, rfl, rfl⟩

theorem SameWindow.trans (h : s.SameWindow s') (h' : s'.SameWindow s'') : s.SameWindow s'' where
  pending origin := (h'.pending origin).trans (h.pending origin)
  log := h'.log.trans h.log
  superseded := h'.superseded.trans h.superseded
  cleared := h'.cleared.trans h.cleared
  copyOpen := h'.copyOpen.trans h.copyOpen

theorem SameWindow.remembers (h : s.SameWindow s') : s'.remembers = s.remembers := by
  funext index id version
  simp only [EngineState.remembers, h.superseded, h.cleared]

variable {held : Bool}

/-- What `try_next` does: the head of a channel is taken. -/
theorem tryNext_cases (h : s.tryNext held = some ((origin, ev), s')) :
    (origin = .stream ∧ ∃ rest, s.events = ev :: rest ∧ s' = { s with events := rest }) ∨
    (origin = .copy ∧ ∃ rest, s.copy = ev :: rest ∧
      s' = { s with copy := rest, loadRunning := took s.loadRunning ev }) := by
  unfold tryNext at h
  split at h
  · next next rest hevents =>
    cases h
    exact .inl ⟨rfl, rest, hevents, rfl⟩
  · next next rest _ hcopy =>
    split at h
    · cases h
    · cases h
      exact .inr ⟨rfl, rest, hcopy, rfl⟩
  · cases h

/-- An event put aside is still pending. -/
theorem SameWindow.defer (h : s.tryNext held = some (next, s')) (hdeferred : s.deferred = none) :
    s.SameWindow { s' with deferred := some next } := by
  obtain ⟨origin, ev⟩ := next
  obtain ⟨rfl, rest, hchannel, rfl⟩ | ⟨rfl, rest, hchannel, rfl⟩ := tryNext_cases h
  all_goals
    refine ⟨fun origin => ?_, rfl, rfl, rfl, rfl⟩
    cases origin <;> simp [EngineState.pending, inHand, groupRows, channel, hdeferred, hchannel]

/-- So is a row that joins the group. -/
theorem SameWindow.gather {change : RowChange} {rows : List (Origin × RowChange)}
    (hphase : s.phase = .gathering settings rows)
    (h : s.tryNext held = some ((origin, .row change), s')) (hdeferred : s.deferred = none) :
    s.SameWindow { s' with phase := .gathering settings (rows ++ [(origin, change)]) } := by
  obtain ⟨rfl, rest, hchannel, rfl⟩ | ⟨rfl, rest, hchannel, rfl⟩ := tryNext_cases h
  all_goals
    refine ⟨fun origin => ?_, rfl, rfl, rfl, rfl⟩
    cases origin <;> simp [EngineState.pending, inHand, groupRows, channel, hdeferred, hchannel, hphase]

/-- The event a turn takes was the oldest of its channel. -/
theorem pending_of_takeEvent (hidle : s.phase = .idle)
    (h : s.takeEvent held = some ((origin, ev), s')) :
    s'.phase = .idle ∧ s'.deferred = none ∧ s.pending origin = ev :: s'.pending origin ∧
      (∀ other, other ≠ origin → s'.pending other = s.pending other) ∧ s'.log = s.log ∧
      s'.superseded = s.superseded ∧ s'.cleared = s.cleared ∧ s'.copyOpen = s.copyOpen ∧
      (s'.loadRunning = s.loadRunning ∨ s'.loadRunning = took s.loadRunning ev) := by
  unfold takeEvent at h
  split at h
  · next next hdeferred =>
    cases h
    refine ⟨hidle, rfl, ?_, fun other hne => ?_, rfl, rfl, rfl, rfl, .inl rfl⟩
    · cases origin <;> simp [EngineState.pending, inHand, groupRows, channel, hdeferred, hidle]
    · simp [EngineState.pending, inHand, groupRows, hdeferred, hidle, Ne.symm hne]
      cases other <;> rfl
  · next hdeferred =>
    obtain ⟨rfl, rest, hchannel, rfl⟩ | ⟨rfl, rest, hchannel, rfl⟩ := tryNext_cases h
    · refine ⟨hidle, hdeferred, ?_, fun other hne => ?_, rfl, rfl, rfl, rfl, .inl rfl⟩
      · simp [EngineState.pending, inHand, groupRows, channel, hdeferred, hidle, hchannel]
      · cases other
        · exact absurd rfl hne
        · rfl
    · refine ⟨hidle, hdeferred, ?_, fun other hne => ?_, rfl, rfl, rfl, rfl, .inr rfl⟩
      · simp [EngineState.pending, inHand, groupRows, channel, hdeferred, hidle, hchannel]
      · cases other
        · rfl
        · exact absurd rfl hne

/-- The loop is elsewhere, with the same rows at hand. -/
theorem SameWindow.regroup {phase : EnginePhase}
    (hrows : ({ s with phase := phase } : EngineState).groupRows = s.groupRows) :
    s.SameWindow { s with phase := phase } := by
  refine ⟨fun origin => ?_, rfl, rfl, rfl, rfl⟩
  unfold EngineState.pending inHand
  rw [hrows]
  rfl

theorem deferred_tryNext (h : s.tryNext held = some (next, s')) : s'.deferred = s.deferred := by
  obtain ⟨-, rest, -, rfl⟩ | ⟨-, rest, -, rfl⟩ := tryNext_cases h
  · rfl
  · rfl

/-- An event put aside while rows are gathered ends the group. -/
theorem SameWindow.putAside {rows : List (Origin × RowChange)}
    (hphase : s.phase = .gathering settings rows) (h : s.tryNext held = some (next, s'))
    (hdeferred : s.deferred = none) :
    s.SameWindow { s' with deferred := some next, phase := .grouped settings rows } := by
  refine (SameWindow.defer h hdeferred).trans (.regroup ?_)
  obtain ⟨-, rest, -, rfl⟩ | ⟨-, rest, -, rfl⟩ := tryNext_cases h
  · simp [groupRows, hphase]
  · simp [groupRows, hphase]

/-- The loop looks for another row, and has put nothing aside when it goes on looking. -/
theorem SameWindow.of_gather {engine : Engine}
    (hclear : ∀ settings rows, s.phase = .gathering settings rows → s.deferred = none)
    (h : engine.step s (.gather held) = some s') : s.SameWindow s' ∧
      ∀ settings rows, s'.phase = .gathering settings rows → s'.deferred = none := by
  cases Engine.does h with
  | gathered hphase htry =>
    have hdeferred := hclear _ _ hphase
    exact ⟨.gather hphase htry hdeferred, fun _ _ _ => (deferred_tryNext htry).trans hdeferred⟩
  | putAside hphase htry =>
    exact ⟨.putAside hphase htry (hclear _ _ hphase), fun _ _ hgather => by cases hgather⟩
  | grouped hphase =>
    exact ⟨.regroup (by simp [groupRows, hphase]), fun _ _ hgather => by cases hgather⟩

/-- A channel closes, and with the other closed the loop ends. -/
theorem pending_closed (hidle : s.phase = .idle) (other : Bool) (result : Except CoreError Unit)
    (origin : Origin) :
    ({ s with phase := if other then .idle else .ended result } : EngineState).pending origin =
      s.pending origin := by
  cases other
  all_goals
    simp [EngineState.pending, inHand, groupRows, hidle]
    rfl

theorem SameWindow.releaseMark (s : EngineState) : s.SameWindow s.releaseMark := by
  unfold EngineState.releaseMark
  split
  · split
    · exact ⟨fun _ => rfl, rfl, rfl, rfl, rfl⟩
    · exact .refl s
  · exact .refl s

theorem SameWindow.closeTxn (lsn : Lsn) (s : EngineState) : s.SameWindow (s.closeTxn lsn) := by
  unfold EngineState.closeTxn
  split
  · exact .refl s
  · exact ⟨fun _ => rfl, rfl, rfl, rfl, rfl⟩

theorem deferred_closeTxn (lsn : Lsn) (s : EngineState) : (s.closeTxn lsn).deferred = s.deferred := by
  unfold EngineState.closeTxn
  split <;> rfl

theorem SameWindow.stampBuffer (lsn : Lsn) (s : EngineState) :
    s.SameWindow (s.stampBuffer lsn) := by
  unfold EngineState.stampBuffer
  split
  · exact .refl s
  · exact ⟨fun _ => rfl, rfl, rfl, rfl, rfl⟩

theorem deferred_stampBuffer (lsn : Lsn) (s : EngineState) :
    (s.stampBuffer lsn).deferred = s.deferred := by
  unfold EngineState.stampBuffer
  split <;> rfl

theorem SameWindow.handOverOrWait (held overdue : Bool) (hdeferred : s.deferred = none) :
    s.SameWindow (s.handOverOrWait held overdue) := by
  unfold EngineState.handOverOrWait
  split
  · next next s' htry =>
    refine (SameWindow.defer htry hdeferred).trans ?_
    split
    · exact ⟨fun _ => rfl, rfl, rfl, rfl, rfl⟩
    · exact ⟨fun _ => rfl, rfl, rfl, rfl, rfl⟩
  · exact ⟨fun _ => rfl, rfl, rfl, rfl, rfl⟩

theorem SameWindow.commitBuffer (lsn : Lsn) (held overdue : Bool) (hdeferred : s.deferred = none) :
    s.SameWindow (s.commitBuffer lsn held overdue) := by
  unfold EngineState.commitBuffer
  split
  · split
    · exact .refl s
    · exact ⟨fun _ => rfl, rfl, rfl, rfl, rfl⟩
  · refine (SameWindow.stampBuffer lsn s).trans (.handOverOrWait held overdue ?_)
    rw [deferred_stampBuffer, hdeferred]

theorem phase_commit (lsn : Lsn) (held overdue : Bool) (s : EngineState) :
    (s.commit lsn held overdue).phase = s.phase := by
  have hrelease : ∀ s : EngineState, s.releaseMark.phase = s.phase := fun s => by
    unfold EngineState.releaseMark
    split
    · split <;> rfl
    · rfl
  have hclose : (s.closeTxn lsn).phase = s.phase := by
    unfold EngineState.closeTxn
    split <;> rfl
  have hstamp : ∀ s : EngineState, (s.stampBuffer lsn).phase = s.phase := fun s => by
    unfold EngineState.stampBuffer
    split <;> rfl
  have hwait : ∀ s : EngineState, (s.handOverOrWait held overdue).phase = s.phase := fun s => by
    unfold EngineState.handOverOrWait
    split
    · next next s' htry =>
      obtain ⟨-, rest, -, rfl⟩ | ⟨-, rest, -, rfl⟩ := tryNext_cases htry
      · split <;> rfl
      · split <;> rfl
    · rfl
  rw [EngineState.commit, hrelease, EngineState.commitBuffer, ← hclose]
  split
  · split <;> rfl
  · rw [hwait, hstamp]

/-- A mark forgets what is remembered, and nothing else. -/
theorem mark_frame (mark : ℕ) (s : EngineState) :
    (∀ origin, (s.mark mark).pending origin = s.pending origin) ∧ (s.mark mark).log = s.log ∧
      (s.mark mark).copyOpen = s.copyOpen ∧ (s.mark mark).phase = s.phase ∧
      (s.mark mark).deferred = s.deferred := by
  unfold EngineState.mark
  dsimp only
  split
  · exact ⟨fun _ => rfl, rfl, rfl, rfl, rfl⟩
  · split
    · exact ⟨fun _ => rfl, rfl, rfl, rfl, rfl⟩
    · exact ⟨fun _ => rfl, rfl, rfl, rfl, rfl⟩

/-- A commit handles nothing but itself. -/
theorem SameWindow.commit (lsn : Lsn) (held overdue : Bool) (hdeferred : s.deferred = none) :
    s.SameWindow (s.commit lsn held overdue) := by
  refine (SameWindow.closeTxn lsn s).trans ?_
  have hstill := (deferred_closeTxn lsn s).trans hdeferred
  exact (SameWindow.commitBuffer lsn held overdue hstill).trans (.releaseMark _)

end EngineState

namespace Engine

variable (engine : Engine)

/-! ## The invariant -/

/-- What holds between any two steps of the loaders, the stream and the engine. -/
structure WindowInv (s : WindowState) : Prop where
  /-- the stream is not ahead of the source -/
  bounded : s.streamed ≤ s.position
  /-- while rows are gathered, nothing has been put aside -/
  clear : ∀ settings rows, s.engine.phase = .gathering settings rows → s.engine.deferred = none
  /-- what the stream has brought comes in the order of its versions -/
  sorted : ((s.engine.pending .stream).filterMap ChangeEvent.version).Pairwise (· ≤ ·)
  /-- and is not above what it has sent -/
  sent : ∀ w ∈ (s.engine.pending .stream).filterMap ChangeEvent.version, w ≤ s.streamed
  /-- what was removed, was removed at or below all of that -/
  removed : ∀ e ∈ s.engine.log, ∀ index id v, e.removes index id v = true → v < s.streamed ∧
    ∀ w ∈ (s.engine.pending .stream).filterMap ChangeEvent.version, v < w
  /-- no truncate comes from a loader -/
  loads : ∀ ev ∈ s.engine.pending .copy, ∀ table version, ev ≠ .tableTruncated table version
  /-- the rows on their way were copied -/
  copies : ∀ row ∈ onTheWay s, ∃ version source, row = copiedRow version source
  /-- a removal above a row on its way is remembered -/
  protects : ∀ row ∈ onTheWay s, ∀ v, row.version = some v → ∀ doc ∈ engine.writesOf row,
    ∀ e ∈ s.engine.log, e.removes doc.1 doc.2 v = true → s.engine.remembers doc.1 doc.2 v = true
  /-- nothing was resurrected -/
  safe : NeverResurrects s.engine.log

variable {engine} {s s' : WindowState}

/-- A step that puts nothing out and brings nothing new. -/
theorem WindowInv.weaken (h : engine.WindowInv s) (hbounded : s'.streamed ≤ s'.position)
    (hstreamed : s.streamed ≤ s'.streamed)
    (hclear : ∀ settings rows, s'.engine.phase = .gathering settings rows →
      s'.engine.deferred = none)
    (hstream : (s'.engine.pending .stream).Sublist (s.engine.pending .stream))
    (hloads : ∀ ev ∈ s'.engine.pending .copy, ∀ table version, ev ≠ .tableTruncated table version)
    (hway : onTheWay s' ⊆ onTheWay s) (hlog : s'.engine.log = s.engine.log)
    (hremembers : ∀ row ∈ onTheWay s', ∀ v, row.version = some v → ∀ doc ∈ engine.writesOf row,
      s.engine.remembers doc.1 doc.2 v = true → s'.engine.remembers doc.1 doc.2 v = true) :
    engine.WindowInv s' where
  bounded := hbounded
  clear := hclear
  sorted := h.sorted.sublist (hstream.filterMap _)
  sent w hw := (h.sent w ((hstream.filterMap _).subset hw)).trans hstreamed
  removed e he index id v hremoves := by
    obtain ⟨hlt, hall⟩ := h.removed e (hlog ▸ he) index id v hremoves
    exact ⟨hlt.trans_le hstreamed, fun w hw => hall w ((hstream.filterMap _).subset hw)⟩
  loads := hloads
  copies row hrow := h.copies row (hway hrow)
  protects row hrow v hv doc hdoc e he hremoves := by
    have hknown := h.protects row (hway hrow) v hv doc hdoc e (hlog ▸ he) hremoves
    exact hremembers row hrow v hv doc hdoc hknown
  safe := by
    rw [hlog]
    exact h.safe

variable {row : RowChange}

theorem mem_onTheWay : row ∈ onTheWay s ↔
    ChangeEvent.row row ∈ s.engine.pending .copy ∨
      s.engine.copyOpen = true ∧ row ∈ s.loaders.flatMap Loader.unsent := by
  have hrow : ∀ ev : ChangeEvent, ev.rowOf = some row ↔ ev = .row row := fun ev => by
    cases ev <;> simp [ChangeEvent.rowOf]
  cases hopen : s.engine.copyOpen <;> simp [onTheWay, hopen, hrow]

/-- A step of the engine that handles nothing. -/
theorem WindowInv.same (h : engine.WindowInv s) {e : EngineState} (hsame : s.engine.SameWindow e)
    (hclear : ∀ settings rows, e.phase = .gathering settings rows → e.deferred = none) :
    engine.WindowInv { s with engine := e } := by
  refine h.weaken h.bounded le_rfl hclear ?_ ?_ ?_ hsame.log ?_
  · rw [hsame.pending]
  · rw [hsame.pending]
    exact h.loads
  · intro row hrow
    rw [mem_onTheWay] at hrow ⊢
    rwa [hsame.pending, hsame.copyOpen] at hrow
  · intro _ _ _ _ _ _ hknown
    rwa [hsame.remembers]

theorem not_threatened {test : String → String → ℕ → Bool} (h : engine.threatened s test = false)
    (hrow : row ∈ onTheWay s) (hv : row.version = some v) {doc : String × String}
    (hdoc : doc ∈ engine.writesOf row) : test doc.1 doc.2 v = false := by
  by_contra htest
  rw [Bool.not_eq_false] at htest
  have hthreat : engine.threatened s test = true := by
    refine List.any_eq_true.mpr ⟨row, hrow, ?_⟩
    rw [hv]
    exact List.any_eq_true.mpr ⟨doc, hdoc, htest⟩
  rw [h] at hthreat
  cases hthreat

/-! ## The loaders -/

variable {loaders : List Loader} {i : ℕ}

theorem mem_unsent_set {loader : Loader} (h : row ∈ (loaders.set i loader).flatMap Loader.unsent) :
    row ∈ loader.unsent ∨ row ∈ loaders.flatMap Loader.unsent := by
  obtain ⟨l, hl, hrow⟩ := List.mem_flatMap.mp h
  obtain hold | rfl := List.mem_or_eq_of_mem_set hl
  · exact .inr (List.mem_flatMap.mpr ⟨l, hold, hrow⟩)
  · exact .inl hrow

theorem mem_unsent_of_getElem? {loader : Loader} (hi : loaders[i]? = some loader)
    (hrow : row ∈ loader.unsent) : row ∈ loaders.flatMap Loader.unsent :=
  List.mem_flatMap.mpr ⟨loader, List.mem_of_getElem? hi, hrow⟩

/-- A loader goes on without reading rows. -/
theorem WindowInv.setLoader (h : engine.WindowInv s) {i marks loadDone : ℕ} {loader next : Loader}
    (hi : s.loaders[i]? = some loader) (hunsent : next.unsent ⊆ loader.unsent) :
    engine.WindowInv { s with
      loaders := s.loaders.set i next, marks := marks, loadDone := loadDone } := by
  refine h.weaken h.bounded le_rfl h.clear (List.Sublist.refl _) h.loads ?_ rfl
    fun _ _ _ _ _ _ hknown => hknown
  intro row hrow
  rw [mem_onTheWay] at hrow ⊢
  refine hrow.imp_right fun ⟨hopen, hmem⟩ => ⟨hopen, ?_⟩
  exact (mem_unsent_set hmem).elim (fun hnext => mem_unsent_of_getElem? hi (hunsent hnext)) id

theorem pending_feedCopy {e : EngineState} (origin : Origin) :
    ({ e with copy := e.copy ++ [ev] } : EngineState).pending origin =
      e.pending origin ++ if origin = .copy then [ev] else [] := by
  cases origin <;> simp [EngineState.pending, EngineState.inHand, EngineState.groupRows,
    EngineState.channel]

theorem pending_feed {e : EngineState} (origin : Origin) :
    ({ e with events := e.events ++ [ev] } : EngineState).pending origin =
      e.pending origin ++ if origin = .stream then [ev] else [] := by
  cases origin <;> simp [EngineState.pending, EngineState.inHand, EngineState.groupRows,
    EngineState.channel]

/-- A loader sends an event; if it is a row, the loader had read it. -/
theorem WindowInv.feedCopy (h : engine.WindowInv s) (hopen : s.engine.copyOpen = true)
    (hev : ∀ table version, ev ≠ .tableTruncated table version)
    (hrow : ∀ row, ev = .row row → row ∈ s.loaders.flatMap Loader.unsent)
    (hloaders : loaders.flatMap Loader.unsent ⊆ s.loaders.flatMap Loader.unsent) :
    engine.WindowInv { s with
      engine := { s.engine with copy := s.engine.copy ++ [ev] }, loaders := loaders } := by
  refine h.weaken h.bounded le_rfl h.clear ?_ ?_ ?_ rfl fun _ _ _ _ _ _ hknown => hknown
  · rw [pending_feedCopy, if_neg Origin.noConfusion, List.append_nil]
  · intro other hother
    rw [pending_feedCopy] at hother
    obtain hold | hnew := List.mem_append.mp hother
    · exact h.loads other hold
    · rw [List.mem_singleton.mp hnew]
      exact hev
  · intro row hmem
    rw [mem_onTheWay] at hmem ⊢
    rw [pending_feedCopy] at hmem
    obtain hqueued | ⟨-, hunsent⟩ := hmem
    · refine (List.mem_append.mp hqueued).imp_right fun hnew => ⟨hopen, ?_⟩
      exact hrow row (List.mem_singleton.mp hnew).symm
    · exact .inr ⟨hopen, hloaders hunsent⟩

/-- Rows that are read now are not below anything that was removed. -/
theorem WindowInv.read (h : engine.WindowInv s) {unsent : List RowChange}
    {rows : List (TableName × Json × Json)} (hi : s.loaders[i]? = some ⟨unsent, .none⟩) :
    engine.WindowInv { s with
      loaders := s.loaders.set i ⟨unsent ++ rows.map (copiedRow s.position), .none⟩ } := by
  have hway : ∀ row ∈ onTheWay { s with
      loaders := s.loaders.set i ⟨unsent ++ rows.map (copiedRow s.position), .none⟩ },
      row ∈ onTheWay s ∨ ∃ source, row = copiedRow s.position source := by
    intro row hrow
    simp only [mem_onTheWay] at hrow ⊢
    obtain hqueued | ⟨hopen, hmem⟩ := hrow
    · exact .inl (.inl hqueued)
    · obtain hnext | hold := mem_unsent_set hmem
      · obtain hbefore | hnew := List.mem_append.mp hnext
        · exact .inl (.inr ⟨hopen, mem_unsent_of_getElem? hi hbefore⟩)
        · obtain ⟨source, -, rfl⟩ := List.mem_map.mp hnew
          exact .inr ⟨source, rfl⟩
      · exact .inl (.inr ⟨hopen, hold⟩)
  exact
    { h with
      copies := fun row hrow => (hway row hrow).elim (h.copies row)
        fun ⟨source, hsource⟩ => ⟨_, source, hsource⟩
      protects := fun row hrow v hv doc hdoc e he hremoves => by
        obtain hold | ⟨source, rfl⟩ := hway row hrow
        · exact h.protects row hold v hv doc hdoc e he hremoves
        · obtain rfl := Option.some.inj hv
          have hlt := (h.removed e he _ _ _ hremoves).1
          exact absurd h.bounded (not_le.mpr hlt) }

/-- What the stream sends is not below anything it has sent. -/
theorem WindowInv.feed (h : engine.WindowInv s)
    (hev : ev.version.all (fun v => s.streamed ≤ v && v ≤ s.position) = true) :
    engine.WindowInv { s with
      engine := { s.engine with events := s.engine.events ++ [ev] }
      streamed := ev.version.getD s.streamed } := by
  have hversion : ∀ v, ev.version = some v → s.streamed ≤ v ∧ v ≤ s.position := by
    intro v hv
    rw [hv] at hev
    simpa using hev
  have hstreamed : s.streamed ≤ ev.version.getD s.streamed := by
    cases hv : ev.version with
    | none => exact le_rfl
    | some v => exact (hversion v hv).1
  have hpending : ∀ w ∈ (({ s.engine with events := s.engine.events ++ [ev] } :
      EngineState).pending .stream).filterMap ChangeEvent.version,
      w ∈ (s.engine.pending .stream).filterMap ChangeEvent.version ∨ ev.version = some w := by
    intro w hw
    rw [pending_feed, List.filterMap_append] at hw
    refine (List.mem_append.mp hw).imp_right fun hnew => ?_
    obtain ⟨other, hother, hversion⟩ := List.mem_filterMap.mp hnew
    rw [← List.mem_singleton.mp hother]
    exact hversion
  exact
    { bounded := by
        cases hv : ev.version with
        | none => exact h.bounded
        | some v => exact (hversion v hv).2
      clear := h.clear
      sorted := by
        rw [pending_feed, List.filterMap_append]
        refine List.pairwise_append.mpr ⟨h.sorted, ?_, ?_⟩
        · cases hv : ev.version <;> simp [hv]
        · intro a ha b hb
          obtain ⟨other, hother, hb⟩ := List.mem_filterMap.mp hb
          rw [List.mem_singleton.mp hother] at hb
          exact (h.sent a ha).trans (hversion b hb).1
      sent := fun w hw => by
        obtain hold | hnew := hpending w hw
        · exact (h.sent w hold).trans hstreamed
        · exact le_of_eq (by rw [hnew]; rfl)
      removed := fun e he index id v hremoves => by
        obtain ⟨hlt, hall⟩ := h.removed e he index id v hremoves
        refine ⟨hlt.trans_le hstreamed, fun w hw => ?_⟩
        obtain hold | hnew := hpending w hw
        · exact hall w hold
        · exact hlt.trans_le (hversion w hnew).1
      loads := by
        rw [pending_feed]
        simpa using h.loads
      copies := fun row hrow => h.copies row (by
        rw [mem_onTheWay] at hrow ⊢
        simpa [pending_feed] using hrow)
      protects := fun row hrow => h.protects row (by
        rw [mem_onTheWay] at hrow ⊢
        simpa [pending_feed] using hrow)
      safe := h.safe }

/-! ## The engine takes an event -/

/-- An event is taken that brings no row and puts nothing out. -/
theorem WindowInv.taken (h : engine.WindowInv s) {e : EngineState}
    (hhead : s.engine.pending origin = ev :: e.pending origin)
    (hother : ∀ other, other ≠ origin → e.pending other = s.engine.pending other)
    (hclear : ∀ settings rows, e.phase = .gathering settings rows → e.deferred = none)
    (hlog : e.log = s.engine.log) (hopen : e.copyOpen = s.engine.copyOpen)
    (hremembers : ∀ row ∈ onTheWay s, ∀ v, row.version = some v → ∀ doc ∈ engine.writesOf row,
      s.engine.remembers doc.1 doc.2 v = true → e.remembers doc.1 doc.2 v = true) :
    engine.WindowInv { s with engine := e } ∧ onTheWay { s with engine := e } ⊆ onTheWay s := by
  have hsub : ∀ o, (e.pending o).Sublist (s.engine.pending o) := fun o => by
    by_cases ho : o = origin
    · rw [ho, hhead]
      exact List.sublist_cons_self _ _
    · rw [hother o ho]
  have hway : onTheWay { s with engine := e } ⊆ onTheWay s := by
    intro row hrow
    rw [mem_onTheWay] at hrow ⊢
    exact hrow.imp (fun hqueued => (hsub .copy).subset hqueued)
      fun ⟨hstill, hmem⟩ => ⟨hopen ▸ hstill, hmem⟩
  refine ⟨h.weaken h.bounded le_rfl hclear (hsub .stream) ?_ hway hlog ?_, hway⟩
  · exact fun other hmem => h.loads other ((hsub .copy).subset hmem)
  · exact fun row hrow => hremembers row (hway hrow)

/-- Something is put out that is not above what is still to come, and that is
remembered where it has to be. -/
theorem WindowInv.put (h : engine.WindowInv s) {e : EngineState} (news : List Emitted)
    (hpending : ∀ origin, e.pending origin = s.engine.pending origin)
    (hclear : ∀ settings rows, e.phase = .gathering settings rows → e.deferred = none)
    (hopen : e.copyOpen = s.engine.copyOpen) (hlog : e.log = s.engine.log ++ news)
    (hknown : ∀ index id v, s.engine.remembers index id v = true → e.remembers index id v = true)
    (hremoved : ∀ new ∈ news, ∀ index id v, new.removes index id v = true → v < s.streamed ∧
      ∀ w ∈ (s.engine.pending .stream).filterMap ChangeEvent.version, v < w)
    (hprotects : ∀ row ∈ onTheWay s, ∀ v, row.version = some v → ∀ doc ∈ engine.writesOf row,
      ∀ new ∈ news, new.removes doc.1 doc.2 v = true → e.remembers doc.1 doc.2 v = true)
    (hrespects : ∀ new ∈ news, ∀ old ∈ s.engine.log, new.respects old)
    (hsafe : news.Pairwise fun earlier later => later.respects earlier) :
    engine.WindowInv { s with engine := e } := by
  have hway : onTheWay { s with engine := e } ⊆ onTheWay s := by
    intro row hrow
    rw [mem_onTheWay] at hrow ⊢
    rwa [hpending, hopen] at hrow
  exact
    { bounded := h.bounded
      clear := hclear
      sorted := by
        rw [hpending]
        exact h.sorted
      sent := by
        rw [hpending]
        exact h.sent
      removed := by
        rw [hlog, hpending]
        exact fun e he => (List.mem_append.mp he).elim (h.removed e) (hremoved e)
      loads := by
        rw [hpending]
        exact h.loads
      copies := fun row hrow => h.copies row (hway hrow)
      protects := fun row hrow v hv doc hdoc e he hremoves => by
        obtain hold | hnew := List.mem_append.mp (hlog ▸ he)
        · exact hknown _ _ _ (h.protects row (hway hrow) v hv doc hdoc e hold hremoves)
        · exact hprotects row (hway hrow) v hv doc hdoc e hnew hremoves
      safe := by
        rw [hlog]
        exact List.pairwise_append.mpr
          ⟨h.safe, hsafe, fun old hold new hnew => hrespects new hnew old hold⟩ }

theorem sameWindow_handOverRest (e : EngineState) : e.SameWindow e.handOverRest := by
  unfold EngineState.handOverRest
  split
  · exact ⟨fun _ => rfl, rfl, rfl, rfl, rfl⟩
  · exact ⟨fun _ => rfl, rfl, rfl, rfl, rfl⟩

theorem phase_handOverRest (e : EngineState) :
    e.handOverRest.phase = e.phase ∧ e.handOverRest.deferred = e.deferred ∧
      e.handOverRest.loadRunning = e.loadRunning := by
  unfold EngineState.handOverRest
  split <;> exact ⟨rfl, rfl, rfl⟩

/-- What a truncate does to the state, if it is applied. -/
theorem raiseFloors_eq (e : EngineState) (pattern : String) (version : Option ℕ)
    (confined : Bool) : ∃ cleared, e.raiseFloors pattern version confined =
      { e with cleared := cleared } ∧
      (cleared = e.cleared ∨ ∃ w, cleared = raiseCleared pattern w e.cleared) := by
  unfold EngineState.raiseFloors
  split
  · next w hload => exact ⟨_, rfl, .inr ⟨w, rfl⟩⟩
  · exact ⟨_, rfl, .inl rfl⟩

theorem remembers_raiseFloors {e : EngineState} {confined : Bool} {index id : String}
    (h : e.remembers index id v = true) :
    (e.raiseFloors pattern version confined).remembers index id v = true := by
  obtain ⟨cleared, heq, hcleared⟩ := raiseFloors_eq e pattern version confined
  rw [heq]
  simp only [EngineState.remembers, Bool.or_eq_true] at h ⊢
  refine h.imp_right fun hany => ?_
  obtain rfl | ⟨w, rfl⟩ := hcleared
  · exact hany
  · exact raiseCleared_of_known hany

theorem remembers_raiseFloors_self {e : EngineState} {pattern index id : String} {v w : ℕ}
    (hload : e.loadRunning = true) (hlt : v < w)
    (hmatch : indexMatchesPattern pattern index = true) :
    (e.raiseFloors pattern (some w) false).remembers index id v = true := by
  simp only [EngineState.raiseFloors, hload, EngineState.remembers, Bool.or_eq_true]
  exact .inr (raiseCleared_self hlt hmatch)

/-- What a truncate puts out is as good as any other removal. -/
theorem WindowInv.truncate (h : engine.WindowInv s) (hidle : s.engine.phase = .idle)
    {table : TableName} (hversion : ∀ w, version = some w → w ≤ s.streamed ∧
      ∀ w' ∈ (s.engine.pending .stream).filterMap ChangeEvent.version, w ≤ w')
    (hholds : ∀ pattern only, engine.truncateScope table = some (pattern, only) →
      s.engine.loadRunning = true ∨ ∀ row ∈ onTheWay s, ∀ v, row.version = some v →
        ∀ doc ∈ engine.writesOf row,
          (Emitted.truncated pattern version only.isSome).removes doc.1 doc.2 v = false) :
    engine.WindowInv { s with engine := engine.truncate table version s.engine } := by
  unfold Engine.truncate
  split
  · exact h
  · next pattern only hscope =>
    obtain ⟨hphase, -, hload⟩ := phase_handOverRest s.engine
    have hrest := sameWindow_handOverRest s.engine
    obtain ⟨cleared, heq, -⟩ := raiseFloors_eq s.engine.handOverRest pattern version only.isSome
    refine h.put [.truncated pattern version only.isSome] (fun origin => ?_) ?_ ?_ ?_
      (fun index id v hknown => ?_) ?_ ?_ ?_ (List.pairwise_singleton _ _)
    · rw [heq]
      exact hrest.pending origin
    · rw [heq]
      intro settings rows hgather
      exact absurd (hidle.symm.trans (hphase.symm.trans hgather)) EnginePhase.noConfusion
    · rw [heq]
      exact hrest.copyOpen
    · rw [heq]
      exact congrArg (· ++ _) hrest.log
    · exact remembers_raiseFloors (by rwa [hrest.remembers])
    · intro new hnew index id v hremoves
      obtain rfl := List.mem_singleton.mp hnew
      obtain ⟨w, hw, -, hlt, -⟩ := removes_truncated.mp hremoves
      obtain ⟨hle, hall⟩ := hversion w hw
      exact ⟨hlt.trans_le hle, fun w' hw' => hlt.trans_le (hall w' hw')⟩
    · intro row hrow v hv doc hdoc new hnew hremoves
      obtain rfl := List.mem_singleton.mp hnew
      obtain ⟨w, hw, honly, hlt, hmatch⟩ := removes_truncated.mp hremoves
      obtain hrunning | hfree := hholds pattern only hscope
      · change (EngineState.raiseFloors pattern version only.isSome _).remembers _ _ _ = true
        rw [hw, honly]
        exact remembers_raiseFloors_self (hload.trans hrunning) hlt hmatch
      · rw [hfree row hrow v hv doc hdoc] at hremoves
        cases hremoves
    · intro new hnew _ _
      obtain rfl := List.mem_singleton.mp hnew
      trivial

/-- A turn of the loop. -/
theorem WindowInv.turn (h : engine.WindowInv s) {held heldAgain overdue : Bool}
    (hidle : s.engine.phase = .idle) {e : EngineState}
    (htake : s.engine.takeEvent held = some (next, e))
    (hholds : engine.windowHolds s (.engine (.turn settings held heldAgain overdue)) = true) :
    engine.WindowInv { s with engine := engine.handle settings heldAgain overdue e next } := by
  obtain ⟨origin, ev⟩ := next
  obtain ⟨hphase, hdeferred, hhead, hother, hlog, hsuperseded, hcleared, hopen, hload⟩ :=
    EngineState.pending_of_takeEvent hidle htake
  have hremembers : e.remembers = s.engine.remembers := by
    funext index id v
    simp only [EngineState.remembers, hsuperseded, hcleared]
  have hclear : ∀ settings rows, e.phase = .gathering settings rows → e.deferred = none :=
    fun _ _ _ => hdeferred
  -- whatever the event is, taking it puts nothing out
  obtain ⟨htaken, hway⟩ := h.taken hhead hother hclear hlog hopen
    fun _ _ _ _ _ _ hknown => hremembers ▸ hknown
  simp only [windowHolds, htake] at hholds
  cases ev with
  | begin lsn => exact htaken.same ⟨fun _ => rfl, rfl, rfl, rfl, rfl⟩ hclear
  | commit lsn =>
    rw [handle]
    refine htaken.same (.commit lsn heldAgain overdue hdeferred) fun settings rows hgather => ?_
    rw [EngineState.phase_commit, hphase] at hgather
    cases hgather
  | row change =>
    rw [handle]
    refine h.same ⟨fun o => ?_, hlog, hsuperseded, hcleared, hopen⟩ fun _ _ _ => hdeferred
    by_cases ho : o = origin
    · subst ho
      rw [hhead]
      simp [EngineState.pending, EngineState.inHand, EngineState.groupRows, hdeferred, hphase]
      rfl
    · rw [← hother o ho]
      simp [EngineState.pending, EngineState.inHand, EngineState.groupRows, hdeferred, hphase,
        Ne.symm ho]
      rfl
  | loadMark mark =>
    obtain ⟨hpending, hlog', hopen', hphase', hdeferred'⟩ := EngineState.mark_frame mark e
    refine (h.taken (hhead.trans (by rw [hpending])) (fun o ho => (hpending o).trans (hother o ho))
      (fun _ _ _ => hdeferred'.trans hdeferred) (hlog'.trans hlog) (hopen'.trans hopen) ?_).1
    intro row hrow v hv doc hdoc hknown
    rw [not_threatened (Bool.not_eq_true' _ |>.mp hholds) hrow hv hdoc] at hknown
    cases hknown
  | loadStarted | schemaDrift => exact htaken
  | loadFinished =>
    have hpending : ∀ o, e.wipe.pending o = e.pending o := fun _ => rfl
    refine (h.taken (hhead.trans (by rw [hpending])) (fun o ho => (hpending o).trans (hother o ho))
      hclear hlog hopen ?_).1
    intro row hrow v hv doc hdoc hknown
    rw [not_threatened (Bool.not_eq_true' _ |>.mp hholds) hrow hv hdoc] at hknown
    cases hknown
  | tableTruncated table version =>
    -- only the stream truncates
    obtain rfl : origin = .stream := by
      cases origin with
      | stream => rfl
      | copy => exact absurd rfl (h.loads _ (hhead ▸ List.mem_cons_self) table version)
    refine htaken.truncate hphase (fun w hw => ?_) fun pattern only hscope => ?_
    · have hsorted := h.sorted
      have hsent := h.sent
      have hcarried : (ChangeEvent.tableTruncated table version).version = some w := hw
      rw [hhead, List.filterMap_cons_some hcarried] at hsorted hsent
      exact ⟨hsent w List.mem_cons_self, (List.pairwise_cons.mp hsorted).1⟩
    · simp only [hscope, Bool.or_eq_true, Bool.not_eq_true'] at hholds
      refine hholds.imp (fun hrunning => ?_) fun hfree row hrow v hv doc hdoc =>
        not_threatened hfree (hway hrow) hv hdoc
      exact (hload.elim id id).trans hrunning

/-! ## A row is written -/

theorem bufferOps_frame (settings : EngineSettings) (origin : Origin) (ops : List DocumentOp)
    (e : EngineState) (phase : EnginePhase) :
    (∀ o, ({ bufferOps settings origin ops e with phase := phase } : EngineState).pending o =
      ({ e with phase := phase } : EngineState).pending o) ∧
    (bufferOps settings origin ops e).log = e.log ++ ops.map (.op origin) ∧
    (bufferOps settings origin ops e).superseded =
      (if e.loadRunning then remember ops e.superseded else e.superseded) ∧
    (bufferOps settings origin ops e).cleared = e.cleared ∧
    (bufferOps settings origin ops e).copyOpen = e.copyOpen := by
  unfold bufferOps
  dsimp only
  split
  · exact ⟨fun _ => rfl, rfl, rfl, rfl, rfl⟩
  · exact ⟨fun _ => rfl, rfl, rfl, rfl, rfl⟩

theorem pending_writing {e : EngineState} {completions : Completions}
    {rest : List (Origin × RowChange)}
    (hphase : e.phase = .writing settings completions ((origin, row) :: rest)) :
    e.pending origin = .row row ::
      ({ e with phase := .writing settings completions rest } : EngineState).pending origin ∧
    ∀ other, other ≠ origin →
      ({ e with phase := .writing settings completions rest } : EngineState).pending other =
        e.pending other := by
  constructor
  · simp [EngineState.pending, EngineState.inHand, EngineState.groupRows, hphase]
    rfl
  · intro other hne
    simp [EngineState.pending, EngineState.inHand, EngineState.groupRows, hphase, Ne.symm hne]
    rfl

/-- What a copied row writes does not depend on what is stored. -/
theorem mem_writesOf {target : IndexTarget} {version : ℕ} {source : TableName × Json × Json}
    (hrow : row = copiedRow version source)
    (htarget : engine.mapping.targetFor row.table = some target) {previous : Option Json}
    {ops : List DocumentOp} {left : List String}
    (hops : materialize target row.table row.kind engine.rules previous row.version =
      .ok (ops, left)) {index id : String} {routing : Option String} {doc : Json} {v : Option ℕ}
    {pipeline : Option String} (hop : .upsert index id routing doc v pipeline ∈ ops) :
    (index, id) ∈ engine.writesOf row := by
  -- only an update is completed
  have hnone : materialize target row.table row.kind engine.rules none row.version =
      .ok (ops, left) := by
    subst hrow
    exact hops
  unfold writesOf
  simp only [htarget, hnone]
  exact List.mem_map.mpr ⟨_, List.mem_filter.mpr ⟨hop, rfl⟩, rfl⟩

/-- The next row of the group is materialised. -/
theorem WindowInv.write (h : engine.WindowInv s) {completions : Completions}
    {rest : List (Origin × RowChange)} {e : EngineState}
    (hphase : s.engine.phase = .writing settings completions ((origin, row) :: rest))
    (hwrite : engine.writeRow settings completions origin row s.engine = .ok e)
    (hholds : engine.windowHolds s (.engine .write) = true) :
    engine.WindowInv { s with
      engine := { e with phase := .writing settings completions rest } } := by
  obtain ⟨hhead, hother⟩ := pending_writing hphase
  obtain ⟨htaken, hway⟩ := h.taken (e := { s.engine with phase := .writing settings completions rest })
    hhead hother (fun _ _ hgather => by cases hgather) rfl rfl fun _ _ _ _ _ _ hknown => hknown
  obtain ⟨-, rfl⟩ | ⟨target, ops, left, htarget, hops, rfl⟩ := writeRow_ok hwrite
  · exact htaken
  · obtain ⟨hpending, hlog, hsuperseded, hcleared, hopen⟩ :=
      bufferOps_frame settings origin (ops.filter fun op => !s.engine.dead op) s.engine
        (.writing settings completions rest)
    have hversion : ∀ op ∈ ops, op.version = row.version := fun op => materialize_version hops
    -- the versions of the stream that are still to come are not below the row's
    have hlast : origin = .stream → ∀ w, row.version = some w → w ≤ s.streamed ∧
        ∀ w' ∈ (({ s.engine with phase := .writing settings completions rest } :
          EngineState).pending .stream).filterMap ChangeEvent.version, w ≤ w' := by
      rintro rfl w hw
      have hsorted := h.sorted
      have hsent := h.sent
      have hcarried : (ChangeEvent.row row).version = some w := hw
      rw [hhead, List.filterMap_cons_some hcarried] at hsorted hsent
      exact ⟨hsent w List.mem_cons_self, (List.pairwise_cons.mp hsorted).1⟩
    refine htaken.put ((ops.filter fun op => !s.engine.dead op).map (.op origin)) hpending
      (fun _ _ hgather => by cases hgather) hopen hlog (fun index id v hknown => ?_) ?_ ?_ ?_ ?_
    · -- what is remembered stays remembered
      simp only [EngineState.remembers, hsuperseded, hcleared, Bool.or_eq_true] at hknown ⊢
      refine hknown.imp_left fun hfloor => ?_
      split
      · exact remember_of_known hfloor
      · exact hfloor
    · rintro new hnew index id v hremoves
      obtain ⟨op, hop, rfl⟩ := List.mem_map.mp hnew
      obtain ⟨horigin, routing, w, rfl, hlt⟩ := removes_op hremoves
      obtain ⟨hle, hall⟩ := hlast horigin w (hversion _ (List.mem_of_mem_filter hop)).symm
      exact ⟨hlt.trans_le hle, fun w' hw' => hlt.trans_le (hall w' hw')⟩
    · -- a removal is remembered while a load runs; otherwise nothing on its way needs it
      rintro other hon v hv doc hdoc new hnew hremoves
      obtain ⟨op, hop, rfl⟩ := List.mem_map.mp hnew
      obtain ⟨rfl, routing, w, rfl, hlt⟩ := removes_op hremoves
      simp only [windowHolds, hphase, Bool.or_eq_true, List.all_eq_true, Bool.not_eq_true']
        at hholds
      obtain hrunning | hfree := hholds
      · simp only [EngineState.remembers, hsuperseded, hrunning, if_true, Bool.or_eq_true]
        exact .inl (remember_of_mem hop hlt)
      · have hlisted : Emitted.op .stream (.delete doc.1 doc.2 routing (some w)) ∈
            engine.removalsOf completions row := by
          simp only [removalsOf, htarget, hops]
          exact List.mem_map.mpr ⟨_, List.mem_of_mem_filter hop, rfl⟩
        rw [not_threatened (hfree _ hlisted) (hway hon) hv hdoc] at hremoves
        cases hremoves
    · rintro new hnew old hold
      obtain ⟨op, hop, rfl⟩ := List.mem_map.mp hnew
      obtain ⟨hmem, halive⟩ := List.mem_filter.mp hop
      refine respects_of_upsert fun index id routing doc v pipeline hop => ?_
      subst hop
      have hv : row.version = some v := (hversion _ hmem).symm
      rw [← Bool.not_eq_true]
      intro hremoves
      cases origin with
      | stream =>
        -- the stream does not go back
        have hcarried : (ChangeEvent.row row).version = some v := hv
        have hlt := (h.removed old hold index id v hremoves).2 v
          (by rw [hhead, List.filterMap_cons_some hcarried]; exact List.mem_cons_self)
        exact lt_irrefl v hlt
      | copy =>
        -- the row was on its way, so the removal is remembered and the write is dead
        have hon : row ∈ onTheWay s := mem_onTheWay.mpr (.inl (hhead ▸ List.mem_cons_self))
        obtain ⟨version, source, hrow⟩ := h.copies row hon
        have hknown := h.protects row hon v hv (index, id)
          (mem_writesOf hrow htarget hops hmem) old hold hremoves
        simp [EngineState.dead, hknown] at halive
    · -- a row removes nothing above what it writes
      refine List.pairwise_of_forall_mem_list fun earlier hearlier later hlater => ?_
      obtain ⟨op, hop, rfl⟩ := List.mem_map.mp hlater
      obtain ⟨op', hop', rfl⟩ := List.mem_map.mp hearlier
      refine respects_of_upsert fun index id routing doc v pipeline heq => ?_
      subst heq
      have hv : row.version = some v := (hversion _ (List.mem_of_mem_filter hop)).symm
      rw [← Bool.not_eq_true]
      intro hremoves
      obtain ⟨-, _, w, rfl, hlt⟩ := removes_op hremoves
      have hw : some w = row.version := hversion _ (List.mem_of_mem_filter hop')
      rw [hv] at hw
      exact absurd (Option.some.inj hw) (ne_of_gt hlt)

/-! ## The other steps of the engine -/

/-- The loop ends, with whatever it had in its hands. -/
theorem WindowInv.ended (h : engine.WindowInv s) (result : Except CoreError Unit) :
    engine.WindowInv { s with engine := { s.engine with phase := .ended result } } := by
  have hsub : ∀ origin, (({ s.engine with phase := .ended result } :
      EngineState).pending origin).Sublist (s.engine.pending origin) := fun origin => by
    refine List.Sublist.append ?_ (List.Sublist.refl _)
    refine ((List.Sublist.append ?_ (List.Sublist.refl _)).filter _).map _
    exact (List.nil_sublist _).map _
  refine h.weaken h.bounded le_rfl (fun _ _ hgather => by cases hgather) (hsub .stream)
    (fun ev hev => h.loads ev ((hsub .copy).subset hev)) ?_ rfl fun _ _ _ _ _ _ hknown => hknown
  intro row hrow
  rw [mem_onTheWay] at hrow ⊢
  exact hrow.imp_left fun hqueued => (hsub .copy).subset hqueued

/-- The load's channel closes: nothing is on its way any more. -/
theorem WindowInv.closeCopy (h : engine.WindowInv s) (hidle : s.engine.phase = .idle)
    (hdeferred : s.engine.deferred = none) (hcopy : s.engine.copy = []) :
    engine.WindowInv { s with engine := { s.engine.wipe with
      copyOpen := false, phase := if s.engine.eventsOpen then .idle else .ended (.ok ()) } } := by
  have hpending : ∀ origin, ({ s.engine.wipe with
      copyOpen := false, phase := if s.engine.eventsOpen then .idle else .ended (.ok ()) } :
      EngineState).pending origin = s.engine.pending origin :=
    EngineState.pending_closed hidle _ _
  have hnone : ∀ row, row ∉ onTheWay { s with engine := { s.engine.wipe with
      copyOpen := false, phase := if s.engine.eventsOpen then .idle else .ended (.ok ()) } } := by
    intro row hrow
    rw [mem_onTheWay, hpending] at hrow
    obtain hqueued | ⟨hopen, -⟩ := hrow
    · simp [EngineState.pending, EngineState.inHand, EngineState.groupRows, EngineState.channel,
        hidle, hdeferred, hcopy] at hqueued
    · cases hopen
  refine h.weaken h.bounded le_rfl (fun _ _ _ => hdeferred) ?_ ?_
    (fun row hrow => absurd hrow (hnone row)) rfl fun row hrow => absurd hrow (hnone row)
  · rw [hpending]
  · rw [hpending]
    exact h.loads

/-- **One step of the engine keeps the invariant.** -/
theorem WindowInv.engine_step (h : engine.WindowInv s) {action : EngineAction} {e : EngineState}
    (hfeed : ∀ event, action ≠ .feed event ∧ action ≠ .feedCopy event)
    (hholds : engine.windowHolds s (.engine action) = true)
    (hstep : engine.step s.engine action = some e) : engine.WindowInv { s with engine := e } := by
  cases does hstep with
  | fed => exact absurd rfl (hfeed _).1
  | fedCopy => exact absurd rfl (hfeed _).2
  | turned hidle htake => exact h.turn hidle htake hholds
  | gathered | putAside | grouped =>
    obtain ⟨hsame, hclear⟩ := EngineState.SameWindow.of_gather h.clear hstep
    exact h.same hsame hclear
  | fetched hphase | written hphase =>
    exact h.same (.regroup (by simp [EngineState.groupRows, hphase]))
      fun _ _ hgather => by cases hgather
  | wrote hphase hwrite => exact h.write hphase hwrite hholds
  | closedEvents hidle hdeferred =>
    exact h.same ⟨EngineState.pending_closed hidle _ _, rfl, rfl, rfl, rfl⟩ fun _ _ _ => hdeferred
  | closedCopy hidle hdeferred _ hcopy => exact h.closeCopy hidle hdeferred hcopy
  | unread | unwritten | stopped | cutOff => exact h.ended _

/-! ## Runs -/

theorem WindowInv.start (h : (windowSystem engine).initial s) : engine.WindowInv s := by
  obtain ⟨hengine, hloaders, hbounded⟩ := h
  have hpending : ∀ origin, s.engine.pending origin = [] := fun origin => by
    rw [hengine]
    cases origin <;> rfl
  have hlog : s.engine.log = [] := by rw [hengine]; rfl
  have hnone : ∀ row, row ∉ onTheWay s := by
    intro row hrow
    rw [mem_onTheWay, hpending] at hrow
    obtain hqueued | ⟨-, hunsent⟩ := hrow
    · cases hqueued
    · obtain ⟨loader, hloader, hrow⟩ := List.mem_flatMap.mp hunsent
      rw [hloaders loader hloader] at hrow
      cases hrow
  exact
    { bounded := hbounded
      clear := fun _ _ hgather => by rw [hengine] at hgather; cases hgather
      sorted := by simp [hpending]
      sent := by simp [hpending]
      removed := by simp [hlog]
      loads := by simp [hpending]
      copies := fun row hrow => absurd hrow (hnone row)
      protects := fun row hrow => absurd hrow (hnone row)
      safe := by
        rw [hlog]
        exact List.Pairwise.nil }

/-- A loader's event goes down the load's channel. -/
theorem step_feedCopy {e e' : EngineState} (h : engine.step e (.feedCopy ev) = some e') :
    e.copyOpen = true ∧ e' = { e with copy := e.copy ++ [ev] } := by
  cases does h with
  | fedCopy hopen => exact ⟨hopen, rfl⟩

theorem unsent_set_subset {loader next : Loader} (hi : loaders[i]? = some loader)
    (hunsent : next.unsent ⊆ loader.unsent) :
    (loaders.set i next).flatMap Loader.unsent ⊆ loaders.flatMap Loader.unsent := fun _ hrow =>
  (mem_unsent_set hrow).elim (fun hnext => mem_unsent_of_getElem? hi (hunsent hnext)) id

/-- **One step keeps the invariant.** -/
theorem WindowInv.step (h : engine.WindowInv s) {action : WindowAction}
    (hholds : engine.windowHolds s action = true) (hstep : engine.windowStep s action = some s') :
    engine.WindowInv s' := by
  cases action with
  | advance position =>
    simp only [windowStep] at hstep
    split at hstep
    · next hle =>
      cases hstep
      exact h.weaken (h.bounded.trans hle) le_rfl h.clear (List.Sublist.refl _) h.loads
        (fun _ hrow => hrow) rfl fun _ _ _ _ _ _ hknown => hknown
    · cases hstep
  | stream event =>
    simp only [windowStep] at hstep
    split at hstep
    · next hev =>
      obtain ⟨e, hfeed, rfl⟩ := Option.map_eq_some_iff.mp hstep
      cases does hfeed with
      | fed => exact h.feed (Bool.and_eq_true_iff.mp hev).2
    · cases hstep
  | read i rows =>
    simp only [windowStep] at hstep
    split at hstep
    · next unsent hi =>
      cases hstep
      exact h.read hi
    · cases hstep
  | send i place =>
    simp only [windowStep] at hstep
    split at hstep
    · next unsent hi =>
      obtain ⟨row, hrow, hsend⟩ := Option.bind_eq_some_iff.mp hstep
      obtain ⟨e, hfeed, rfl⟩ := Option.map_eq_some_iff.mp hsend
      obtain ⟨hopen, rfl⟩ := step_feedCopy hfeed
      refine h.feedCopy hopen (fun _ _ hev => by cases hev) ?_
        (unsent_set_subset hi (List.eraseIdx_subset))
      rintro other ⟨⟩
      exact mem_unsent_of_getElem? hi (List.mem_of_getElem? hrow)
    · cases hstep
  | boundary i =>
    simp only [windowStep] at hstep
    split at hstep
    · obtain ⟨e, hfeed, rfl⟩ := Option.map_eq_some_iff.mp hstep
      obtain ⟨hopen, rfl⟩ := step_feedCopy hfeed
      exact h.feedCopy hopen (fun _ _ hev => by cases hev) (fun _ hev => by cases hev)
        (List.Subset.refl _)
    · cases hstep
  | takeMark i =>
    simp only [windowStep] at hstep
    split at hstep
    · next hi =>
      cases hstep
      exact h.setLoader hi (List.Subset.refl _)
    · cases hstep
  | sendMark i =>
    simp only [windowStep] at hstep
    split at hstep
    · next unsent mark hi =>
      obtain ⟨e, hfeed, rfl⟩ := Option.map_eq_some_iff.mp hstep
      obtain ⟨hopen, rfl⟩ := step_feedCopy hfeed
      exact h.feedCopy hopen (fun _ _ hev => by cases hev) (fun _ hev => by cases hev)
        (unsent_set_subset hi (List.Subset.refl _))
    · cases hstep
  | released i =>
    simp only [windowStep] at hstep
    split at hstep
    · next unsent mark hi =>
      split at hstep
      · cases hstep
        exact h.setLoader hi (List.Subset.refl _)
      · cases hstep
    · cases hstep
  | started i | finished i =>
    simp only [windowStep] at hstep
    split at hstep
    · obtain ⟨e, hfeed, rfl⟩ := Option.map_eq_some_iff.mp hstep
      obtain ⟨hopen, rfl⟩ := step_feedCopy hfeed
      exact h.feedCopy hopen (fun _ _ hev => by cases hev) (fun _ hev => by cases hev)
        (List.Subset.refl _)
    · cases hstep
  | engine action =>
    cases action with
    | feed event | feedCopy event => cases hstep
    | sinkGone =>
      cases hstep
      exact h.ended _
    | turn | gather | fetch | write | closeEvents | closeCopy | shutdown =>
      obtain ⟨e, hengine, rfl⟩ := Option.map_eq_some_iff.mp hstep
      exact h.engine_step (fun _ => by simp) hholds
        hengine
  | sink =>
    obtain ⟨command, -, rfl⟩ := Option.map_eq_some_iff.mp hstep
    exact h.weaken h.bounded le_rfl h.clear (List.Sublist.refl _) h.loads (fun _ hrow => hrow) rfl
      fun _ _ _ _ _ _ hknown => hknown

/-- **Where no removal is forgotten too early, nothing is resurrected**, whatever the
loaders, the stream, the engine and the sink do in whatever order. -/
theorem never_resurrects (h : (windowSystem engine).ReachUnder
    (fun s action => engine.windowHolds s action = true) s) : NeverResurrects s.engine.log := by
  have hinv : engine.WindowInv s := h.invariant (fun _ hinitial => WindowInv.start hinitial)
    fun _ _ _ hinv hholds hstep => hinv.step hholds hstep
  exact hinv.safe

end Engine

/-! ## Runs that the kernel follows -/

/-- An engine for one table, whose section has no rules. -/
def plainEngine : Engine := ⟨⟨[(("public", "t"), .fixed "t")]⟩, .bare⟩

/-- Loaders that have not begun, at a position of the source. -/
def WindowState.start (loaders position : ℕ) : WindowState where
  engine := .start
  loaders := List.replicate loaders ⟨[], .none⟩
  position := position
  streamed := 0
  marks := 0
  executed := 0
  loadDone := 0

theorem WindowState.initial_start (loaders position : ℕ) :
    (Engine.windowSystem plainEngine).initial (.start loaders position) :=
  ⟨rfl, fun _ hloader => List.eq_of_mem_replicate hloader, Nat.zero_le _⟩

/-- The row with key one as a loader reads it, and its removal. -/
def copiedOne : TableName × Json × Json :=
  (("public", "t"), .int 1, .obj [("id", .int 1)])

/-- The stream removes the row with key one. -/
def removedOne (version : ℕ) : ChangeEvent :=
  .row ⟨("public", "t"), .delete (.int 1) none, some version⟩

/-- The loop takes an event. -/
def turnOnce : WindowAction := .engine (.turn ⟨100, 1000000⟩ false false false)

/-- The loop takes a row and writes it. -/
def writeOnce : List WindowAction :=
  [turnOnce, .engine (.gather false), .engine (.fetch (.ok fun _ _ _ => none)), .engine .write,
    .engine .write]

/-- One loader reads a row, the stream removes it, and the row arrives. -/
def overtakenRow : List WindowAction :=
  [.read 0 [copiedOne], .advance 7, .stream (removedOne 7)] ++ writeOnce ++ [.send 0 0] ++ writeOnce

/-- The row is dropped. -/
theorem overtakenRow_neverResurrects : ∃ s,
    (Engine.windowSystem plainEngine).runUnder plainEngine.windowHolds (.start 1 5) overtakenRow =
      some s ∧ s.engine.log = [.op .stream (.delete "t" "1" none (some 7))] ∧
      NeverResurrects s.engine.log := by
  have hrun : ((Engine.windowSystem plainEngine).runUnder plainEngine.windowHolds (.start 1 5)
      overtakenRow).map (·.engine.log) =
        some [.op .stream (.delete "t" "1" none (some 7))] := by decide +kernel
  obtain ⟨s, hs, hlog⟩ := Option.map_eq_some_iff.mp hrun
  exact ⟨s, hs, hlog, Engine.never_resurrects
    (.of_runUnder (.initial (WindowState.initial_start 1 5)) hs)⟩

/-- The same with a second loader, which has nothing to send and marks it. -/
def foreignMark : List WindowAction :=
  [.read 0 [copiedOne], .advance 7, .stream (removedOne 7)] ++ writeOnce ++
    [.takeMark 1, .sendMark 1, turnOnce, .send 0 0] ++ writeOnce

/-- The mark of a loader that never read the row makes the engine forget its removal:
the row is written at five after it was removed at seven. -/
theorem foreignMark_resurrects : ∃ s, (Engine.windowSystem plainEngine).Reachable s ∧
    ¬ NeverResurrects s.engine.log := by
  have hrun : ((Engine.windowSystem plainEngine).run (.start 2 5) foreignMark).map
      (·.engine.log) = some [.op .stream (.delete "t" "1" none (some 7)),
        .op .copy (.upsert "t" "1" none (.obj [("id", .int 1)]) (some 5) none)] := by
    decide +kernel
  obtain ⟨s, hs, hlog⟩ := Option.map_eq_some_iff.mp hrun
  refine ⟨s, Transition.System.reachable_of_run (WindowState.initial_start 2 5) hs, fun h => ?_⟩
  rw [hlog] at h
  have hlater := (List.pairwise_cons.mp h).1 _ (List.mem_singleton.mpr rfl)
  simp [Emitted.respects, Emitted.removes] at hlater

end Pg2osync
