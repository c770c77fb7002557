import Pg2osync.AckOrder

/-!
# The durable position

A source may be told that it can forget what is behind a position only once a checkpoint of
that position is stored. The sink loop publishes positions as it gets on; beside it the
checkpoint task looks at the last one from time to time and stores a checkpoint of it, and
only then is the position durable; and whenever the server of the source says how far it is,
it is answered no more than that. What is durable outlives an attempt, everything else is
new with each.
-/

namespace Pg2osync

/-- Where the checkpoint task is. -/
inductive CheckpointTask : Type where
  /-- waiting for an interval to pass, or for the writer to end -/
  | sleeping (interval : ℕ) : CheckpointTask
  /-- waiting for the target; `landed` is ghost: the target has stored the checkpoint -/
  | writing (lsn : Lsn) (landed closed : Bool) : CheckpointTask
  /-- done -/
  | ended : CheckpointTask
  deriving DecidableEq, Repr

/-- A pipeline of a source, as far as positions go. -/
structure PositionState : Type where
  /-- the sink loop of the attempt -/
  loop : LoopState
  /-- its checkpoint task -/
  task : CheckpointTask
  /-- the position of the attempt's last checkpoint -/
  lastPersisted : Option Lsn
  /-- `checkpoint_interval_ms`, as last reloaded -/
  checkpointIntervalMs : ℕ
  /-- `durable`; zero is none -/
  durable : Lsn
  /-- ghost: `durable` when the attempt began -/
  inherited : Lsn
  /-- ghost: the tokens of the checkpoints that the target has stored -/
  persisted : List Lsn
  /-- ghost: the positions of the attempt that could not be persisted -/
  refused : List Lsn
  /-- ghost: the positions that the source's server was told -/
  told : List Lsn

/-- What happens next. -/
inductive PositionAction : Type where
  /-- the sink loop takes a step -/
  | sink (action : LoopAction) : PositionAction
  /-- a reload sets another interval -/
  | reload (checkpointIntervalMs : ℕ) : PositionAction
  /-- the interval has passed -/
  | wake : PositionAction
  /-- the writer has ended, which the checkpoint task notices -/
  | notice : PositionAction
  /-- the target stores the checkpoint -/
  | land : PositionAction
  /-- the target answers -/
  | answer (ok : Bool) : PositionAction
  /-- the server says how far it is, and is answered -/
  | keepAlive (walEnd : Lsn) : PositionAction
  /-- the attempt is over, and another one begins -/
  | reconnect : PositionAction

/-- `checkpoint_interval_ms.max(100)`. -/
def checkpointInterval (ms : ℕ) : ℕ :=
  max ms 100

namespace PositionState

/-- The next turn of the checkpoint task, unless it was the last one. -/
def again (s : PositionState) (closed : Bool) : CheckpointTask :=
  if closed then .ended else .sleeping (checkpointInterval s.checkpointIntervalMs)

/-- The checkpoint task looks at what was published last. -/
def sample (s : PositionState) (closed : Bool) : PositionState :=
  match s.loop.acks.ckptDone with
  | some lsn =>
    if s.lastPersisted = some lsn then { s with task := s.again closed }
    else { s with task := .writing lsn false closed }
  | none => { s with task := s.again closed }

/-- The sink loop has ended, and with it the sender of positions. -/
def writerEnded (s : PositionState) : Bool :=
  match s.loop.phase with
  | .halted | .ended => true
  | .starting | .receiving | .draining _ | .closing => false

/-- One action, where it can be taken. -/
def step (loop : SinkLoop) (s : PositionState) : PositionAction → Option PositionState
  | .sink action => (loop.step s.loop action).map fun next => { s with loop := next }
  | .reload ms => some { s with checkpointIntervalMs := ms }
  | .wake =>
    match s.task with
    | .sleeping _ => some (s.sample false)
    | .writing _ _ _ | .ended => none
  | .notice =>
    match s.task with
    | .sleeping _ => if s.writerEnded then some (s.sample true) else none
    | .writing _ _ _ | .ended => none
  | .land =>
    match s.task with
    | .writing lsn false closed =>
      some { s with task := .writing lsn true closed, persisted := s.persisted ++ [lsn] }
    | .writing _ true _ | .sleeping _ | .ended => none
  | .answer ok =>
    match s.task with
    | .writing lsn landed closed =>
      if ok then
        if landed then
          some { s with task := s.again closed, durable := lsn, lastPersisted := some lsn }
        else none
      else some { s with task := s.again closed, refused := s.refused ++ [lsn] }
    | .sleeping _ | .ended => none
  | .keepAlive walEnd => some { s with told := s.told ++ [min walEnd s.durable] }
  | .reconnect =>
    match s.task with
    | .ended => some { s with
        loop := SinkLoop.start
        task := .sleeping (checkpointInterval s.checkpointIntervalMs)
        lastPersisted := none
        inherited := s.durable
        refused := [] }
    | .sleeping _ | .writing _ _ _ => none

/-- A pipeline that starts. -/
def start (ms : ℕ) : PositionState where
  loop := SinkLoop.start
  task := .sleeping (checkpointInterval ms)
  lastPersisted := none
  checkpointIntervalMs := ms
  durable := 0
  inherited := 0
  persisted := []
  refused := []
  told := []

/-- The pipeline as a transition system. -/
def system (loop : SinkLoop) : Transition.System PositionState PositionAction where
  initial s := ∃ ms, s = start ms
  step := step loop

/-! ## What is durable was persisted -/

/-- What the pipeline keeps. -/
structure Kept (s : PositionState) : Prop where
  /-- the sink loop keeps its own -/
  loop : Inv s.loop
  /-- and its order -/
  order : PublishedBehind s.loop
  /-- what is durable is the token of a checkpoint -/
  durable : s.durable = 0 ∨ s.durable ∈ s.persisted
  /-- what the server was told is no more than such a token -/
  told : ∀ p ∈ s.told, p = 0 ∨ ∃ t ∈ s.persisted, p ≤ t
  /-- a checkpoint that landed is persisted -/
  landed : ∀ lsn closed, s.task = .writing lsn true closed → lsn ∈ s.persisted
  /-- the attempt's last checkpoint is what is durable; before the first one, what was -/
  last : s.durable = s.lastPersisted.getD s.inherited
  /-- the last turn comes after the writer, and is about the last position -/
  closed : ∀ lsn landed, s.task = .writing lsn landed true →
    s.writerEnded = true ∧ s.loop.acks.ckptDone = some lsn
  /-- in the end the last position is persisted, or could not be -/
  ended : s.task = .ended → s.writerEnded = true ∧ ∀ p, s.loop.acks.ckptDone = some p →
    s.lastPersisted = some p ∨ p ∈ s.refused

variable {s : PositionState}

theorem writerEnded_iff : s.writerEnded = true ↔ SinkLoop.Stopped s.loop := by
  rw [writerEnded, SinkLoop.Stopped]
  cases s.loop.phase <;> simp

theorem kept_start (ms : ℕ) : Kept (start ms) where
  loop := SinkLoop.inv_start
  order := SinkLoop.publishedBehind_start
  durable := .inl rfl
  told p h := by cases h
  landed lsn closed h := by cases h
  last := rfl
  closed lsn landed h := by cases h
  ended h := by cases h

/-- A turn of the task in which it finds nothing to write, or has written. -/
theorem Kept.again (h : Kept s) {closed : Bool}
    (hclosed : closed = true → s.writerEnded = true ∧ ∀ p, s.loop.acks.ckptDone = some p →
      s.lastPersisted = some p ∨ p ∈ s.refused) : Kept { s with task := s.again closed } := by
  refine ⟨h.loop, h.order, h.durable, h.told, ?_, h.last, ?_, ?_⟩
  · intro lsn landed htask
    cases closed <;> cases htask
  · intro lsn landed htask
    cases closed <;> cases htask
  · intro htask
    cases closed with
    | false => cases htask
    | true => exact hclosed rfl

/-- The task looks. -/
theorem Kept.sample (h : Kept s) {closed : Bool} (hclosed : closed = true → s.writerEnded = true) :
    Kept (s.sample closed) := by
  rw [PositionState.sample]
  split
  · next lsn hlsn =>
    split
    · next hlast =>
      refine h.again fun hc => ⟨hclosed hc, fun p hp => .inl ?_⟩
      rw [hlast, ← hlsn, hp]
    · refine ⟨h.loop, h.order, h.durable, h.told, ?_, h.last, ?_, ?_⟩
      · intro lsn' closed' htask
        cases htask
      · intro lsn' landed htask
        cases htask
        exact ⟨hclosed rfl, hlsn⟩
      · intro htask
        cases htask
  · next hnone =>
    refine h.again fun hc => ⟨hclosed hc, fun p hp => ?_⟩
    rw [hnone] at hp
    cases hp

variable {loop : SinkLoop}

/-- **The step lemma.** -/
theorem kept_step {s s' : PositionState} {action : PositionAction} (h : Kept s)
    (hstep : step loop s action = some s') : Kept s' := by
  cases action with
  | sink action =>
    obtain ⟨next, hnext, rfl⟩ := Option.map_eq_some_iff.mp hstep
    -- once the writer has ended nothing is published
    have hframe : s.writerEnded = true →
        ({ s with loop := next } : PositionState).writerEnded = true ∧
          next.acks.ckptDone = s.loop.acks.ckptDone := by
      intro hended
      obtain ⟨hstopped, -, hckpt⟩ := (writerEnded_iff.mp hended).step hnext
      exact ⟨writerEnded_iff.mpr hstopped, hckpt⟩
    refine ⟨SinkLoop.inv_step h.loop hnext, (SinkLoop.order_step h.loop h.order hnext).2, h.durable,
      h.told, h.landed, h.last, ?_, ?_⟩
    · intro lsn landed htask
      obtain ⟨hended, hlsn⟩ := h.closed lsn landed htask
      exact ⟨(hframe hended).1, (hframe hended).2.trans hlsn⟩
    · intro htask
      obtain ⟨hended, hlast⟩ := h.ended htask
      exact ⟨(hframe hended).1, fun p hp => hlast p ((hframe hended).2 ▸ hp)⟩
  | reload ms =>
    obtain rfl := Option.some.inj hstep
    exact ⟨h.loop, h.order, h.durable, h.told, h.landed, h.last, h.closed, h.ended⟩
  | wake =>
    simp only [step] at hstep
    split at hstep
    · obtain rfl := Option.some.inj hstep
      exact h.sample fun hc => by cases hc
    · cases hstep
    · cases hstep
  | notice =>
    simp only [step] at hstep
    split at hstep
    · split at hstep
      · next hended =>
        obtain rfl := Option.some.inj hstep
        exact h.sample fun _ => hended
      · cases hstep
    · cases hstep
    · cases hstep
  | land =>
    simp only [step] at hstep
    split at hstep
    · next lsn closed htask =>
      obtain rfl := Option.some.inj hstep
      refine ⟨h.loop, h.order, ?_, ?_, ?_, h.last, ?_, ?_⟩
      · exact h.durable.imp_right (List.mem_append_left _)
      · intro p hp
        refine (h.told p hp).imp_right fun hle => ?_
        obtain ⟨t, ht, hle⟩ := hle
        exact ⟨t, List.mem_append_left _ ht, hle⟩
      · intro lsn' closed' htask'
        cases htask'
        exact List.mem_append_right _ (List.mem_singleton_self _)
      · intro lsn' landed htask'
        cases htask'
        exact h.closed lsn false htask
      · intro htask'
        cases htask'
    · cases hstep
    · cases hstep
    · cases hstep
  | answer ok =>
    simp only [step] at hstep
    split at hstep
    · next lsn landed closed htask =>
      split at hstep
      · split at hstep
        · next hlanded =>
          obtain rfl := Option.some.inj hstep
          rw [hlanded] at htask
          have hstored : Kept { s with durable := lsn, lastPersisted := some lsn } := by
            refine ⟨h.loop, h.order, .inr (h.landed lsn closed htask), h.told, h.landed, rfl,
              h.closed, ?_⟩
            intro hended
            have hended : s.task = .ended := hended
            rw [htask] at hended
            cases hended
          refine hstored.again fun hc => ?_
          rw [hc] at htask
          obtain ⟨hended, hlsn⟩ := h.closed lsn true htask
          refine ⟨hended, fun p hp => .inl ?_⟩
          rw [← hp]
          exact hlsn.symm
        · cases hstep
      · obtain rfl := Option.some.inj hstep
        have hrefused : Kept { s with refused := s.refused ++ [lsn] } := by
          refine ⟨h.loop, h.order, h.durable, h.told, h.landed, h.last, h.closed, fun hended => ?_⟩
          have hended : s.task = .ended := hended
          rw [htask] at hended
          cases hended
        refine hrefused.again fun hc => ?_
        rw [hc] at htask
        obtain ⟨hended, hlsn⟩ := h.closed lsn landed htask
        refine ⟨hended, fun p hp => .inr (List.mem_append_right _ ?_)⟩
        have hp : s.loop.acks.ckptDone = some p := hp
        rw [hlsn] at hp
        rw [Option.some.inj hp]
        exact List.mem_singleton_self _
    · cases hstep
    · cases hstep
  | keepAlive walEnd =>
    obtain rfl := Option.some.inj hstep
    refine ⟨h.loop, h.order, h.durable, ?_, h.landed, h.last, h.closed, h.ended⟩
    intro p hp
    rcases List.mem_append.mp hp with hp | hp
    · exact h.told p hp
    · rw [List.mem_singleton.mp hp]
      rcases h.durable with hzero | hmem
      · left
        rw [hzero, Nat.min_zero]
      · exact .inr ⟨s.durable, hmem, min_le_right _ _⟩
  | reconnect =>
    simp only [step] at hstep
    split at hstep
    · obtain rfl := Option.some.inj hstep
      exact ⟨SinkLoop.inv_start, SinkLoop.publishedBehind_start, h.durable, h.told,
        fun _ _ htask => (by cases htask), rfl, fun _ _ htask => (by cases htask),
        fun htask => (by cases htask)⟩
    · cases hstep
    · cases hstep

/-- **The run lemma.** -/
theorem kept_of_reachable (h : (system loop).Reachable s) : Kept s := by
  refine h.invariant ?_ fun _ _ _ hkept hstep => kept_step hkept hstep
  rintro s ⟨ms, rfl⟩
  exact kept_start ms

/-! ## What is durable does not go back -/

/-- What was persisted and what is being written is behind what was published last. -/
structure Behind (s : PositionState) : Prop where
  /-- what was persisted -/
  last : ∀ q, s.lastPersisted = some q → ∃ p, s.loop.acks.ckptDone = some p ∧ q ≤ p
  /-- what is being written, which is past what was persisted -/
  writing : ∀ lsn landed closed, s.task = .writing lsn landed closed →
    (∃ p, s.loop.acks.ckptDone = some p ∧ lsn ≤ p) ∧ ∀ q, s.lastPersisted = some q → q ≤ lsn

theorem Behind.again (h : Behind s) (closed : Bool) : Behind { s with task := s.again closed } := by
  refine ⟨h.last, fun lsn landed closed' htask => ?_⟩
  cases closed <;> cases htask

theorem Behind.sample (h : Behind s) (closed : Bool) : Behind (s.sample closed) := by
  rw [PositionState.sample]
  split
  · next lsn hlsn =>
    split
    · exact h.again closed
    · refine ⟨h.last, fun lsn' landed closed' htask => ?_⟩
      cases htask
      refine ⟨⟨lsn, hlsn, le_rfl⟩, fun q hq => ?_⟩
      obtain ⟨p, hp, hle⟩ := h.last q hq
      rw [hlsn] at hp
      exact Option.some.inj hp ▸ hle
  · exact h.again closed

theorem sample_frame (s : PositionState) (closed : Bool) :
    (s.sample closed).loop = s.loop ∧ (s.sample closed).durable = s.durable := by
  rw [PositionState.sample]
  split
  · split
    · exact ⟨rfl, rfl⟩
    · exact ⟨rfl, rfl⟩
  · exact ⟨rfl, rfl⟩

/-- A step of an attempt whose commands have positions that do not decrease. -/
theorem behind_step {s s' : PositionState} {action : PositionAction} (hkept : Kept s)
    (h : Ascending s.loop → Behind s) (hstep : step loop s action = some s')
    (hascending : Ascending s'.loop) :
    Behind s' ∧ (s.lastPersisted ≠ none → s.durable ≤ s'.durable) := by
  cases action with
  | sink action =>
    obtain ⟨next, hnext, rfl⟩ := Option.map_eq_some_iff.mp hstep
    obtain ⟨hlast, hwriting⟩ := h (SinkLoop.Ascending.of_step hnext hascending)
    have hmono : ∀ lsn, (∃ p, s.loop.acks.ckptDone = some p ∧ lsn ≤ p) →
        ∃ p, next.acks.ckptDone = some p ∧ lsn ≤ p := by
      rintro lsn ⟨p, hp, hle⟩
      obtain ⟨q, hq, hpq⟩ := SinkLoop.published_mono hkept.loop hkept.order hnext hascending hp
      exact ⟨q, hq, hle.trans hpq⟩
    refine ⟨⟨fun q hq => hmono q (hlast q hq), fun lsn landed closed htask => ?_⟩, fun _ => le_rfl⟩
    obtain ⟨hbehind, hpast⟩ := hwriting lsn landed closed htask
    exact ⟨hmono lsn hbehind, hpast⟩
  | reload ms =>
    obtain rfl := Option.some.inj hstep
    obtain ⟨hlast, hwriting⟩ := h hascending
    exact ⟨⟨hlast, hwriting⟩, fun _ => le_rfl⟩
  | wake =>
    simp only [step] at hstep
    split at hstep
    · obtain rfl := Option.some.inj hstep
      obtain ⟨hloop, hdurable⟩ := s.sample_frame false
      rw [hloop] at hascending
      exact ⟨(h hascending).sample false, fun _ => hdurable.ge⟩
    · cases hstep
    · cases hstep
  | notice =>
    simp only [step] at hstep
    split at hstep
    · split at hstep
      · obtain rfl := Option.some.inj hstep
        obtain ⟨hloop, hdurable⟩ := s.sample_frame true
        rw [hloop] at hascending
        exact ⟨(h hascending).sample true, fun _ => hdurable.ge⟩
      · cases hstep
    · cases hstep
    · cases hstep
  | land =>
    simp only [step] at hstep
    split at hstep
    · next lsn closed htask =>
      obtain rfl := Option.some.inj hstep
      obtain ⟨hlast, hwriting⟩ := h hascending
      refine ⟨⟨hlast, fun lsn' landed closed' htask' => ?_⟩, fun _ => le_rfl⟩
      cases htask'
      exact hwriting lsn false closed htask
    · cases hstep
    · cases hstep
    · cases hstep
  | answer ok =>
    simp only [step] at hstep
    split at hstep
    · next lsn landed closed htask =>
      split at hstep
      · split at hstep
        · obtain rfl := Option.some.inj hstep
          obtain ⟨hbehind, hpast⟩ := (h hascending).writing lsn landed closed htask
          refine ⟨⟨fun q hq => ?_, fun lsn' landed' closed' htask' => ?_⟩, fun hfirst => ?_⟩
          · obtain rfl := Option.some.inj hq
            exact hbehind
          · cases closed <;> cases htask'
          · obtain ⟨q, hq⟩ := Option.ne_none_iff_exists'.mp hfirst
            have hlast := hkept.last
            rw [hq] at hlast
            rw [hlast]
            exact hpast q hq
        · cases hstep
      · obtain rfl := Option.some.inj hstep
        obtain ⟨hlast, hwriting⟩ := h hascending
        refine ⟨⟨hlast, fun lsn' landed' closed' htask' => ?_⟩, fun _ => le_rfl⟩
        cases closed <;> cases htask'
    · cases hstep
    · cases hstep
  | keepAlive walEnd =>
    obtain rfl := Option.some.inj hstep
    obtain ⟨hlast, hwriting⟩ := h hascending
    exact ⟨⟨hlast, hwriting⟩, fun _ => le_rfl⟩
  | reconnect =>
    simp only [step] at hstep
    split at hstep
    · obtain rfl := Option.some.inj hstep
      refine ⟨⟨fun q hq => ?_, fun lsn landed closed htask => ?_⟩, fun _ => le_rfl⟩
      · cases hq
      · cases htask
    · cases hstep
    · cases hstep

theorem behind_start (ms : ℕ) : Behind (start ms) := by
  constructor
  · intro q h
    cases h
  · intro lsn landed closed h
    cases h

theorem behind_of_reachable (h : (system loop).Reachable s) (hascending : Ascending s.loop) :
    Behind s := by
  induction h with
  | initial hs =>
    obtain ⟨ms, rfl⟩ := hs
    exact behind_start ms
  | step hreach _ hstep ih =>
    exact (behind_step (kept_of_reachable hreach) ih hstep hascending).1

end PositionState

open PositionState

/-- A pipeline that writes one batch at a time. -/
def oneAtATime : SinkLoop :=
  ⟨.halt, 0, 1⟩

/-- A position is published. -/
def publishing (lsn : Lsn) : List PositionAction :=
  [.sink (.start (.ok 0)), .sink (.receive (.position lsn)), .sink (.execute (.ok ()))]

/-- An attempt that persists position 100, tells the server so, and ends. -/
def firstAttempt : List PositionAction :=
  publishing 100 ++ [.wake, .land, .answer true, .keepAlive 120, .sink .close, .sink .leave,
    .notice]

/-- The server replays what it was not told of, which ends at position 80. The checkpoint of
that position takes what is durable back. -/
def replayedAttempt : List PositionAction :=
  firstAttempt ++ .reconnect :: publishing 80 ++ [.wake, .land]

/-- Or it cannot be persisted, and what is durable is not behind it. -/
def refusedAttempt : List PositionAction :=
  firstAttempt ++ .reconnect :: publishing 80 ++
    [.sink .close, .sink .leave, .notice, .answer false]

/-- The positions of a loop that has taken one of them do not decrease. -/
theorem ascending_of_one {s : LoopState} {p : Lsn} (htaken : s.taken = [.position p]) :
    Ascending s := by
  have hcarries : ∀ n q, Carries s n q → q = p := by
    rintro n q (h | ⟨batch, ack, h, -⟩)
    · rw [htaken] at h
      obtain ⟨hlt, h⟩ := List.getElem?_eq_some_iff.mp h
      obtain rfl : n = 0 := Nat.lt_one_iff.mp hlt
      injection h with h
      exact h.symm
    · rw [htaken] at h
      obtain ⟨hlt, h⟩ := List.getElem?_eq_some_iff.mp h
      obtain rfl : n = 0 := Nat.lt_one_iff.mp hlt
      cases h
  intro n m q q' _ hq hq'
  rw [hcarries n q hq, hcarries m q' hq']

end Pg2osync
