import Mathlib.Data.Nat.Basic
import Pg2osync.Core
import Pg2osync.Transition

/-!
# The sink loop

The engine's commands reach the sink through one channel. A `Write` is spawned
and may be open beside others, up to `write_concurrency` of them; open writes end
in any order and are accounted for in the order they were sent. Every other
command is a barrier: the loop waits for what is open before it carries one out.

A state is the loop between two awaits, and an action is what the environment
does next: a write ends, the channel yields a command or closes, the sink answers
a quarantine or a truncate. `Acks` is the loop's bookkeeping, its `apply` the one
place that publishes a position. The fields marked ghost record the run for the
statements below; no step reads them.
-/

namespace Pg2osync

/-- What the pipeline does about a document the target refuses. -/
inductive RejectionPolicy : Type where
  /-- stop -/
  | halt : RejectionPolicy
  /-- record it and carry on -/
  | quarantine : RejectionPolicy
  deriving DecidableEq, Repr

/-- What the engine hands the loop. -/
inductive SinkCommand : Type where
  /-- write a batch -/
  | write (batch : List LsnOp) : SinkCommand
  /-- a position that carries no documents -/
  | position (lsn : Lsn) : SinkCommand
  /-- clear an index, or the documents of it whose field has a value -/
  | truncate (index : String) (version : Option ℕ) (only : Option (String × String)) : SinkCommand
  /-- tell the load that everything sent before the mark is written -/
  | loadMark (mark : ℕ) : SinkCommand
  deriving DecidableEq, Repr

/-- Whether a command is a write, the only kind that may be open beside another. -/
def SinkCommand.isWrite : SinkCommand → Bool
  | .write _ => true
  | _ => false

/-- The configuration of a loop. -/
structure SinkLoop : Type where
  /-- what to do about a refused document -/
  policy : RejectionPolicy
  /-- how many quarantined documents end the pipeline -/
  maxRejects : ℕ
  /-- how many writes may be open at once -/
  writeConcurrency : ℕ

/-- What the loop knows about positions and the quarantine. -/
structure Acks : Type where
  /-- the documents quarantined so far -/
  quarantined : ℕ
  /-- the position published to the source -/
  ackTx : Option Lsn
  /-- the position published to the checkpoint task -/
  ckptDone : Option Lsn
  /-- ghost: which command carried the published position -/
  carrier : Option ℕ
  /-- ghost: the rejections the sink has durably recorded -/
  recorded : List Rejection

namespace Acks

/-- Publish a position. Position zero comes from an initial-load batch and is
not one to acknowledge. -/
def publish (acks : Acks) (seq : ℕ) (lsn : Lsn) : Acks :=
  if 0 < lsn then { acks with ackTx := some lsn, ckptDone := some lsn, carrier := some seq }
  else acks

/-- An acknowledgement: its refused documents are recorded before its position is
published. `filed` is what the sink answers if it is asked to record them. -/
def acknowledge (loop : SinkLoop) (seq : ℕ) (filed : Except CoreError Unit) (acks : Acks)
    (ack : SinkAck) : Bool × Acks :=
  if ack.rejected = [] then (true, acks.publish seq ack.maxLsn)
  else if loop.policy = .halt then (false, acks)
  else if loop.maxRejects ≤ acks.quarantined then (false, acks)
  else match filed with
    | .error _ => (false, acks)
    | .ok () =>
      let acks := { acks with
        quarantined := acks.quarantined + ack.rejected.length
        recorded := acks.recorded ++ ack.rejected }
      if loop.maxRejects ≤ acks.quarantined then (false, acks)
      else (true, acks.publish seq ack.maxLsn)

/-- `Acks::apply`: what one finished command means, and whether the pipeline may
carry on. -/
def apply (loop : SinkLoop) (seq : ℕ) (filed : Except CoreError Unit) (acks : Acks) :
    Except CoreError (Option SinkAck) → Bool × Acks
  | .ok (some ack) => acks.acknowledge loop seq filed ack
  | .ok none => (true, acks)
  | .error _ => (false, acks)

end Acks

/-- How a spawned write ended: with the sink's answer, or without one. -/
inductive Joined : Type where
  /-- the task returned what `Sink::write` did -/
  | finished (result : Except CoreError SinkAck) : Joined
  /-- the task did not finish -/
  | died : Joined

/-- A write that ended in a failure. -/
def Joined.Failed : Joined → Prop
  | .finished (.ok _) => False
  | _ => True

/-- `finish`: account for one write that has finished, however it finished. -/
def finish (loop : SinkLoop) (seq : ℕ) (filed : Except CoreError Unit) (acks : Acks) :
    Joined → Bool × Acks
  | .finished (.ok ack) => acks.apply loop seq filed (.ok (some ack))
  | .finished (.error e) => acks.apply loop seq filed (.error e)
  | .died => (false, acks)

/-- A write that was spawned and is not accounted for yet. -/
structure OpenWrite : Type where
  /-- its place among the commands taken -/
  seq : ℕ
  /-- how it ended, once it has -/
  outcome : Option Joined

/-- Where the loop is. -/
inductive Phase : Type where
  /-- before the quarantine has been counted -/
  | starting : Phase
  /-- taking commands -/
  | receiving : Phase
  /-- waiting for the open writes, to carry a barrier out -/
  | draining (command : SinkCommand) : Phase
  /-- the channel is closed, waiting for the open writes -/
  | closing : Phase
  /-- stopped by a failure -/
  | halted : Phase
  /-- done -/
  | ended : Phase

/-- Whether the loop still accounts for writes. -/
def Phase.live : Phase → Bool
  | .receiving | .draining _ | .closing => true
  | _ => false

/-- The loop between two awaits. -/
structure LoopState : Type where
  /-- where it is -/
  phase : Phase
  /-- the open writes, oldest first -/
  inflight : List OpenWrite
  /-- positions and quarantine -/
  acks : Acks
  /-- the last load mark answered -/
  loadDone : ℕ
  /-- ghost: the commands taken, in order -/
  taken : List SinkCommand
  /-- ghost: how each write that has ended did -/
  done : List (ℕ × Joined)

/-- What happens next. -/
inductive LoopAction : Type where
  /-- the quarantine is counted -/
  | start (listed : Except CoreError ℕ) : LoopAction
  /-- the open write at a place of the queue ends -/
  | complete (place : ℕ) (joined : Joined) : LoopAction
  /-- the oldest open write has ended and is accounted for -/
  | account (filed : Except CoreError Unit) : LoopAction
  /-- the channel yields a command -/
  | receive (command : SinkCommand) : LoopAction
  /-- the channel is closed -/
  | close : LoopAction
  /-- nothing is open and the barrier is carried out; the sink answers a truncate -/
  | execute (truncated : Except CoreError Unit) : LoopAction
  /-- nothing is open and there is no more to do -/
  | leave : LoopAction

namespace SinkLoop

/-- The state the loop begins in. -/
def start : LoopState :=
  ⟨.starting, [], ⟨0, none, none, none, []⟩, 0, [], []⟩

/-- `write_concurrency.max(1)`. -/
def concurrency (loop : SinkLoop) : ℕ :=
  max loop.writeConcurrency 1

/-- Whether the loop looks at the channel: it is taking commands, there is a free
slot, and the oldest open write has not ended (the select is biased towards it). -/
def listens (loop : SinkLoop) (s : LoopState) : Bool :=
  match s.phase, s.inflight.head? with
  | .receiving, some oldest => oldest.outcome.isNone && s.inflight.length < loop.concurrency
  | .receiving, none => true
  | _, _ => false

/-- Where a failure leaves the loop: a failure in the last drain ends it, any
other halts it and aborts what is open. -/
def stopped : Phase → Phase
  | .closing => .ended
  | _ => .halted

/-- What carrying a barrier out does, `seq` being its place among the commands. -/
def execute (loop : SinkLoop) (s : LoopState) (seq : ℕ) (truncated : Except CoreError Unit) :
    SinkCommand → LoopState
  | .write _ => s
  | .position lsn =>
    let (goes, acks) := s.acks.apply loop seq (.ok ()) (.ok (some (SinkAck.written lsn)))
    { s with phase := if goes then .receiving else .halted, acks := acks }
  | .loadMark mark =>
    let (goes, acks) := s.acks.apply loop seq (.ok ()) (.ok none)
    { s with phase := if goes then .receiving else .halted, acks := acks, loadDone := mark }
  | .truncate _ _ _ =>
    let (goes, acks) := s.acks.apply loop seq (.ok ()) (truncated.map fun _ => none)
    { s with phase := if goes then .receiving else .halted, acks := acks }

/-- One action of the loop, where it can be taken. -/
def step (loop : SinkLoop) (s : LoopState) : LoopAction → Option LoopState
  | .start listed =>
    match s.phase, loop.policy, listed with
    | .starting, .halt, _ => some { s with phase := .receiving }
    | .starting, .quarantine, .ok total =>
      some { s with phase := .receiving, acks := { s.acks with quarantined := total } }
    | .starting, .quarantine, .error _ => some { s with phase := .ended }
    | _, _, _ => none
  | .complete place joined =>
    match s.inflight[place]? with
    | some ⟨seq, none⟩ => some { s with
        inflight := s.inflight.set place ⟨seq, some joined⟩
        done := (seq, joined) :: s.done }
    | _ => none
  | .account filed =>
    match s.phase.live, s.inflight with
    | true, ⟨seq, some joined⟩ :: rest =>
      let (goes, acks) := finish loop seq filed s.acks joined
      if goes then some { s with inflight := rest, acks := acks }
      else some { s with phase := stopped s.phase, inflight := [], acks := acks }
    | _, _ => none
  | .receive command =>
    if loop.listens s then
      if command.isWrite then some { s with
          inflight := s.inflight ++ [⟨s.taken.length, none⟩]
          taken := s.taken ++ [command] }
      else some { s with phase := .draining command, taken := s.taken ++ [command] }
    else none
  | .close => if loop.listens s then some { s with phase := .closing } else none
  | .execute truncated =>
    match s.phase, s.inflight with
    | .draining command, [] => some (loop.execute s (s.taken.length - 1) truncated command)
    | _, _ => none
  | .leave =>
    match s.phase, s.inflight with
    | .closing, [] => some { s with phase := .ended }
    | _, _ => none

/-! ## What an action does -/

/-- What an action that can be taken leaves. -/
inductive Does (loop : SinkLoop) (s : LoopState) : LoopAction → LoopState → Prop where
  /-- the refusals on file are counted, or do not matter -/
  | counted {listed : Except CoreError ℕ} {total : ℕ} : s.phase = .starting →
      (loop.policy = .quarantine → listed = .ok total) →
      Does loop s (.start listed)
        { s with phase := .receiving, acks := { s.acks with quarantined := total } }
  /-- they cannot be counted -/
  | uncounted {e : CoreError} : s.phase = .starting →
      Does loop s (.start (.error e)) { s with phase := .ended }
  /-- a write ends -/
  | completed {place seq : ℕ} {joined : Joined} : s.inflight[place]? = some ⟨seq, none⟩ →
      Does loop s (.complete place joined) { s with
        inflight := s.inflight.set place ⟨seq, some joined⟩
        done := (seq, joined) :: s.done }
  /-- the oldest write is accounted for -/
  | accounted {filed : Except CoreError Unit} {seq : ℕ} {joined : Joined}
      {rest : List OpenWrite} : s.phase.live = true → s.inflight = ⟨seq, some joined⟩ :: rest →
      (finish loop seq filed s.acks joined).1 = true → Does loop s (.account filed)
        { s with inflight := rest, acks := (finish loop seq filed s.acks joined).2 }
  /-- the loop does not carry on behind it -/
  | failed {filed : Except CoreError Unit} {seq : ℕ} {joined : Joined} {rest : List OpenWrite} :
      s.phase.live = true → s.inflight = ⟨seq, some joined⟩ :: rest →
      (finish loop seq filed s.acks joined).1 = false → Does loop s (.account filed) { s with
        phase := stopped s.phase
        inflight := []
        acks := (finish loop seq filed s.acks joined).2 }
  /-- a write is taken -/
  | opened {batch : List LsnOp} : s.phase = .receiving → loop.listens s = true →
      Does loop s (.receive (.write batch)) { s with
        inflight := s.inflight ++ [⟨s.taken.length, none⟩]
        taken := s.taken ++ [.write batch] }
  /-- a barrier is taken -/
  | parked {command : SinkCommand} : s.phase = .receiving → command.isWrite = false →
      loop.listens s = true → Does loop s (.receive command)
        { s with phase := .draining command, taken := s.taken ++ [command] }
  /-- the channel is closed -/
  | closed : s.phase = .receiving → loop.listens s = true →
      Does loop s .close { s with phase := .closing }
  /-- a barrier is carried out -/
  | executed {truncated : Except CoreError Unit} {command : SinkCommand} :
      s.phase = .draining command → s.inflight = [] → Does loop s (.execute truncated)
        (loop.execute s (s.taken.length - 1) truncated command)
  /-- the loop ends -/
  | left : s.phase = .closing → s.inflight = [] → Does loop s .leave { s with phase := .ended }

variable {loop : SinkLoop} {s s' : LoopState}

theorem phase_of_listens (h : loop.listens s = true) : s.phase = .receiving := by
  rw [listens] at h
  split at h
  · assumption
  · assumption
  · cases h

theorem does {action : LoopAction} (h : loop.step s action = some s') : loop.Does s action s' := by
  cases action with
  | start listed =>
    simp only [step] at h
    split at h
    · next hphase hpolicy =>
      cases h
      exact .counted hphase fun heq => by cases hpolicy.symm.trans heq
    · next hphase _ =>
      cases h
      exact .counted hphase fun _ => rfl
    · next hphase _ =>
      cases h
      exact .uncounted hphase
    · cases h
  | complete place joined =>
    simp only [step] at h
    split at h
    · next hplace =>
      cases h
      exact .completed hplace
    · cases h
  | account filed =>
    simp only [step] at h
    split at h
    · next hlive hfront =>
      split at h
      · next hgoes =>
        cases h
        exact .accounted hlive hfront hgoes
      · next hgoes =>
        cases h
        exact .failed hlive hfront (Bool.eq_false_iff.mpr hgoes)
    · cases h
  | receive command =>
    simp only [step] at h
    split at h
    · next hlistens =>
      have hphase := phase_of_listens hlistens
      split at h
      · next hwrite =>
        cases h
        cases command with
        | write batch => exact .opened hphase hlistens
        | position | truncate | loadMark => cases hwrite
      · next hbarrier =>
        cases h
        exact .parked hphase (Bool.eq_false_iff.mpr hbarrier) hlistens
    · cases h
  | close =>
    simp only [step] at h
    split at h
    · next hlistens =>
      cases h
      exact .closed (phase_of_listens hlistens) hlistens
    · cases h
  | execute truncated =>
    simp only [step] at h
    split at h
    · next hphase hopen =>
      cases h
      exact .executed hphase hopen
    · cases h
  | leave =>
    simp only [step] at h
    split at h
    · next hphase hopen =>
      cases h
      exact .left hphase hopen
    · cases h

/-- The loop as a transition system. -/
def system (loop : SinkLoop) : Transition.System LoopState LoopAction where
  initial s := s = start
  step := loop.step

end SinkLoop

end Pg2osync
