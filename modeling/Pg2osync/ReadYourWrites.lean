import Pg2osync.VersionBase

/-!
# Read your writes

`/synced` waits until the acknowledged position passes one the caller names, or the
source's own. What is acknowledged is a version: on MySQL a coordinate plus the base of
the generation. A position that is parsed gets the base which holds at that moment, and
one that is read from the source gets none. The endpoints outlive the attempts, so that
what answers a request may have been acknowledged in a generation it was not asked in.

An answer is right in every run in which the acknowledgement that gives it speaks of the
request's server and base, and what its stream does not carry has been settled
(`answers_complete`). The acknowledgements themselves are safe: they follow the changes
that the stream carries (`acks_safe`).
-/

namespace Pg2osync

namespace ReadYourWrites

open MySql (Coordinate Server StoredPosition positionToken attemptBase storedPosition told)

/-! ## Requests and acknowledgements -/

/-- The kind of source. On PostgreSQL a position is an LSN, whose halves are the parts
of a coordinate. -/
inductive Flavor : Type where
  | postgres
  | mysql
  deriving DecidableEq

/-- An attempt that streams. -/
structure Streaming : Type where
  server : Server
  /-- the base of its versions -/
  base : ℕ
  /-- which changes its stream carries; the rest were before it, or are a load's -/
  sends : ℕ → Bool

/-- What the endpoint holds of the pipeline's progress. -/
structure Acked : Type where
  token : ℕ
  /-- ghost: the attempt that published it, as it streamed then -/
  by_ : Streaming
  /-- ghost: which attempt that was -/
  attempt : ℕ
  /-- ghost: the coordinate it stands for -/
  coordinate : Coordinate

/-- A request that waits. -/
structure Waiting : Type where
  /-- the version it waits for -/
  requested : ℕ
  /-- ghost: the server that the position was read on -/
  server : Server
  /-- ghost: the position -/
  position : Coordinate
  /-- ghost: whether the caller named it -/
  named : Bool
  /-- ghost: the base that held -/
  base : ℕ

/-- A request that was told it is synced. -/
structure Answered : Type where
  request : Waiting
  /-- which changes were to a synced table -/
  synced : ℕ → Bool
  /-- what had been written or quarantined -/
  settled : List ℕ

/-- One source, its pipeline, and the endpoint. -/
structure SyncedState : Type where
  /-- the server at the source's address -/
  source : Server
  /-- which changes are to a synced table -/
  synced : ℕ → Bool
  /-- the changes that were written or quarantined -/
  settled : List ℕ
  checkpoint : Option StoredPosition
  /-- the cell that the endpoints read the base from -/
  versionBase : ℕ
  attempt : Option Streaming
  /-- how many attempts there were -/
  attempts : ℕ
  acked : Option Acked
  waiting : List Waiting
  answered : List Answered

/-- The position parser of the source's endpoints. -/
def parsePosition (flavor : Flavor) (versionBase : ℕ) (position : Coordinate) : ℕ :=
  match flavor with
  | .postgres => positionToken position
  | .mysql => saturatingAdd versionBase (positionToken position)

/-- `read_current_lsn` and `read_current_binlog_position`. -/
def currentPosition (source : Server) : ℕ :=
  positionToken source.current

/-- What `wait_for` looks at whenever it wakes. -/
def reached (acked : Option ℕ) (requested : ℕ) : Bool :=
  acked.any fun token => requested ≤ token

/-! ## Steps -/

/-- What happens next. -/
inductive SyncedAction : Type where
  /-- the source moves on, or another server takes its address -/
  | move (server : Server) : SyncedAction
  /-- a change is written or quarantined, by the stream or by a load -/
  | settle (change : ℕ) : SyncedAction
  /-- a reload: tables join or leave, and with them what the stream carries -/
  | reload (synced sends : ℕ → Bool) : SyncedAction
  /-- an attempt begins -/
  | attempt (sends : ℕ → Bool) : SyncedAction
  /-- the attempt acknowledges a coordinate -/
  | publish (coordinate : Coordinate) : SyncedAction
  /-- what is acknowledged is checkpointed -/
  | checkpoint (gtid : Option (List ℕ)) : SyncedAction
  /-- a request comes, with a position read on some server or without one -/
  | ask (position : Option (Server × Coordinate)) : SyncedAction
  /-- a request that waits is told it is synced -/
  | answer (place : ℕ) : SyncedAction
  /-- a request that waits is told that it is not -/
  | giveUp (place : ℕ) : SyncedAction
  /-- the process starts again -/
  | restart : SyncedAction

namespace SyncedState

/-- An attempt begins on a server with a base. -/
def started (base : ℕ) (sends : ℕ → Bool) (s : SyncedState) : SyncedState :=
  { s with
    attempt := some ⟨s.source, base, sends⟩
    attempts := s.attempts + 1
    versionBase := base }

/-- `attempt_postgres` and `attempt_mysql`, up to where the stream starts. -/
def attemptStep (flavor : Flavor) (sends : ℕ → Bool) (s : SyncedState) : Option SyncedState :=
  match flavor, s.checkpoint with
  | .postgres, _ => some (s.started 0 sends)
  | .mysql, none =>
    let baseline := if s.source.gtids then List.range s.source.count else []
    some { s.started 0 sends with
      checkpoint := some (storedPosition (positionToken s.source.current) 0 (told baseline)) }
  | .mysql, some stored => (attemptBase stored s.source).map fun base => s.started base sends

/-- Everything up to a coordinate that the stream carries has been settled. -/
def publishStep (coordinate : Coordinate) (s : SyncedState) : Option SyncedState :=
  s.attempt.bind fun a =>
    if ∀ n < a.server.dumpFrom (positionToken coordinate), a.sends n → n ∈ s.settled then
      some { s with acked := some ⟨saturatingAdd a.base (positionToken coordinate), a, s.attempts,
        coordinate⟩ }
    else none

/-- The checkpoint of what the attempt that runs has acknowledged. -/
def checkpointStep (gtid : Option (List ℕ)) (s : SyncedState) : Option SyncedState :=
  s.acked.bind fun a =>
    if a.attempt = s.attempts then
      some { s with checkpoint := some (storedPosition a.token a.by_.base gtid) }
    else none

/-- The position a request waits for, as `handle` finds it. -/
def asked (flavor : Flavor) (position : Option (Server × Coordinate)) (s : SyncedState) :
    Waiting :=
  match position with
  | some (server, position) =>
    ⟨parsePosition flavor s.versionBase position, server, position, true, s.versionBase⟩
  | none => ⟨currentPosition s.source, s.source, s.source.current, false, s.versionBase⟩

/-- `wait_for_position` finds the position acknowledged. -/
def answerStep (place : ℕ) (s : SyncedState) : Option SyncedState :=
  s.waiting[place]?.bind fun w =>
    if reached (s.acked.map Acked.token) w.requested then
      some { s with
        waiting := s.waiting.eraseIdx place
        answered := s.answered ++ [⟨w, s.synced, s.settled⟩] }
    else none

end SyncedState

/-- One step, where it can be taken. -/
def syncedStep (flavor : Flavor) (s : SyncedState) : SyncedAction → Option SyncedState
  | .move server => some { s with source := server }
  | .settle change => some { s with settled := change :: s.settled }
  | .reload synced sends => some { s with
      synced
      attempt := s.attempt.map fun a => { a with sends } }
  | .attempt sends => s.attemptStep flavor sends
  | .publish coordinate => s.publishStep coordinate
  | .checkpoint gtid => s.checkpointStep gtid
  | .ask position => some { s with waiting := s.waiting ++ [s.asked flavor position] }
  | .answer place => s.answerStep place
  | .giveUp place => some { s with waiting := s.waiting.eraseIdx place }
  | .restart => some { s with
      versionBase := 0
      attempt := none
      acked := none
      waiting := [] }

/-- A process that begins, whatever its checkpoint. -/
def syncedSystem (flavor : Flavor) : Transition.System SyncedState SyncedAction where
  initial s := s.versionBase = 0 ∧ s.attempt = none ∧ s.acked = none ∧ s.waiting = [] ∧
    s.answered = []
  step := syncedStep flavor

/-! ## What is asked of an answer -/

/-- Every change to a synced table at or before the position had been settled. -/
def Answered.Complete (r : Answered) : Prop :=
  ∀ n, r.synced n → positionToken (r.request.server.numbering n) ≤
    positionToken r.request.position → n ∈ r.settled

/-- An acknowledgement is in the numbering of a request, and what its stream does not
carry is there all the same. -/
structure Speaks (s : SyncedState) (a : Acked) (w : Waiting) : Prop where
  /-- the position was read where the attempt streams -/
  server : a.by_.server.numbering = w.server.numbering
  /-- with the base of the attempt's versions -/
  base : w.base = a.by_.base
  /-- which a position that nobody named is not given -/
  named : w.named = false → a.by_.base = 0
  /-- there is a version for it -/
  fits : w.base + positionToken w.position ≤ u64Max
  /-- no load has a change of a synced table still to bring -/
  carried : ∀ n, s.synced n → positionToken (w.server.numbering n) ≤ positionToken w.position →
    a.by_.sends n ∨ n ∈ s.settled

/-- A request is answered by an acknowledgement that speaks of it. -/
def AnsweredInKind (s : SyncedState) : SyncedAction → Prop
  | .answer place => ∀ w a, s.waiting[place]? = some w → s.acked = some a → Speaks s a w
  | _ => True

/-- What holds between any two steps. -/
structure SyncedInv (flavor : Flavor) (s : SyncedState) : Prop where
  /-- an acknowledgement is a version, and safe -/
  acked : ∀ a, s.acked = some a → a.token = saturatingAdd a.by_.base (positionToken a.coordinate) ∧
    ∀ n, a.by_.sends n → positionToken (a.by_.server.numbering n) ≤ positionToken a.coordinate →
      n ∈ s.settled
  /-- a request waits for its position, above the base it was asked in if it names one -/
  waiting : ∀ w ∈ s.waiting, w.base + positionToken w.position ≤ u64Max →
    w.requested = if w.named ∧ flavor = .mysql then w.base + positionToken w.position
      else positionToken w.position
  /-- on PostgreSQL there is no base -/
  postgres : flavor = .postgres → s.versionBase = 0 ∧ (∀ a, s.attempt = some a → a.base = 0) ∧
    (∀ a, s.acked = some a → a.by_.base = 0)
  /-- every answer was complete -/
  answered : ∀ r ∈ s.answered, r.Complete

variable {flavor : Flavor} {s s' : SyncedState}

theorem saturatingAdd_le_add (a b : ℕ) : saturatingAdd a b ≤ a + b :=
  min_le_left _ _

theorem requested_asked (flavor : Flavor) (position : Option (Server × Coordinate))
    (s : SyncedState)
    (hfits : (s.asked flavor position).base + positionToken (s.asked flavor position).position ≤
      u64Max) :
    (s.asked flavor position).requested =
      if (s.asked flavor position).named ∧ flavor = .mysql then
        (s.asked flavor position).base + positionToken (s.asked flavor position).position
      else positionToken (s.asked flavor position).position := by
  rcases position with _ | ⟨server, position⟩
  · rfl
  · cases flavor with
    | postgres => rfl
    | mysql => exact min_eq_left hfits

/-- An acknowledgement that speaks of a request has come as far as its position. -/
theorem SyncedInv.reaches (h : SyncedInv flavor s) {w : Waiting} {a : Acked} (hw : w ∈ s.waiting)
    (ha : s.acked = some a) (hspeaks : Speaks s a w) (hreached : w.requested ≤ a.token) :
    positionToken w.position ≤ positionToken a.coordinate := by
  have hrequested := h.waiting w hw hspeaks.fits
  have htoken := (h.acked a ha).1
  have hle := saturatingAdd_le_add a.by_.base (positionToken a.coordinate)
  rw [← htoken] at hle
  split at hrequested
  · have hbase := hspeaks.base
    omega
  · next hplain =>
    have hzero : a.by_.base = 0 := by
      rcases hnamed : w.named with _ | _
      · exact hspeaks.named hnamed
      · cases flavor with
        | postgres => exact (h.postgres rfl).2.2 a ha
        | mysql => exact absurd ⟨hnamed, rfl⟩ hplain
    omega

theorem SyncedInv.answer (h : SyncedInv flavor s) {place : ℕ}
    (hkind : AnsweredInKind s (.answer place)) (hstep : s.answerStep place = some s') :
    SyncedInv flavor s' := by
  obtain ⟨w, hw, hstep⟩ := Option.bind_eq_some_iff.mp hstep
  rw [Option.ite_none_right_eq_some] at hstep
  obtain ⟨hreached, heq⟩ := hstep
  obtain rfl := Option.some.inj heq
  have hmem := List.mem_of_getElem? hw
  refine ⟨h.acked, fun w' hw' => h.waiting w' (List.mem_of_mem_eraseIdx hw'), h.postgres, ?_⟩
  intro r hr
  rcases List.mem_append.mp hr with hr | hr
  · exact h.answered r hr
  · obtain rfl := List.mem_singleton.mp hr
    rcases hacked : s.acked with _ | a
    · rw [hacked] at hreached
      cases hreached
    · rw [hacked] at hreached
      have hspeaks := hkind w a hw hacked
      have hfar := h.reaches hmem hacked hspeaks (by simpa [reached] using hreached)
      intro n hsynced hle
      rcases hspeaks.carried n hsynced hle with hsends | hsettled
      · refine (h.acked a hacked).2 n hsends ?_
        rw [hspeaks.server]
        exact hle.trans hfar
      · exact hsettled

theorem SyncedInv.begin (h : SyncedInv flavor s) {base : ℕ} (hbase : flavor = .postgres → base = 0)
    (sends : ℕ → Bool) : SyncedInv flavor (s.started base sends) where
  acked := h.acked
  waiting := h.waiting
  postgres hflavor := by
    refine ⟨hbase hflavor, fun a ha => ?_, (h.postgres hflavor).2.2⟩
    obtain rfl := Option.some.inj ha
    exact hbase hflavor
  answered := h.answered

theorem SyncedInv.attempt (h : SyncedInv flavor s) {sends : ℕ → Bool}
    (hstep : s.attemptStep flavor sends = some s') : SyncedInv flavor s' := by
  rw [SyncedState.attemptStep.eq_def] at hstep
  split at hstep
  · obtain rfl := Option.some.inj hstep
    exact h.begin (fun _ => rfl) sends
  · obtain rfl := Option.some.inj hstep
    have hbegin : SyncedInv .mysql (s.started 0 sends) :=
      h.begin (fun hflavor => nomatch hflavor) sends
    exact ⟨hbegin.acked, hbegin.waiting, hbegin.postgres, hbegin.answered⟩
  · obtain ⟨base, -, rfl⟩ := Option.map_eq_some_iff.mp hstep
    exact h.begin (fun hflavor => nomatch hflavor) sends

theorem SyncedInv.publish (h : SyncedInv flavor s) {coordinate : Coordinate}
    (hstep : s.publishStep coordinate = some s') : SyncedInv flavor s' := by
  obtain ⟨a, hattempt, hstep⟩ := Option.bind_eq_some_iff.mp hstep
  rw [Option.ite_none_right_eq_some] at hstep
  obtain ⟨hsettled, heq⟩ := hstep
  obtain rfl := Option.some.inj heq
  refine ⟨fun acked hacked => ?_, h.waiting, fun hflavor => ?_, h.answered⟩
  · obtain rfl := Option.some.inj hacked
    refine ⟨rfl, fun n hsends hle => hsettled n ?_ hsends⟩
    exact not_le.mp fun hdump => absurd (a.server.dumpFrom_le.mp hdump) (not_lt.mpr hle)
  · obtain ⟨hcell, hbase, -⟩ := h.postgres hflavor
    refine ⟨hcell, hbase, fun acked hacked => ?_⟩
    obtain rfl := Option.some.inj hacked
    exact hbase a hattempt

theorem SyncedInv.step (h : SyncedInv flavor s) {action : SyncedAction}
    (hkind : AnsweredInKind s action) (hstep : syncedStep flavor s action = some s') :
    SyncedInv flavor s' := by
  cases action with
  | move server =>
    obtain rfl := Option.some.inj hstep
    exact ⟨h.acked, h.waiting, h.postgres, h.answered⟩
  | settle change =>
    obtain rfl := Option.some.inj hstep
    refine ⟨fun a ha => ?_, h.waiting, h.postgres, h.answered⟩
    obtain ⟨htoken, hsettled⟩ := h.acked a ha
    exact ⟨htoken, fun n hsends hle => List.mem_cons_of_mem _ (hsettled n hsends hle)⟩
  | reload synced sends =>
    obtain rfl := Option.some.inj hstep
    refine ⟨h.acked, h.waiting, fun hflavor => ?_, h.answered⟩
    obtain ⟨hcell, hbase, hacked⟩ := h.postgres hflavor
    refine ⟨hcell, fun a ha => ?_, hacked⟩
    obtain ⟨a, hattempt, rfl⟩ := Option.map_eq_some_iff.mp ha
    exact hbase a hattempt
  | attempt sends => exact h.attempt hstep
  | publish coordinate => exact h.publish hstep
  | checkpoint gtid =>
    obtain ⟨a, hacked, hstep⟩ := Option.bind_eq_some_iff.mp hstep
    rw [Option.ite_none_right_eq_some] at hstep
    obtain ⟨-, heq⟩ := hstep
    obtain rfl := Option.some.inj heq
    exact ⟨h.acked, h.waiting, h.postgres, h.answered⟩
  | ask position =>
    obtain rfl := Option.some.inj hstep
    refine ⟨h.acked, fun w hw => ?_, h.postgres, h.answered⟩
    rcases List.mem_append.mp hw with hw | hw
    · exact h.waiting w hw
    · obtain rfl := List.mem_singleton.mp hw
      exact requested_asked flavor position s
  | answer place => exact h.answer hkind hstep
  | giveUp place =>
    obtain rfl := Option.some.inj hstep
    exact ⟨h.acked, fun w hw => h.waiting w (List.mem_of_mem_eraseIdx hw), h.postgres, h.answered⟩
  | restart =>
    obtain rfl := Option.some.inj hstep
    exact ⟨fun a ha => (by cases ha), fun w hw => absurd hw List.not_mem_nil,
      fun _ => ⟨rfl, fun a ha => (by cases ha), fun a ha => (by cases ha)⟩, h.answered⟩

/-- In every run in which the acknowledgement that answers a request speaks of it, every
request that was told it is synced is. -/
theorem answers_complete (h : (syncedSystem flavor).ReachUnder AnsweredInKind s) :
    ∀ r ∈ s.answered, r.Complete := by
  have hinv : SyncedInv flavor s := h.invariant
    (fun s hinitial => by
      obtain ⟨hcell, hattempt, hacked, hwaiting, hanswered⟩ := hinitial
      refine ⟨fun a ha => ?_, fun w hw => ?_, fun _ => ⟨hcell, fun a ha => ?_, fun a ha => ?_⟩,
        fun r hr => ?_⟩
      · cases hacked.symm.trans ha
      · rw [hwaiting] at hw
        cases hw
      · cases hattempt.symm.trans ha
      · cases hacked.symm.trans ha
      · rw [hanswered] at hr
        cases hr)
    fun _ _ _ hinv hkind hstep => hinv.step hkind hstep
  exact hinv.answered

/-! ### Requests around a failover -/

/-- The process begins on the primary, every change being to a synced table. -/
def begins : SyncedState :=
  ⟨MySql.primary, fun _ => true, [], none, 0, none, 0, none, [], []⟩

/-- A change is written and acknowledged, and a caller asks for its position. -/
def untilAsked : List SyncedAction :=
  [.attempt fun _ => true, .settle 0, .publish ⟨7, 4⟩, .checkpoint (some [0]),
    .ask (some (MySql.primary, ⟨7, 4⟩))]

/-- A replica is promoted which has one change more, and a caller asks for its own. -/
def untilFailover : List SyncedAction :=
  [.attempt fun _ => true, .settle 0, .publish ⟨7, 4⟩, .checkpoint (some [0]),
    .move (MySql.promoted ⟨5, 4⟩), .attempt fun n => 0 < n, .ask none, .answer 0]

/-- Nobody is told anything yet. -/
def tellsNobody (_ : SyncedState) : SyncedAction → Bool
  | .answer _ => false
  | _ => true

theorem reachUnder_tellsNobody {actions : List SyncedAction}
    (h : (syncedSystem flavor).runUnder tellsNobody begins actions = some s) :
    (syncedSystem flavor).ReachUnder AnsweredInKind s := by
  have hbegins : (syncedSystem flavor).initial begins := ⟨rfl, rfl, rfl, rfl, rfl⟩
  refine (Transition.System.ReachUnder.of_runUnder (.initial hbegins) h).mono ?_
  intro s action hnone
  cases action with
  | answer place => cases hnone
  | _ => trivial

theorem untilAsked_answered : ∃ s,
    (syncedSystem .mysql).ReachUnder AnsweredInKind s ∧ s.answered.length = 1 ∧
      ∀ r ∈ s.answered, r.Complete := by
  obtain ⟨s, hs, hwaiting, hacked, hanswered⟩ : ∃ s,
      (syncedSystem .mysql).runUnder tellsNobody begins untilAsked = some s ∧
      s.waiting = [⟨parsePosition .mysql 0 ⟨7, 4⟩, MySql.primary, ⟨7, 4⟩, true, 0⟩] ∧
      s.acked = some ⟨parsePosition .mysql 0 ⟨7, 4⟩, ⟨MySql.primary, 0, fun _ => true⟩, 1, ⟨7, 4⟩⟩ ∧
      s.answered = [] := ⟨_, rfl, rfl, rfl, rfl⟩
  obtain ⟨s', hs', hlength⟩ : ∃ s', syncedStep .mysql s (.answer 0) = some s' ∧
      s'.answered.length = 1 := by
    simp only [syncedStep, SyncedState.answerStep, hwaiting, hacked, hanswered]
    exact ⟨_, rfl, rfl⟩
  have hreach : (syncedSystem .mysql).ReachUnder AnsweredInKind s' := by
    refine .step (a := .answer 0) (reachUnder_tellsNobody hs) ?_ hs'
    intro w a hw ha
    rw [hwaiting] at hw
    obtain rfl := Option.some.inj hw
    obtain rfl := Option.some.inj (hacked.symm.trans ha)
    exact ⟨rfl, rfl, fun _ => rfl, by decide, fun n _ _ => .inl rfl⟩
  exact ⟨s', hreach, hlength, answers_complete hreach⟩

/-- The promoted server has a change that nobody wrote, and a caller who asks for
everything up to now is told it is there. -/
theorem untilFailover_told : ∃ s, (syncedSystem .mysql).Reachable s ∧
    ∃ r ∈ s.answered, ¬ r.Complete := by
  obtain ⟨s, base, hs, hanswered⟩ : ∃ s base,
      (syncedSystem .mysql).run begins untilFailover = some s ∧
      s.answered = [⟨⟨positionToken ⟨5, 4⟩, MySql.promoted ⟨5, 4⟩, ⟨5, 4⟩, false, base⟩,
        fun _ => true, [0]⟩] := ⟨_, _, rfl, rfl⟩
  refine ⟨s, Transition.System.reachable_of_run ⟨rfl, rfl, rfl, rfl, rfl⟩ hs, ?_⟩
  rw [hanswered]
  refine ⟨_, List.mem_singleton_self _, fun h => ?_⟩
  exact absurd (h 1 rfl le_rfl) (show 1 ∉ [0] by decide)

end ReadYourWrites

end Pg2osync
