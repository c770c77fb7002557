import Mathlib.Data.List.Basic
import Mathlib.Order.MinMax
import Mathlib.Tactic.NormNum
import Mathlib.Tactic.Positivity
import Mathlib.Tactic.Ring
import Pg2osync.Transition

/-!
# Versions across binlog histories

On MySQL the version of a change is its coordinate in the binlog plus a base that is
kept beside the checkpoint. A coordinate means something on one server only, and an
attempt may find another server at the same address: a replica that was promoted, with
a numbering of its own. Each attempt decides from its checkpoint and from where the
server is now whether the base still holds or a new generation opens above it.

What the servers agree on is the history, in which changes have a number. A server is
where it has each of them in its own binlog, and what it sends when it is asked to
stream from a coordinate.
-/

namespace Pg2osync

/-- `u64::MAX`. -/
def u64Max : ℕ := 2 ^ 64 - 1

/-- `u64::saturating_add`. -/
def saturatingAdd (a b : ℕ) : ℕ :=
  min (a + b) u64Max

theorem saturatingAdd_le (a b : ℕ) : saturatingAdd a b ≤ u64Max :=
  min_le_right _ _

theorem le_saturatingAdd {a b c : ℕ} (h : c ≤ u64Max) (h' : c ≤ a + b) : c ≤ saturatingAdd a b :=
  le_min h' h

theorem base_le_saturatingAdd {a b : ℕ} (h : a ≤ u64Max) : a ≤ saturatingAdd a b :=
  le_saturatingAdd h (Nat.le_add_right a b)

theorem saturatingAdd_mono {a b c : ℕ} (h : b ≤ c) : saturatingAdd a b ≤ saturatingAdd a c :=
  min_le_min (Nat.add_le_add_left h a) le_rfl

namespace MySql

/-- A place in a binlog: the index of a file and an offset in it. -/
structure Coordinate : Type where
  /-- the index of the file -/
  file : ℕ
  /-- the offset, a `u32` -/
  pos : ℕ
  deriving DecidableEq, Repr

/-- `position_token`: the file's index stands above every offset. -/
def positionToken (c : Coordinate) : ℕ :=
  (c.file <<< 32) ||| c.pos

/-- Where MySQL document versions are numbered from. -/
inductive VersionBase : Type where
  /-- the coordinate space the checkpoint was written in still holds -/
  | kept (base : ℕ) : VersionBase
  /-- the source is behind the checkpoint: versions restart above everything written -/
  | newGeneration (base : ℕ) : VersionBase
  deriving DecidableEq, Repr

/-- `GENERATION_MARGIN`: a thousand rotations of headroom. -/
def generationMargin : ℕ := 1 <<< 40

/-- `version_base_for`. -/
def versionBaseFor (base storedToken currentCoordinate : ℕ) : VersionBase :=
  if storedToken ≤ saturatingAdd base currentCoordinate then .kept base
  else .newGeneration (saturatingAdd storedToken generationMargin)

/-- What a checkpoint's position says. -/
structure StoredPosition : Type where
  /-- where to resume on the server it was read from, as a token -/
  coordinate : ℕ
  /-- which changes were consumed, wherever they are -/
  gtid : Option (List ℕ)
  /-- what is added to every coordinate -/
  base : ℕ
  deriving DecidableEq, Repr

/-- The version the coordinate of a position maps to. -/
def StoredPosition.token (stored : StoredPosition) : ℕ :=
  saturatingAdd stored.base stored.coordinate

/-- A server, as an attempt finds it. -/
structure Server : Type where
  /-- where each change of the history is, or will be, in this server's binlog -/
  numbering : ℕ → Coordinate
  /-- the history is in order there -/
  increasing : ∀ {m n}, m < n → positionToken (numbering m) < positionToken (numbering n)
  /-- the first change past a coordinate, which is what a dump from it begins with -/
  dumpFrom : ℕ → ℕ
  /-- and no change before it is past it -/
  dumpFrom_le : ∀ {token n}, dumpFrom token ≤ n ↔ token < positionToken (numbering n)
  /-- the coordinate it is at -/
  current : Coordinate
  /-- whether transactions have global identifiers on it -/
  gtids : Bool
  /-- whether it is MariaDB, whose position is the newest identifier only -/
  mariadb : Bool

namespace Server

/-- The changes the server has: those it wrote up to where it is. -/
def count (server : Server) : ℕ :=
  server.dumpFrom (positionToken server.current)

/-- What a dump from a set of consumed changes leaves out. -/
def covers (server : Server) (consumed : List ℕ) (change : ℕ) : Bool :=
  if server.mariadb then consumed.any fun n => change ≤ n else consumed.contains change

end Server

/-- How an attempt resumes. -/
inductive Resume : Type where
  /-- from a coordinate -/
  | coordinate (token : ℕ) : Resume
  /-- after the changes that were consumed -/
  | gtid (consumed : List ℕ) : Resume
  deriving DecidableEq, Repr

/-- Whether a change is sent to an attempt that resumes so. -/
def Server.sends (server : Server) (resume : Resume) (change : ℕ) : Bool :=
  match resume with
  | .coordinate token => server.dumpFrom token ≤ change
  | .gtid consumed => !server.covers consumed change

/-- What an attempt does next. -/
structure Attempt : Type where
  /-- the server it found -/
  server : Server
  /-- the base of its versions -/
  base : ℕ
  /-- how it resumed -/
  resume : Resume
  /-- what is known to be consumed before it -/
  consumed : List ℕ
  /-- the change the server comes to next -/
  next : ℕ

/-- A change as an attempt streamed it. -/
structure Streamed : Type where
  /-- which attempt, counted from one -/
  attempt : ℕ
  /-- the change -/
  change : ℕ
  /-- the base it was versioned from -/
  base : ℕ
  /-- its coordinate -/
  coordinate : Coordinate
  deriving DecidableEq, Repr

/-- `token_at`: the coordinate plus the generation. -/
def Streamed.version (s : Streamed) : ℕ :=
  saturatingAdd s.base (positionToken s.coordinate)

/-- The target's checkpoint, the attempt that runs, and what was streamed and written. -/
structure VersionState : Type where
  /-- the checkpoint -/
  checkpoint : Option StoredPosition
  /-- the attempt -/
  attempt : Option Attempt
  /-- how many there were -/
  attempts : ℕ
  /-- the changes that were streamed, in order -/
  streamed : List Streamed
  /-- those the target took -/
  written : List Streamed

/-- What happens next. -/
inductive VersionAction : Type where
  /-- an attempt begins, whatever became of the last one -/
  | attempt (server : Server) : VersionAction
  /-- the server comes to its next change -/
  | stream : VersionAction
  /-- a change that was streamed is written -/
  | write (change : Streamed) : VersionAction
  /-- everything up to a coordinate is written, and the checkpoint says so -/
  | checkpoint (coordinate : Coordinate) (complete : Bool) : VersionAction

/-- `position_text_full`, read back by `parse_stored_position`. -/
def storedPosition (token base : ℕ) (gtid : Option (List ℕ)) : StoredPosition :=
  ⟨token - base, gtid, base⟩

/-- A set of changes, if there is anything in it to tell. -/
def told (consumed : List ℕ) : Option (List ℕ) :=
  if consumed = [] then none else some consumed

/-- How an attempt resumes from a checkpoint on a server. -/
def resumeFrom (stored : StoredPosition) (server : Server) : Resume :=
  match stored.gtid, server.gtids with
  | some consumed, true => .gtid consumed
  | _, _ => .coordinate stored.coordinate

/-- The base an attempt versions from. A new generation needs a position that every
server understands; without one the attempt fails. -/
def attemptBase (stored : StoredPosition) (server : Server) : Option ℕ :=
  match versionBaseFor stored.base stored.token (positionToken server.current) with
  | .kept base => some base
  | .newGeneration base => if stored.gtid.isSome && server.gtids then some base else none

namespace VersionState

/-- `attempt_mysql`, up to where the stream starts. -/
def attemptMysql (server : Server) (s : VersionState) : Option VersionState :=
  match s.checkpoint with
  | none =>
    -- the coordinate is persisted before anything is read
    let baseline := if server.gtids then List.range server.count else []
    some { s with
      checkpoint := some (storedPosition (positionToken server.current) 0 (told baseline))
      attempt := some ⟨server, 0, .coordinate (positionToken server.current), baseline, 0⟩
      attempts := s.attempts + 1 }
  | some stored => (attemptBase stored server).map fun base =>
    let resume := resumeFrom stored server
    let consumed := match resume with
      | .gtid consumed => consumed
      | .coordinate _ => []
    { s with
      attempt := some ⟨server, base, resume, consumed, 0⟩
      attempts := s.attempts + 1 }

/-- The server comes to its next change, and sends it unless it was consumed. -/
def stream (s : VersionState) : Option VersionState :=
  s.attempt.map fun a =>
    let s := { s with attempt := some { a with next := a.next + 1 } }
    if a.server.sends a.resume a.next then
      { s with streamed := s.streamed ++ [⟨s.attempts, a.next, a.base, a.server.numbering a.next⟩] }
    else s

/-- A change of the attempt that runs is written. -/
def write (change : Streamed) (s : VersionState) : Option VersionState :=
  if change ∈ s.streamed ∧ change.attempt = s.attempts then
    some { s with written := s.written ++ [change] }
  else none

/-- The checkpoint moves up to a coordinate, which everything streamed before it has
been written up to. -/
def acknowledge (coordinate : Coordinate) (complete : Bool) (s : VersionState) :
    Option VersionState :=
  s.attempt.bind fun a =>
    let upTo := a.server.dumpFrom (positionToken coordinate)
    let mine := s.streamed.filter fun e => e.attempt = s.attempts ∧ e.change < upTo
    if upTo ≤ a.next ∧ ∀ e ∈ mine, e ∈ s.written then
      let gtid := if a.server.gtids && complete then told (a.consumed ++ mine.map Streamed.change)
        else none
      let token := saturatingAdd a.base (positionToken coordinate)
      some { s with checkpoint := some (storedPosition token a.base gtid) }
    else none

end VersionState

/-- One step, where it can be taken. -/
def versionStep (s : VersionState) : VersionAction → Option VersionState
  | .attempt server => s.attemptMysql server
  | .stream => s.stream
  | .write change => s.write change
  | .checkpoint coordinate complete => s.acknowledge coordinate complete

/-- The history of a pipeline as a transition system, from before its first attempt. -/
def versionSystem : Transition.System VersionState VersionAction where
  initial s := s = ⟨none, none, 0, [], []⟩
  step := versionStep

/-! ## What is asked of a run -/

/-- **Versions never go backwards**: a change that is streamed is versioned at or above
every change before it that an earlier attempt wrote. -/
def NeverBackwards (s : VersionState) : Prop :=
  ∀ e ∈ s.streamed, ∀ w ∈ s.written, w.attempt < e.attempt → w.change < e.change →
    w.version ≤ e.version

/-- What an attempt finds written is less than a margin above its checkpoint. -/
def withinMargin (s : VersionState) : VersionAction → Bool
  | .attempt _ => s.checkpoint.all fun stored =>
      s.written.all fun w => w.version < stored.token + generationMargin
  | _ => true

/-- An attempt that keeps its base finds a server that suits it: nothing was written
from a later base, and no change it is to send is at a lower coordinate than a change
before it was written from. -/
def SuitsBase (s : VersionState) : VersionAction → Prop
  | .attempt server => ∀ stored base, s.checkpoint = some stored →
      versionBaseFor stored.base stored.token (positionToken server.current) = .kept base →
      ∀ w ∈ s.written, w.base ≤ base ∧ (w.base = base → ∀ n, w.change < n →
        server.sends (resumeFrom stored server) n = true →
        positionToken w.coordinate ≤ positionToken (server.numbering n))
  | _ => True

/-! ## The invariant -/

/-- What holds between any two steps. -/
structure VersionInv (s : VersionState) : Prop where
  /-- an attempt leaves a checkpoint before it streams -/
  anchored : s.checkpoint = none → s.attempt = none
  /-- and nothing else streams -/
  fresh : s.attempt = none → s.streamed = []
  /-- what was written was streamed -/
  came : ∀ w ∈ s.written, w ∈ s.streamed
  /-- by an attempt that began, from a base that is a version -/
  streamed : ∀ e ∈ s.streamed, e.attempt ≤ s.attempts ∧ e.base ≤ u64Max
  /-- the checkpoint's base is above what was written from a lower one -/
  above : ∀ stored, s.checkpoint = some stored → stored.base ≤ u64Max ∧
    ∀ w ∈ s.written, w.base < stored.base → w.version ≤ stored.base
  /-- and so is the attempt's, which is not below the checkpoint's -/
  running : ∀ a, s.attempt = some a → a.base ≤ u64Max ∧
    (∀ stored, s.checkpoint = some stored → stored.base ≤ a.base) ∧
    ∀ w ∈ s.written, w.base ≤ a.base ∧ (w.base < a.base → w.version ≤ a.base)
  /-- the attempt versions from its base -/
  mine : ∀ a, s.attempt = some a → ∀ e ∈ s.streamed, e.attempt = s.attempts → e.base = a.base
  /-- and has nothing to send that was outranked before it began -/
  suited : ∀ a, s.attempt = some a → ∀ w ∈ s.written, w.attempt < s.attempts →
    ∀ n, w.change < n → a.server.sends a.resume n = true →
      w.version ≤ saturatingAdd a.base (positionToken (a.server.numbering n))
  /-- so no version went backwards -/
  safe : NeverBackwards s

variable {s s' : VersionState}

theorem Streamed.base_le {e : Streamed} (h : e.base ≤ u64Max) : e.base ≤ e.version := by
  rw [Streamed.version]
  exact base_le_saturatingAdd h

variable {stored : StoredPosition}

theorem StoredPosition.base_le (h : stored.base ≤ u64Max) : stored.base ≤ stored.token := by
  rw [StoredPosition.token]
  exact base_le_saturatingAdd h

variable {server : Server}

/-- A base that holds is the checkpoint's; a new one is a margin above its token. -/
theorem attemptBase_cases {base : ℕ} (h : attemptBase stored server = some base) :
    (versionBaseFor stored.base stored.token (positionToken server.current) = .kept base ∧
      base = stored.base) ∨ base = saturatingAdd stored.token generationMargin := by
  rw [attemptBase] at h
  split at h
  · next kept hkept =>
    obtain rfl := Option.some.inj h
    refine .inl ⟨hkept, ?_⟩
    rw [versionBaseFor] at hkept
    split at hkept <;> cases hkept
    rfl
  · next opened hnew =>
    split at h
    · obtain rfl := Option.some.inj h
      rw [versionBaseFor] at hnew
      split at hnew
      · cases hnew
      · exact .inr (VersionBase.newGeneration.inj hnew).symm
    · cases h

/-- What an attempt finds written is below its base, or at lower coordinates from it. -/
theorem VersionInv.suits (h : VersionInv s) {base : ℕ}
    (hmargin : withinMargin s (.attempt server) = true) (hsuits : SuitsBase s (.attempt server))
    (hstored : s.checkpoint = some stored) (hbase : attemptBase stored server = some base) :
    base ≤ u64Max ∧ stored.base ≤ base ∧
      (∀ w ∈ s.written, w.base ≤ base ∧ (w.base < base → w.version ≤ base)) ∧
      ∀ w ∈ s.written, ∀ n, w.change < n → server.sends (resumeFrom stored server) n = true →
        w.version ≤ saturatingAdd base (positionToken (server.numbering n)) := by
  obtain ⟨hle, habove⟩ := h.above stored hstored
  obtain ⟨hkept, rfl⟩ | hopened := attemptBase_cases hbase
  · have hsuited := hsuits stored _ hstored hkept
    refine ⟨hle, le_rfl, fun w hw => ⟨(hsuited w hw).1, habove w hw⟩, fun w hw n hn hsent => ?_⟩
    obtain ⟨hnot, hsame⟩ := hsuited w hw
    obtain hlt | heq := Nat.lt_or_eq_of_le hnot
    · -- the generation opened above everything of the ones before it
      exact (habove w hw hlt).trans (base_le_saturatingAdd hle)
    · rw [Streamed.version, heq]
      exact saturatingAdd_mono (hsame heq n hn hsent)
  · have hbound : base ≤ u64Max := hopened ▸ saturatingAdd_le _ _
    simp only [withinMargin, hstored, Option.all_some] at hmargin
    have hbelow : ∀ w ∈ s.written, w.version ≤ base := fun w hw => by
      rw [hopened]
      exact le_saturatingAdd (saturatingAdd_le _ _)
        (of_decide_eq_true (List.all_eq_true.mp hmargin w hw)).le
    refine ⟨hbound, ?_, fun w hw => ⟨?_, fun _ => hbelow w hw⟩, fun w hw n _ _ => ?_⟩
    · rw [hopened]
      exact (StoredPosition.base_le hle).trans (base_le_saturatingAdd (saturatingAdd_le _ _))
    · exact (Streamed.base_le (h.streamed w (h.came w hw)).2).trans (hbelow w hw)
    · exact (hbelow w hw).trans (base_le_saturatingAdd hbound)

/-- A new attempt: everything that was written is an earlier one's. -/
theorem VersionInv.attempt_step (h : VersionInv s)
    (hmargin : withinMargin s (.attempt server) = true) (hsuits : SuitsBase s (.attempt server))
    (hstep : s.attemptMysql server = some s') : VersionInv s' := by
  have hearlier : ∀ e ∈ s.streamed, e.attempt ≠ s.attempts + 1 := fun e he => by
    have hcount := (h.streamed e he).1
    omega
  have hcounted : ∀ e ∈ s.streamed, e.attempt ≤ s.attempts + 1 ∧ e.base ≤ u64Max := fun e he =>
    (h.streamed e he).imp_left Nat.le_succ_of_le
  rw [VersionState.attemptMysql] at hstep
  split at hstep
  · next hnone =>
    cases hstep
    have hempty := h.fresh (h.anchored hnone)
    have hwritten : ∀ w, w ∉ s.written := fun w hw => by
      have hin := h.came w hw
      rw [hempty] at hin
      cases hin
    refine ⟨nofun, fun _ => hempty, h.came, hcounted, ?_, ?_, ?_, ?_, h.safe⟩
    · intro stored hstored
      cases hstored
      exact ⟨Nat.zero_le _, fun w hw => absurd hw (hwritten w)⟩
    · intro a ha
      cases ha
      refine ⟨Nat.zero_le _, fun stored hstored => ?_, fun w hw => absurd hw (hwritten w)⟩
      cases hstored
      exact le_rfl
    · exact fun a _ e he heq => absurd heq (hearlier e he)
    · exact fun a _ w hw => absurd hw (hwritten w)
  · next stored hstored =>
    obtain ⟨base, hbase, rfl⟩ := Option.map_eq_some_iff.mp hstep
    obtain ⟨hle, hlow, hbelow, hsent⟩ := h.suits hmargin hsuits hstored hbase
    refine ⟨fun hnone => ?_, nofun, h.came, hcounted, h.above, ?_, ?_, ?_,
      h.safe⟩
    · rw [hstored] at hnone
      cases hnone
    · intro a ha
      cases ha
      refine ⟨hle, fun other hother => ?_, hbelow⟩
      rw [hstored] at hother
      exact Option.some.inj hother ▸ hlow
    · exact fun a _ e he heq => absurd heq (hearlier e he)
    · intro a ha
      cases ha
      exact fun w hw _ => hsent w hw

/-- A change that is sent is not outranked by one before it. -/
theorem VersionInv.stream (h : VersionInv s) (hstep : s.stream = some s') : VersionInv s' := by
  obtain ⟨a, ha, rfl⟩ := Option.map_eq_some_iff.mp hstep
  obtain ⟨hle, hlow, hbelow⟩ := h.running a ha
  have hrunning : ∀ b, some { a with next := a.next + 1 } = some b →
      b.base = a.base ∧ b.server = a.server ∧ b.resume = a.resume := by
    rintro b hb
    cases hb
    exact ⟨rfl, rfl, rfl⟩
  have hmoved : VersionInv { s with attempt := some { a with next := a.next + 1 } } := by
    refine ⟨fun hnone => ?_, nofun, h.came, h.streamed, h.above, ?_, ?_, ?_,
      h.safe⟩
    · have hgone := h.anchored hnone
      rw [ha] at hgone
      cases hgone
    · intro b hb
      obtain ⟨hbase, -, -⟩ := hrunning b hb
      rw [hbase]
      exact ⟨hle, hlow, hbelow⟩
    · intro b hb
      obtain ⟨hbase, -, -⟩ := hrunning b hb
      rw [hbase]
      exact h.mine a ha
    · intro b hb
      obtain ⟨hbase, hserver, hresume⟩ := hrunning b hb
      rw [hbase, hserver, hresume]
      exact h.suited a ha
  dsimp only
  split
  · next hsends =>
    have hjoined : ∀ e ∈ s.streamed ++ [⟨s.attempts, a.next, a.base, a.server.numbering a.next⟩],
        e ∈ s.streamed ∨ e = ⟨s.attempts, a.next, a.base, a.server.numbering a.next⟩ :=
      fun e he => (List.mem_append.mp he).imp_right List.mem_singleton.mp
    refine { hmoved with
      fresh := nofun
      came := ?_, streamed := ?_, mine := ?_, safe := ?_ }
    · exact fun w hw => List.mem_append_left _ (h.came w hw)
    · intro e he
      obtain hold | rfl := hjoined e he
      · exact h.streamed e hold
      · exact ⟨le_rfl, hle⟩
    · intro b hb e he heq
      obtain ⟨hbase, -, -⟩ := hrunning b hb
      obtain hold | rfl := hjoined e he
      · exact hmoved.mine b hb e hold heq
      · exact hbase.symm
    · intro e he w hw hattempt hchange
      obtain hold | rfl := hjoined e he
      · exact h.safe e hold w hw hattempt hchange
      · exact h.suited a ha w hw hattempt a.next hchange hsends
  · exact hmoved

/-- What is written now is the running attempt's. -/
theorem VersionInv.write (h : VersionInv s) {change : Streamed}
    (hstep : s.write change = some s') : VersionInv s' := by
  rw [VersionState.write] at hstep
  split at hstep
  · next hmem =>
    obtain ⟨hstreamed, hnow⟩ := hmem
    cases hstep
    have hjoined : ∀ w ∈ s.written ++ [change], w ∈ s.written ∨ w = change := fun w hw =>
      (List.mem_append.mp hw).imp_right List.mem_singleton.mp
    have hbase : ∀ a, s.attempt = some a → change.base = a.base := fun a ha =>
      h.mine a ha change hstreamed hnow
    refine { h with came := ?_, above := ?_, running := ?_, suited := ?_, safe := ?_ }
    · rintro w hw
      obtain hold | rfl := hjoined w hw
      · exact h.came w hold
      · exact hstreamed
    · intro stored hstored
      obtain ⟨hle, habove⟩ := h.above stored hstored
      refine ⟨hle, fun w hw hlt => ?_⟩
      obtain hold | rfl := hjoined w hw
      · exact habove w hold hlt
      · obtain ⟨a, ha⟩ : ∃ a, s.attempt = some a := Option.ne_none_iff_exists'.mp fun hnone => by
          rw [h.fresh hnone] at hstreamed
          cases hstreamed
        have hlow := (h.running a ha).2.1 stored hstored
        rw [hbase a ha] at hlt
        exact absurd hlt (not_lt.mpr hlow)
    · intro a ha
      obtain ⟨hle, hlow, hbelow⟩ := h.running a ha
      refine ⟨hle, hlow, fun w hw => ?_⟩
      obtain hold | rfl := hjoined w hw
      · exact hbelow w hold
      · rw [hbase a ha]
        exact ⟨le_rfl, fun hlt => absurd hlt (lt_irrefl _)⟩
    · intro a ha w hw hearlier
      obtain hold | rfl := hjoined w hw
      · exact h.suited a ha w hold hearlier
      · exact absurd hnow hearlier.ne
    · intro e he w hw hearlier
      obtain hold | rfl := hjoined w hw
      · exact h.safe e he w hold hearlier
      · exact absurd (h.streamed e he).1 (not_le.mpr (hnow ▸ hearlier))
  · cases hstep

/-- The checkpoint takes the running attempt's base. -/
theorem VersionInv.acknowledge (h : VersionInv s) {coordinate : Coordinate} {complete : Bool}
    (hstep : s.acknowledge coordinate complete = some s') : VersionInv s' := by
  obtain ⟨a, ha, hstep⟩ := Option.bind_eq_some_iff.mp hstep
  obtain ⟨hle, -, hbelow⟩ := h.running a ha
  dsimp only at hstep
  split at hstep
  · cases hstep
    refine { h with anchored := nofun, above := ?_, running := ?_ }
    · intro stored hstored
      cases hstored
      exact ⟨hle, fun w hw => (hbelow w hw).2⟩
    · intro b hb
      obtain rfl := Option.some.inj (ha.symm.trans hb)
      refine ⟨hle, fun stored hstored => ?_, hbelow⟩
      cases hstored
      exact le_rfl
  · cases hstep

theorem VersionInv.step (h : VersionInv s) {action : VersionAction}
    (hmargin : withinMargin s action = true) (hsuits : SuitsBase s action)
    (hstep : versionStep s action = some s') : VersionInv s' := by
  cases action with
  | attempt server => exact h.attempt_step hmargin hsuits hstep
  | stream => exact h.stream hstep
  | write change => exact h.write hstep
  | checkpoint coordinate complete => exact h.acknowledge hstep

/-- **Where every attempt that keeps its base finds a server that suits it, versions never
go backwards**, however often the pipeline restarts or fails over. -/
theorem never_backwards (h : versionSystem.ReachUnder
    (fun s action => withinMargin s action = true ∧ SuitsBase s action) s) : NeverBackwards s := by
  have hinv : VersionInv s := h.invariant
    (fun _ hinitial => by
      rw [hinitial]
      exact ⟨fun _ => rfl, fun _ => rfl, nofun, nofun, nofun, nofun, nofun, nofun, nofun⟩)
    fun _ _ _ hinv hguard hstep => hinv.step hguard.1 hguard.2 hstep
  exact hinv.safe

/-- So does anything under a new generation. -/
theorem suits_of_opened {s : VersionState}
    (h : s.checkpoint.all (fun stored => versionBaseFor stored.base stored.token
      (positionToken server.current) ≠ .kept stored.base) = true) :
    SuitsBase s (.attempt server) := by
  intro stored base hstored hkept
  rw [hstored, Option.all_some, decide_eq_true_eq, hkept] at h
  rw [versionBaseFor] at hkept
  split at hkept
  · exact absurd hkept.symm h
  · cases hkept

/-! ## Runs that the kernel follows -/

theorem positionToken_mk {file pos : ℕ} (h : pos < 2 ^ 32) :
    positionToken ⟨file, pos⟩ = file * 2 ^ 32 + pos := by
  rw [positionToken, ← Nat.shiftLeft_add_eq_or_of_lt h, Nat.shiftLeft_eq]

/-- A server that begins a file with every change, and some between them. -/
def Server.steady (first between : ℕ) (current : Coordinate) : Server where
  numbering n := ⟨first + (between + 1) * n, 4⟩
  increasing := by
    intro m n hlt
    have hfile := Nat.mul_lt_mul_of_pos_left hlt (Nat.add_one_pos between)
    rw [positionToken_mk (by norm_num), positionToken_mk (by norm_num)]
    omega
  dumpFrom token := if token < first * 2 ^ 32 + 4 then 0
    else (token - (first * 2 ^ 32 + 4)) / ((between + 1) * 2 ^ 32) + 1
  dumpFrom_le := by
    intro token n
    have htoken : (first + (between + 1) * n) * 2 ^ 32 + 4 =
        first * 2 ^ 32 + 4 + n * ((between + 1) * 2 ^ 32) := by ring
    rw [positionToken_mk (by norm_num), htoken]
    split
    · next hlow => exact iff_of_true n.zero_le (hlow.trans_le (Nat.le_add_right _ _))
    · next hlow =>
      rw [Nat.succ_le_iff, Nat.div_lt_iff_lt_mul (by positivity)]
      omega
  current := current
  gtids := true
  mariadb := false

/-- The primary writes a change in every file from the seventh on, and has none yet. -/
def primary : Server := .steady 7 0 ⟨6, 4⟩

/-- A replica of it, with a numbering of its own, and where it is when it is promoted. -/
def promoted (current : Coordinate) : Server := .steady 1 3 current

/-- The pipeline before its first attempt. -/
def VersionState.start : VersionState := ⟨none, none, 0, [], []⟩

/-- A change is streamed from the primary, written and checkpointed; then the replica is
promoted, two changes in, and the second is streamed from it. -/
def failover (current : Coordinate) : List VersionAction :=
  [.attempt primary, .stream, .write ⟨1, 0, 0, ⟨7, 4⟩⟩, .checkpoint ⟨7, 4⟩ true,
    .attempt (promoted current), .stream, .stream]

/-- A margin that holds, and an attempt that opens a generation or is the first. -/
def opens (s : VersionState) (action : VersionAction) : Bool :=
  withinMargin s action && match action with
    | .attempt server => s.checkpoint.all fun stored => versionBaseFor stored.base stored.token
        (positionToken server.current) ≠ .kept stored.base
    | _ => true

/-- The replica is behind: a generation opens, and the second change outranks the first. -/
theorem failover_behind : ∃ s, versionSystem.runUnder opens .start (failover ⟨5, 4⟩) = some s ∧
    s.streamed.map Streamed.version = [7 * 2 ^ 32 + 4, 7 * 2 ^ 32 + 4 + 2 ^ 40 + 5 * 2 ^ 32 + 4] ∧
    NeverBackwards s := by
  have hrun : (versionSystem.runUnder opens .start (failover ⟨5, 4⟩)).map
      (fun s => s.streamed.map Streamed.version) =
        some [7 * 2 ^ 32 + 4, 7 * 2 ^ 32 + 4 + 2 ^ 40 + 5 * 2 ^ 32 + 4] := by decide +kernel
  obtain ⟨s, hs, hstreamed⟩ := Option.map_eq_some_iff.mp hrun
  refine ⟨s, hs, hstreamed, never_backwards ?_⟩
  refine (Transition.System.ReachUnder.of_runUnder (.initial rfl) hs).mono fun s action h => ?_
  obtain ⟨hmargin, hopens⟩ := Bool.and_eq_true_iff.mp h
  refine ⟨hmargin, ?_⟩
  cases action with
  | attempt server => exact suits_of_opened hopens
  | stream | write change | checkpoint coordinate complete => trivial

/-- The replica is ahead, having rotated its files more often: the base is kept, the
second change is at a lower coordinate than the first, and the target refuses it. -/
theorem failover_ahead : ∃ s,
    versionSystem.ReachUnder (fun s action => withinMargin s action = true) s ∧
      ¬ NeverBackwards s := by
  have hrun : (versionSystem.runUnder withinMargin .start (failover ⟨8, 4⟩)).map
      (fun s => (s.streamed, s.written)) =
        some ([⟨1, 0, 0, ⟨7, 4⟩⟩, ⟨2, 1, 0, ⟨5, 4⟩⟩], [⟨1, 0, 0, ⟨7, 4⟩⟩]) := by decide +kernel
  obtain ⟨s, hs, hrecord⟩ := Option.map_eq_some_iff.mp hrun
  obtain ⟨hstreamed, hwritten⟩ := Prod.mk.inj hrecord
  refine ⟨s, .of_runUnder (.initial rfl) hs, fun h => ?_⟩
  have hle := h ⟨2, 1, 0, ⟨5, 4⟩⟩ (by rw [hstreamed]; decide) ⟨1, 0, 0, ⟨7, 4⟩⟩
    (by rw [hwritten]; decide) (by decide) (by decide)
  exact absurd hle (by decide)

end MySql

end Pg2osync
