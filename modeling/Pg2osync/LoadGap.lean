import Pg2osync.LoadSafety

/-!
# Attempts that cannot resume

An attempt that has no position to stream from loads every table, and what the stream
cannot replay any more is in what the load reads. How far the load of an attempt goes is
decided elsewhere: from the progress documents earlier attempts left behind, which say
nothing of the position they were recorded under. A table that is recorded loaded is not
read again, by whatever attempt, so nothing may be recorded of one when an attempt
begins that cannot resume.
-/

namespace Pg2osync

open LoadRun

/-- What the target holds of the load, the attempt, and the rows it is about. -/
structure AttemptState (κ : Type) : Type where
  /-- the load and its attempt -/
  load : LoadState κ
  /-- the rows of each table that were there when the attempt began, and stay -/
  rows : String → List κ
  /-- ghost: how many rows had been read when an attempt began that could not resume -/
  since : Option ℕ

/-- What happens next. -/
inductive AttemptAction (κ : Type) : Type where
  /-- an attempt starts; the slot is at a position, and the tables hold rows -/
  | start (slot : Option Lsn) (rows : String → List κ) : AttemptAction κ
  /-- the attempt goes on, or ends -/
  | act (action : LoadAction κ) : AttemptAction κ

namespace LoadRun

variable {κ : Type} [LinearOrder κ] (run : LoadRun κ)

/-- The pipeline while its tables hold some rows. -/
def holding (rows : String → List κ) : LoadRun κ :=
  { run with rows := rows }

/-- One action, where it can be taken. -/
def attemptStep (s : AttemptState κ) : AttemptAction κ → Option (AttemptState κ)
  | .start slot rows => (run.step s.load (.start slot)).map fun load =>
      ⟨load, rows, if (run.resume s.load slot).isNone then some s.load.read.length else none⟩
  | .act (.start _) => none
  | .act action => ((run.holding s.rows).step s.load action).map fun load => { s with load := load }

/-- Attempt after attempt, from a pipeline that has never run. -/
def attempts : Transition.System (AttemptState κ) (AttemptAction κ) where
  initial s := run.Fresh s.load ∧ s.since = none
  step := run.attemptStep

/-- **An attempt that cannot resume reads every row again**: of each configured table
that its load has passed, it has read every row since it began. -/
def Rereads (s : AttemptState κ) : Prop :=
  ∀ n point, s.since = some n → s.load.attempt = some point →
    ∀ table ∈ run.tables, table ∉ run.ahead point → ∀ key ∈ s.rows table,
      (table, key) ∈ s.load.read.drop n

/-! ## What is recorded of a table -/

/-- A row that a progress record says is written. -/
def covers (table : String) (p : LoadProgress) (key : κ) : Bool :=
  p.finished || match p.cursor with
    | .ranges boundaries done => ((rangesFromBounds boundaries).take done).any fun range =>
        range.holds (fun literal => run.meaning table [literal]) key
    | .after literals => run.chunked table && literals.length = run.keyColumns table &&
        key ≤ run.meaning table literals

/-- Of no row of a table it is recorded that it was written. -/
def untouched (s : LoadState κ) (table : String) : Bool :=
  (run.stored s table).all fun p => (run.rows table).all fun key => !run.covers table p key

/-- An attempt that cannot resume finds nothing recorded: PostgreSQL's when it starts,
MySQL's unless it discards what is recorded first, and is not left with it then. -/
def beginsAfresh (s : AttemptState κ) : AttemptAction κ → Bool
  | .start slot rows => (run.resume s.load slot).isSome ||
      (run.kind = .mysql && run.unfinished s.load) ||
      run.tables.all fun table => (run.holding rows).untouched s.load table
  | .act (.discard cleared) => cleared || match s.load.attempt with
    | some (.discarding (table :: _)) => (run.holding s.rows).untouched s.load table
    | _ => true
  | .act _ => true

variable {run} {s s' : LoadState κ} {table : String}

/-- What is recorded of an untouched table is so before anything is read. -/
theorem Sound.of_untouched (h : run.untouched s table = true) {p : LoadProgress}
    (hp : run.stored s table = some p) {t : LoadState κ} : run.Sound t table p := by
  have hnone : ∀ key ∈ run.rows table, run.covers table p key = false := by
    intro key hkey
    rw [untouched, hp, Option.all_some, List.all_eq_true] at h
    exact Bool.not_eq_true' _ ▸ h key hkey
  constructor
  · intro hfinished key hkey
    have hcovers := hnone key hkey
    rw [covers, hfinished, Bool.true_or] at hcovers
    cases hcovers
  · intro boundaries done hcursor range hrange key hkey
    obtain ⟨hrow, hholds⟩ := List.mem_filter.mp hkey
    have hcovers := hnone key hrow
    rw [covers, hcursor, Bool.or_eq_false_iff, List.any_eq_false] at hcovers
    exact absurd hholds (hcovers.2 range hrange)
  · intro literals hcursor hchunked hlen key hkey hle
    have hcovers := hnone key hkey
    simp only [covers, hcursor, hchunked, hlen, hle, decide_true, Bool.and_true,
      Bool.or_true] at hcovers
    cases hcovers

theorem untouched_clearState (h : run.untouched s table = true) (other : String) (cleared : Bool) :
    run.untouched (run.clearState s other cleared) table = true := by
  cases cleared with
  | false => exact h
  | true =>
    simp only [untouched, stored, clearState, if_true, Function.update_apply] at h ⊢
    split
    · rfl
    · exact h

theorem untouched_cleared (s : LoadState κ) (table : String) :
    run.untouched (run.clearState s table true) table = true := by
  simp only [untouched, stored, clearState, if_true, Function.update_self, Option.bind_none,
    Option.all_none]

/-! ## One step -/

variable {a : LoadAction κ}

/-- What a step reads does not depend on what has been read. -/
theorem step_read (hstep : run.step s a = some s') :
    ∃ more, s'.read = s.read ++ more ∧
      ∀ read, run.step { s with read := read } a = some { s' with read := read ++ more } := by
  have hquiet : s'.read = s.read →
      (∀ read, run.step { s with read := read } a = some { s' with read := read }) →
      ∃ more, s'.read = s.read ++ more ∧
        ∀ read, run.step { s with read := read } a = some { s' with read := read ++ more } :=
    fun hsame hall => ⟨[], by rw [hsame, List.append_nil], fun read => by
      rw [hall read, List.append_nil]⟩
  cases a <;> simp only [step] at hstep
  case wave =>
    split at hstep
    · next table boundaries done rest hpoint =>
      split at hstep
      · next hdone =>
        obtain rfl := Option.some.inj hstep
        exact ⟨_, rfl, fun read => by simp only [step, hpoint, hdone, if_true]⟩
      · cases hstep
    · cases hstep
  case chunk others =>
    split at hstep
    · next hpoint =>
      obtain rfl := Option.some.inj hstep
      exact ⟨_, rfl, fun read => by simp only [step, hpoint]⟩
    · cases hstep
  case cut boundaries =>
    split at hstep
    · next hpoint =>
      split at hstep
      · next hlong =>
        obtain rfl := Option.some.inj hstep
        exact hquiet rfl fun read => by simp only [step, hpoint, hlong, if_true]; rfl
      · cases hstep
    · cases hstep
  case record =>
    split at hstep
    · next hpoint =>
      obtain rfl := Option.some.inj hstep
      exact hquiet rfl fun read => by simp only [step, hpoint]; rfl
    · next hpoint =>
      split at hstep
      · next hdone =>
        obtain rfl := Option.some.inj hstep
        exact hquiet rfl fun read => by simp only [step, hpoint, hdone, if_true]; rfl
      · cases hstep
    · next hpoint =>
      obtain rfl := Option.some.inj hstep
      exact hquiet rfl fun read => by simp only [step, hpoint]; rfl
    · cases hstep
  case persist token position =>
    split at hstep
    · next hpoint =>
      split at hstep
      · next hstreams =>
        obtain rfl := Option.some.inj hstep
        exact hquiet rfl fun read => by simp only [step, hpoint, hstreams, if_true]
      · cases hstep
    · cases hstep
  all_goals
    split at hstep <;> first
      | cases hstep
        done
      | next hpoint =>
        obtain rfl := Option.some.inj hstep
        exact hquiet rfl fun read => by simp only [step, hpoint] <;> rfl

/-- Everything a table holds, of every configured one. -/
def everything : List (String × κ) :=
  run.tables.flatMap fun table => (run.rows table).map (table, ·)

theorem wholeRead_everything (table : String) (ht : table ∈ run.tables) :
    run.WholeRead { s with read := run.everything } table :=
  fun _ hkey => List.mem_flatMap.mpr ⟨table, ht, List.mem_map_of_mem hkey⟩

/-! ## The invariant -/

variable (run)

/-- What is known of an attempt that could not resume, from what has been read since it
began; nothing is known yet while it discards what is recorded. -/
def Afresh (s : LoadState κ) (n : ℕ) : Prop :=
  run.LoadInv { s with read := s.read.drop n } ∨
    ∃ rest, s.attempt = some (.discarding rest) ∧
      ∀ table ∈ run.tables, table ∉ rest → run.untouched s table = true

/-- What holds between any two steps. -/
structure GapInv (s : AttemptState κ) : Prop where
  /-- what is stored is a record that was written -/
  bounded : ∀ table p, run.stored s.load table = some p → Bounded p
  /-- an attempt is somewhere in its load -/
  account : s.load.attempt.isSome = true →
    ∃ read, (run.holding s.rows).LoadInv { s.load with read := read }
  /-- and one that could not resume has read what it has passed -/
  again : ∀ n, s.since = some n → s.load.attempt.isSome = true →
    n ≤ s.load.read.length ∧ (run.holding s.rows).Afresh s.load n

variable {run}

/-- An attempt is at the start of its load, and nothing is recorded. -/
theorem LoadInv.of_untouched {t : LoadState κ} {point : LoadPoint}
    (huntouched : ∀ table ∈ run.tables, run.untouched t table = true)
    (hbounded : ∀ table p, run.stored t table = some p → Bounded p)
    (hpoint : t.attempt = some point) (hahead : run.ahead point = run.admitted)
    (hhere : run.PointSound t point) : run.LoadInv t where
  docs := ⟨fun table ht _ hp => .of_untouched (huntouched table ht) hp, hbounded⟩
  point := by
    rintro other hother
    obtain rfl := Option.some.inj (hpoint.symm.trans hother)
    exact .of_all hahead hhere
  idle hnone := by rw [hpoint] at hnone; cases hnone

/-- Some account of what has been read fits any idle pipeline. -/
theorem LoadInv.of_idle (hbounded : ∀ table p, run.stored s table = some p → Bounded p)
    (hidle : s.attempt = none) : run.LoadInv { s with read := run.everything } where
  docs := ⟨fun table ht p _ => .of_wholeRead (wholeRead_everything table ht) p, hbounded⟩
  point point hpoint := by
    change s.attempt = some point at hpoint
    rw [hidle] at hpoint
    cases hpoint
  idle _ _ := .inr wholeRead_everything

/-- An attempt that cannot resume goes on to load or discards what is recorded. -/
theorem begin_of_resume_none {slot : Option Lsn} (h : run.resume s slot = none) :
    run.begin s slot = .discarding run.tables ∧ run.kind = .mysql ∧ run.unfinished s = true ∨
      (run.begin s slot = .visiting run.admitted ∨ run.begin s slot = .anchoring) ∧
        (run.kind = .mysql && run.unfinished s) = false := by
  rw [begin, h]
  cases hkind : run.kind with
  | postgres => exact .inr ⟨.inl rfl, rfl⟩
  | mysql =>
    cases hunfinished : run.unfinished s with
    | true => exact .inl ⟨rfl, rfl, rfl⟩
    | false => exact .inr ⟨.inr rfl, rfl⟩

theorem GapInv.start {s : AttemptState κ} (h : run.GapInv s) (hkeys : run.DistinctKeys)
    {slot : Option Lsn} {rows : String → List κ} {load : LoadState κ}
    (hsafe : run.beginsAfresh s (.start slot rows) = true)
    (hstep : run.step s.load (.start slot) = some load) :
    run.GapInv ⟨load, rows,
      if (run.resume s.load slot).isNone then some s.load.read.length else none⟩ := by
  have hidle : s.load.attempt = none := by
    rw [step] at hstep
    split at hstep
    · assumption
    · cases hstep
  obtain rfl : { s.load with attempt := some (run.begin s.load slot) } = load := by
    simp only [step, hidle] at hstep
    exact Option.some.inj hstep
  have hbounded : ∀ table p, (run.holding rows).stored s.load table = some p → Bounded p := h.bounded
  refine ⟨h.bounded, fun _ => ⟨(run.holding rows).everything, ?_⟩, fun n hsince _ => ?_⟩
  · have hbegin := (LoadInv.of_idle hbounded hidle).step hkeys (a := .start slot) rfl
      (by simp only [step, hidle]; rfl)
    exact hbegin
  · split at hsince
    · next hresume =>
      obtain rfl := Option.some.inj hsince
      refine ⟨le_refl _, ?_⟩
      obtain ⟨hbegin, -, -⟩ | ⟨hbegin, hkind⟩ :=
        begin_of_resume_none (Option.isNone_iff_eq_none.mp hresume)
      · exact .inr ⟨run.tables, congrArg some hbegin, fun table ht hnot => absurd ht hnot⟩
      · have huntouched : ∀ table ∈ run.tables, (run.holding rows).untouched s.load table = true := by
          rw [beginsAfresh, Option.isNone_iff_eq_none.mp hresume, hkind, Option.isSome_none,
            Bool.or_self, Bool.false_or, List.all_eq_true] at hsafe
          exact hsafe
        obtain hbegin | hbegin := hbegin
        · exact .inl (.of_untouched huntouched hbounded (congrArg some hbegin) rfl trivial)
        · exact .inl (.of_untouched huntouched hbounded (congrArg some hbegin) rfl trivial)
    · cases hsince

/-- While what is recorded is discarded, nothing else is done. -/
theorem Afresh.discard {n : ℕ} {cleared : Bool} {rest : List String}
    (hbounded : ∀ table p, run.stored s' table = some p → Bounded p)
    (hpoint : s.attempt = some (.discarding rest))
    (hall : ∀ table ∈ run.tables, table ∉ rest → run.untouched s table = true)
    (hsafe : ∀ table rest', rest = table :: rest' → cleared = true ∨ run.untouched s table = true)
    (hstep : run.step s (.discard cleared) = some s') : run.Afresh s' n := by
  rw [step, hpoint] at hstep
  cases rest with
  | nil =>
    obtain rfl := Option.some.inj hstep
    exact .inl (.of_untouched (fun table ht => hall table ht List.not_mem_nil) hbounded rfl rfl
      trivial)
  | cons table rest =>
    obtain rfl := Option.some.inj hstep
    refine .inr ⟨rest, rfl, fun t ht hnot => ?_⟩
    by_cases hsame : t = table
    · obtain rfl := hsame
      obtain rfl | huntouched := hsafe t rest rfl
      · exact untouched_cleared s t
      · exact untouched_clearState huntouched t cleared
    · refine untouched_clearState (hall t ht fun hmem => ?_) table cleared
      exact (List.mem_cons.mp hmem).elim hsame hnot

/-- A step of an attempt needs one. -/
theorem isSome_of_step (hstart : ∀ slot, a ≠ .start slot) (hstep : run.step s a = some s') :
    s.attempt.isSome = true := by
  cases hattempt : s.attempt with
  | some point => rfl
  | none =>
    cases a <;> simp only [step, hattempt, reduceCtorEq] at hstep
    exact absurd rfl (hstart _)

/-- What is recorded is discarded step by step, or the attempt ends. -/
theorem discard_or_stop {rest : List String} (hpoint : s.attempt = some (.discarding rest))
    (hstep : run.step s a = some s') : (∃ cleared, a = .discard cleared) ∨ a = .stop := by
  cases a <;> simp only [step, hpoint, reduceCtorEq, streams, if_false] at hstep
  case discard cleared => exact .inl ⟨cleared, rfl⟩
  case stop => exact .inr rfl

theorem GapInv.act {s : AttemptState κ} (h : run.GapInv s) (hkeys : run.DistinctKeys)
    {load : LoadState κ} (hstart : ∀ slot, a ≠ .start slot)
    (hsafe : run.beginsAfresh s (.act a) = true)
    (hstep : (run.holding s.rows).step s.load a = some load) :
    run.GapInv { s with load := load } := by
  have hsome := isSome_of_step hstart hstep
  obtain ⟨more, hmore, hany⟩ := step_read hstep
  by_cases hstop : a = .stop
  · obtain rfl := hstop
    obtain ⟨point, hpoint⟩ := Option.isSome_iff_exists.mp hsome
    simp only [step, hpoint] at hstep
    obtain rfl := Option.some.inj hstep
    exact ⟨h.bounded, (fun h => by cases h), fun _ _ h => by cases h⟩
  have hkeep : ∀ read, (run.holding s.rows).LoadInv { s.load with read := read } →
      (run.holding s.rows).LoadInv { load with read := read ++ more } := fun read hinv =>
    hinv.step hkeys (by cases a <;> first | rfl | exact absurd rfl hstop) (hany read)
  obtain ⟨read, hread⟩ := h.account hsome
  have hbounded := (hkeep read hread).docs.bounded
  refine ⟨hbounded, fun _ => ⟨_, hkeep read hread⟩, fun n hsince _ => ?_⟩
  obtain ⟨hn, hafresh⟩ := h.again n hsince hsome
  refine ⟨hmore ▸ (List.length_append ▸ Nat.le_add_right_of_le hn), ?_⟩
  obtain hinv | ⟨rest, hpoint, hall⟩ := hafresh
  · refine .inl ?_
    rw [hmore, List.drop_append_of_le_length hn]
    exact hkeep _ hinv
  · obtain ⟨cleared, rfl⟩ | hsame := discard_or_stop hpoint hstep
    · refine Afresh.discard hbounded hpoint hall (fun table rest' heq => ?_) hstep
      rw [beginsAfresh, hpoint, heq, Bool.or_eq_true] at hsafe
      exact hsafe
    · exact absurd hsame hstop

theorem GapInv.step {s s' : AttemptState κ} (h : run.GapInv s) (hkeys : run.DistinctKeys)
    {a : AttemptAction κ} (hsafe : run.beginsAfresh s a = true)
    (hstep : run.attemptStep s a = some s') : run.GapInv s' := by
  cases a with
  | start slot rows =>
    obtain ⟨load, hload, rfl⟩ := Option.map_eq_some_iff.mp hstep
    exact h.start hkeys hsafe hload
  | act a =>
    have hstart : ∀ slot, a ≠ .start slot := by
      rintro slot rfl
      cases hstep
    have hmap : (((run.holding s.rows).step s.load a).map fun load => { s with load := load }) =
        some s' := by
      cases a <;> first | exact hstep | exact absurd rfl (hstart _)
    obtain ⟨load, hload, rfl⟩ := Option.map_eq_some_iff.mp hmap
    exact h.act hkeys hstart hsafe hload

theorem GapInv.rereads {s : AttemptState κ} (h : run.GapInv s) : run.Rereads s := by
  intro n point hsince hpoint table ht hpassed key hkey
  obtain ⟨-, hinv | ⟨rest, hdiscarding, -⟩⟩ := h.again n hsince (by rw [hpoint]; rfl)
  · exact (hinv.point point hpoint).behind table ht hpassed key hkey
  · obtain rfl := Option.some.inj (hpoint.symm.trans hdiscarding)
    refine absurd ?_ hpassed
    simp only [ahead, admitted]
    split
    · exact ht
    · exact List.mem_append_left _ ht

/-! ## Every run -/

/-- **No gap is left on resume, in every run whose attempts begin afresh**: if no two
configured tables share a progress document, and whenever an attempt begins that cannot
resume, nothing is recorded of any row. -/
theorem rereads_of_fresh {s : AttemptState κ} (hkeys : run.DistinctKeys)
    (h : run.attempts.ReachUnder (fun s a => run.beginsAfresh s a = true) s) : run.Rereads s := by
  have hinv : run.GapInv s := by
    refine h.invariant (fun s hs => ?_) fun _ _ _ hs hsafe hstep => GapInv.step hs hkeys hsafe hstep
    obtain ⟨⟨-, hprogress, hidle, -⟩, hsince⟩ := hs
    refine ⟨fun table p hp => ?_, fun hsome => ?_, fun n hn => ?_⟩
    · rw [stored, hprogress] at hp
      cases hp
    · rw [hidle] at hsome
      cases hsome
    · rw [hsince] at hn
      cases hn
  exact hinv.rereads

end LoadRun

/-! ## A finished table -/

/-- The two tables with their rows, and nothing else. -/
def idleAttempts : AttemptState ℕ :=
  ⟨emptyTarget, fun _ => [1], none⟩

theorem idleAttempts_initial : (twoTables .postgres).attempts.initial idleAttempts :=
  ⟨emptyTarget_fresh _, rfl⟩

/-- A run in which an attempt ends right after the first table is cut; the next one cannot
resume either and reads it. -/
def afreshAttempts : List (AttemptAction ℕ) :=
  [.start none fun _ => [1], .act .visit, .act (.cut ["'7'"]), .act .stop,
    .start none fun _ => [1, 2], .act .visit, .act .wave, .act .record, .act .wave, .act .record,
    .act .record]

/-- The second attempt has read both rows of the first table when it is past it. -/
theorem afreshAttempts_rereads : ∃ s,
    (twoTables .postgres).attempts.runUnder (twoTables .postgres).beginsAfresh idleAttempts
      afreshAttempts = some s ∧
    s.load.attempt = some (.visiting ["public.b"]) ∧ (twoTables .postgres).Rereads s := by
  have hrun : ((twoTables .postgres).attempts.runUnder (twoTables .postgres).beginsAfresh
      idleAttempts afreshAttempts).map (·.load.attempt) = some (some (.visiting ["public.b"])) := by
    decide
  obtain ⟨s, hs, hend⟩ := Option.map_eq_some_iff.mp hrun
  refine ⟨s, hs, hend, LoadRun.rereads_of_fresh ?_
    (.of_runUnder (.initial idleAttempts_initial) hs)⟩
  unfold LoadRun.DistinctKeys
  decide

/-- The first table is recorded finished when an attempt ends without a checkpoint, and
changes until the next one begins. -/
def finishedTable : List (AttemptAction ℕ) :=
  [.start none fun _ => [1], .act .visit, .act (.cut []), .act .wave, .act .record, .act .record,
    .act .stop, .start none fun _ => [1, 2], .act .visit]

/-- **A table is skipped by an attempt that cannot resume**: its load passes the table
and reads nothing of it, not even the row that has joined it. -/
theorem finishedTable_skipped : ∃ s,
    (twoTables .postgres).attempts.Reachable s ∧ ¬(twoTables .postgres).Rereads s := by
  have hrun : ((twoTables .postgres).attempts.run idleAttempts finishedTable).map
      (fun s => (s.since, s.load.attempt, s.rows "public.a", s.load.read)) =
        some (some 1, some (.visiting ["public.b"]), [1, 2], [("public.a", 1)]) := by decide
  obtain ⟨s, hs, hend⟩ := Option.map_eq_some_iff.mp hrun
  simp only [Prod.mk.injEq] at hend
  obtain ⟨hsince, hattempt, hrows, hread⟩ := hend
  refine ⟨s, Transition.System.reachable_of_run idleAttempts_initial hs, fun h => ?_⟩
  have hmem := h 1 _ hsince hattempt "public.a" (by decide) (by decide) 2 (by rw [hrows]; decide)
  rw [hread] at hmem
  exact List.not_mem_nil hmem

end Pg2osync
