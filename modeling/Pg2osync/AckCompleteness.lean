import Pg2osync.AckSafety
import Pg2osync.CommitWait

/-!
# Every commit is acknowledged

The source keeps what is not acknowledged. A commit lends its position to the operation
that is last in the buffer then, or goes alone if the buffer is empty; a batch is
acknowledged at the position of its last operation. Copied rows, the load's boundaries
and marks, and a batch's size may put an operation without a position behind one that
has it.

The positions of a run are kept in two lists below: those that went out, one a command,
and those the operations in the buffer have.
-/

namespace Pg2osync

open EngineState

/-! ## Positions -/

/-- The positions that went out and those that are held cover the commits. -/
structure Trail (commits sent held : List Lsn) : Prop where
  /-- a commit has a position -/
  positive : ∀ c ∈ commits, c ≠ 0
  /-- a position is a commit's -/
  known : ∀ x ∈ sent ++ held, x = 0 ∨ x ∈ commits
  /-- what goes out later is later -/
  sorted : ((sent ++ held).filter (· ≠ 0)).Pairwise (· ≤ ·)
  /-- no commit is lost -/
  covers : ∀ c ∈ commits, ∃ x ∈ sent ++ held, c ≤ x
  /-- a position that is last is the latest -/
  latest : ∀ x, held.getLast? = some x → x = 0 ∨ ∀ c ∈ commits, c ≤ x

/-- No position is behind by an operation that has none. -/
def endsStamped (held : List Lsn) : Bool :=
  held.all (· = 0) || held.getLast?.any (· ≠ 0)

/-- The position of a batch with these. -/
def lastPosition (held : List Lsn) : Lsn :=
  held.getLast?.getD 0

namespace Trail

variable {commits sent held zeros init rest : List Lsn} {lsn : Lsn}

theorem start : Trail [] [] [] where
  positive _ h := absurd h List.not_mem_nil
  known _ h := absurd h List.not_mem_nil
  sorted := .nil
  covers _ h := absurd h List.not_mem_nil
  latest _ h := nomatch h

theorem filter_zeros (hzero : ∀ x ∈ zeros, x = 0) : zeros.filter (· ≠ 0) = [] :=
  List.filter_eq_nil_iff.mpr fun x hx => by simp [hzero x hx]

/-- What has no position goes out. -/
theorem send (h : Trail commits sent held) (hzero : ∀ x ∈ zeros, x = 0) :
    Trail commits (sent ++ zeros) held where
  positive := h.positive
  known x hx := by
    simp only [List.mem_append] at hx
    obtain (hx | hx) | hx := hx
    · exact h.known x (List.mem_append_left _ hx)
    · exact .inl (hzero x hx)
    · exact h.known x (List.mem_append_right _ hx)
  sorted := by
    have hsorted := h.sorted
    rw [List.filter_append] at hsorted
    rw [List.filter_append, List.filter_append, filter_zeros hzero, List.append_nil]
    exact hsorted
  covers c hc := by
    obtain ⟨x, hx, hle⟩ := h.covers c hc
    refine ⟨x, ?_, hle⟩
    simp only [List.mem_append] at hx ⊢
    exact hx.imp_left .inl
  latest := h.latest

/-- What has no position joins the buffer. -/
theorem join (h : Trail commits sent held) (hzero : ∀ x ∈ zeros, x = 0) :
    Trail commits sent (held ++ zeros) where
  positive := h.positive
  known x hx := by
    rw [← List.append_assoc] at hx
    exact (List.mem_append.mp hx).elim (h.known x) fun hx => .inl (hzero x hx)
  sorted := by
    rw [← List.append_assoc, List.filter_append, filter_zeros hzero, List.append_nil]
    exact h.sorted
  covers c hc := by
    obtain ⟨x, hx, hle⟩ := h.covers c hc
    exact ⟨x, by rw [← List.append_assoc]; exact List.mem_append_left _ hx, hle⟩
  latest x hx := by
    cases hlast : zeros.getLast? with
    | none =>
      rw [List.getLast?_eq_none_iff.mp hlast, List.append_nil] at hx
      exact h.latest x hx
    | some y =>
      rw [List.getLast?_append, hlast] at hx
      obtain rfl : y = x := Option.some.inj hx
      exact .inl (hzero y (List.mem_of_getLast? hlast))

/-- A commit takes the last place, behind those that are not later. -/
theorem commit (h : Trail commits sent (init ++ rest)) (hlsn : lsn ≠ 0)
    (hlate : ∀ c ∈ commits, c ≤ lsn) : Trail (commits ++ [lsn]) sent (init ++ [lsn]) where
  positive c hc := (List.mem_append.mp hc).elim (h.positive c) fun hc => by
    rw [List.mem_singleton.mp hc]
    exact hlsn
  known x hx := by
    simp only [List.mem_append, List.mem_singleton] at hx ⊢
    obtain hx | hx | rfl := hx
    · exact (h.known x (List.mem_append_left _ hx)).imp_right .inl
    · exact (h.known x (List.mem_append_right _ (List.mem_append_left _ hx))).imp_right .inl
    · exact .inr (.inr rfl)
  sorted := by
    have hsorted := h.sorted
    rw [← List.append_assoc, List.filter_append] at hsorted ⊢
    refine List.pairwise_append.mpr ⟨(List.pairwise_append.mp hsorted).1, ?_, fun a ha b hb => ?_⟩
    · simp [hlsn]
    · obtain ⟨ha, hne⟩ := List.mem_filter.mp ha
      obtain rfl : b = lsn := List.mem_singleton.mp (List.mem_filter.mp hb).1
      have hknown : a ∈ sent ++ (init ++ rest) := by
        rw [← List.append_assoc]
        exact List.mem_append_left _ ha
      exact (h.known a hknown).elim (fun hzero => absurd hzero (of_decide_eq_true hne)) (hlate a)
  covers c hc := by
    obtain hc | hc := List.mem_append.mp hc
    · exact ⟨lsn, by simp, hlate c hc⟩
    · exact ⟨lsn, by simp, (List.mem_singleton.mp hc).le⟩
  latest x hx := by
    rw [List.getLast?_append] at hx
    obtain rfl : lsn = x := Option.some.inj hx
    refine .inr fun c hc => ?_
    exact (List.mem_append.mp hc).elim (hlate c) fun hc => (List.mem_singleton.mp hc).le

/-- A batch that has a position and does not hide it has the latest. -/
theorem le_lastPosition (h : Trail commits sent held) (hends : endsStamped held = true) {x : Lsn}
    (hx : x ∈ held) (hne : x ≠ 0) : ∀ c ∈ commits, c ≤ lastPosition held := by
  rw [endsStamped, Bool.or_eq_true] at hends
  obtain hzero | hlast := hends
  · exact absurd (of_decide_eq_true (List.all_eq_true.mp hzero x hx)) hne
  · obtain ⟨y, hy, hpos⟩ := (Option.any_eq_true _ _).mp hlast
    have hlate := (h.latest y hy).resolve_left (of_decide_eq_true hpos)
    rw [lastPosition, hy]
    exact hlate

/-- The batch goes out. -/
theorem flush (h : Trail commits sent held) (hends : endsStamped held = true) :
    Trail commits (sent ++ [lastPosition held]) [] where
  positive := h.positive
  known x hx := by
    simp only [List.append_nil, List.mem_append, List.mem_singleton] at hx
    obtain hx | rfl := hx
    · exact h.known x (List.mem_append_left _ hx)
    · cases hlast : held.getLast? with
      | none => exact .inl (by rw [lastPosition, hlast]; rfl)
      | some y =>
        rw [lastPosition, hlast]
        exact h.known y (List.mem_append_right _ (List.mem_of_getLast? hlast))
  sorted := by
    have hsorted := h.sorted
    rw [List.append_nil]
    cases hlast : held.getLast? with
    | none =>
      rw [List.getLast?_eq_none_iff.mp hlast, List.append_nil] at hsorted
      have hzero : [lastPosition held].filter (· ≠ 0) = [] := by
        rw [lastPosition, hlast]
        rfl
      rw [List.filter_append, hzero, List.append_nil]
      exact hsorted
    | some y =>
      refine hsorted.sublist (List.Sublist.filter _ (List.Sublist.append_left ?_ sent))
      rw [lastPosition, hlast, Option.getD_some, List.singleton_sublist]
      exact List.mem_of_getLast? hlast
  covers c hc := by
    obtain ⟨x, hx, hle⟩ := h.covers c hc
    obtain hx | hx := List.mem_append.mp hx
    · exact ⟨x, by simp [hx], hle⟩
    · have hne : x ≠ 0 := fun hzero => h.positive c hc (Nat.le_zero.mp (hzero ▸ hle))
      exact ⟨lastPosition held, by simp, h.le_lastPosition hends hx hne c hc⟩
  latest _ h := nomatch h

end Trail

/-! ## What is asked of a run -/

/-- The engine with its record, and the sink loop it feeds. -/
structure AckState : Type where
  /-- the engine -/
  stream : CommitState
  /-- the loop -/
  loop : LoopState

/-- What happens next. -/
inductive AckAction : Type where
  /-- a step of the engine -/
  | engine (action : CommitAction) : AckAction
  /-- a step of the sink loop -/
  | loop (action : LoopAction) : AckAction

/-- How many commands are accounted for: those before the oldest open write, or before
the barrier that is being carried out. -/
def LoopState.accounted (s : LoopState) : ℕ :=
  match s.inflight, s.phase with
  | oldest :: _, _ => oldest.seq
  | [], .draining _ => s.taken.length - 1
  | [], _ => s.taken.length

/-- Which steps of the loop go with the engine: it receives the next command, and a write
that ends well is acknowledged at the position of the last operation of its batch. -/
def AckState.permits (s : AckState) : LoopAction → Bool
  | .receive command => s.stream.engine.commands[s.loop.taken.length]? = some command
  | .complete place (.finished (.ok ack)) =>
    match s.loop.inflight[place]? with
    | some open_ => s.loop.taken[open_.seq]?.any fun command => ack.maxLsn = command.carried
    | none => false
  | _ => true

namespace Engine

variable (engine : Engine) (loop : SinkLoop)

/-- One action of either. -/
def ackStep (s : AckState) : AckAction → Option AckState
  | .engine action => (engine.commitStep s.stream action).map fun next => { s with stream := next }
  | .loop action =>
    if s.permits action then (loop.step s.loop action).map fun next => { s with loop := next }
    else none

/-- The engine and the sink loop as a transition system. -/
def ackSystem : Transition.System AckState AckAction where
  initial s := s = ⟨.start, SinkLoop.start⟩
  step := engine.ackStep loop

end Engine

/-- **Every commit is acknowledged**, as long as the loop is live. -/
structure AckComplete (s : AckState) : Prop where
  /-- a batch that is accounted for takes the acknowledged position to the commits of the
  transactions that were complete when it was handed over and that it has rows of -/
  durable : s.loop.phase.live = true → ∀ k < s.loop.accounted, ∀ cargo,
    s.stream.cargo[k]? = some cargo → ∀ t ∈ cargo, ∀ lsn, s.stream.commits[t]? = some lsn →
      ∃ p, s.loop.acks.ackTx = some p ∧ lsn ≤ p
  /-- when there is nothing left to do, every commit is acknowledged -/
  settled : s.loop.phase.live = true → s.stream.engine.Blocked s.stream.held →
    s.loop.accounted = s.stream.engine.commands.length → ∀ lsn ∈ s.stream.commits,
      ∃ p, s.loop.acks.ackTx = some p ∧ lsn ≤ p

/-- The positions of the operations in a buffer. -/
def positions (buffer : List LsnOp) : List Lsn :=
  buffer.map LsnOp.lsn

/-- Whether an operation in the buffer has a position. -/
def CommitState.holdsPosition (s : CommitState) : Bool :=
  (positions s.engine.buffer).any (· ≠ 0)

/-- The buffer with the operations of a row, and its size. -/
def Engine.joined (engine : Engine) (completions : Completions) (row : RowChange)
    (s : EngineState) : Option (List LsnOp × ℕ) :=
  (engine.mapping.targetFor row.table).bind fun target =>
    match materialize target row.table row.kind engine.rules (engine.previousOf completions row)
      row.version with
    | .ok (ops, _) =>
      let ops := ops.filter fun op => !s.dead op
      some (s.buffer ++ ops.map fun op => ⟨0, op⟩, s.bytes + (ops.map opSize).sum)
    | .error _ => none

/-- Commits come in order, and a buffer that is handed over has the position of its last
commit on its last operation, if on any. -/
def Engine.keepsLast (engine : Engine) (s : CommitState) : CommitAction → Bool
  | .act (.turn _ held again overdue) _ =>
    match s.engine.takeEvent held with
    | some ((_, .commit lsn), e) =>
      if lsn = 0 then endsStamped (positions e.buffer) ||
        (e.tryNext again).isSome && !(e.coalescing && overdue)
      else s.commits.all (· ≤ lsn)
    | some ((_, .loadMark _), e) => e.txnOpen || endsStamped (positions e.buffer)
    | some ((_, .tableTruncated table _), e) =>
      (engine.truncateScope table).isNone || endsStamped (positions e.buffer)
    | _ => true
  | .act .write _ =>
    match s.engine.phase with
    | .writing settings completions ((_, row) :: _) =>
      match engine.joined completions row s.engine with
      | some (buffer, bytes) =>
        buffer.length < settings.batchSize && bytes < settings.batchMaxBytes ||
          endsStamped (positions buffer)
      | none => true
    | _ => true
  | _ => true

/-- What a run is asked to keep to. -/
def Engine.orderly (engine : Engine) (s : AckState) : AckAction → Bool
  | .engine action =>
    engine.keepsLast s.stream action && engine.followed CommitState.holdsPosition s.stream action
  | .loop _ => true

/-! ## The engine -/

/-- The positions that went out. -/
def carriedBy (commands : List SinkCommand) : List Lsn :=
  commands.map SinkCommand.carried

theorem carried_write (batch : List LsnOp) :
    (SinkCommand.write batch).carried = lastPosition (positions batch) := by
  rw [SinkCommand.carried, lastPosition, positions, List.getLast?_map]

variable {command : SinkCommand}

theorem carried_plain (h : command.isPlain = true) : command.carried = 0 := by
  cases command <;> first | rfl | cases h

/-- What holds of the engine between any two steps. -/
structure AckInv (s : CommitState) : Prop where
  /-- the positions cover the commits -/
  trail : Trail s.commits (carriedBy s.engine.commands) (positions s.engine.buffer)
  /-- the record is of the buffer -/
  tracks : s.owners.length = s.engine.buffer.length
  /-- and of the commands -/
  records : s.cargo.length = s.engine.commands.length
  /-- the transactions in the buffer have been seen -/
  begun : ∀ t, some t ∈ s.owners → t ≤ s.commits.length
  /-- a row of a committed transaction is in a buffer that has a position -/
  stamped : ∀ t, some t ∈ s.owners → t < s.commits.length → ∃ x ∈ positions s.engine.buffer, x ≠ 0
  /-- a batch carries what its transactions need -/
  carried : ∀ (k : ℕ) (cargo : List ℕ) (command : SinkCommand), s.cargo[k]? = some cargo →
    s.engine.commands[k]? = some command → ∀ t ∈ cargo, ∃ lsn, s.commits[t]? = some lsn ∧
      lsn ≤ command.carried

theorem carriedBy_plain {commands : List SinkCommand}
    (h : ∀ command ∈ commands, command.isPlain = true) : ∀ x ∈ carriedBy commands, x = 0 := by
  intro x hx
  obtain ⟨command, hmem, rfl⟩ := List.mem_map.mp hx
  exact carried_plain (h command hmem)

namespace AckInv

variable {s : CommitState} {e : EngineState} {owner : Option ℕ} {pos : Lsn} {b : List LsnOp}

/-- What is recorded of a step, if the positions are covered with what the step makes of
the buffer. -/
theorem record (hships : s.engine.Ships pos b e)
    (htracks : s.owners.length = s.engine.buffer.length)
    (hrecords : s.cargo.length = s.engine.commands.length)
    (hbegun : ∀ t, some t ∈ s.owners ∨ some t = owner → t ≤ s.commits.length)
    (htrail : Trail s.commits (carriedBy s.engine.commands ++ carriedBy (announced pos b))
      (positions b))
    (hstamped : ∀ t, some t ∈ s.owners ∨ some t = owner → t < s.commits.length →
      ∃ x ∈ positions b, x ≠ 0)
    (hends : batches (e.commands.drop s.engine.commands.length) = [] ∨
      endsStamped (positions b) = true)
    (hcarried : ∀ (k : ℕ) (cargo : List ℕ) (command : SinkCommand), s.cargo[k]? = some cargo →
      s.engine.commands[k]? = some command → ∀ t ∈ cargo, ∃ lsn, s.commits[t]? = some lsn ∧
        lsn ≤ command.carried) : AckInv (s.record owner e) := by
  -- what was carried before is carried still
  have hold : ∀ (more : List (List ℕ)) (sent : List SinkCommand) (k : ℕ) (cargo : List ℕ)
      (command : SinkCommand), k < s.cargo.length → (s.cargo ++ more)[k]? = some cargo →
      (s.engine.commands ++ sent)[k]? = some command → ∀ t ∈ cargo, ∃ lsn,
        s.commits[t]? = some lsn ∧ lsn ≤ command.carried := by
    intro more sent k cargo command hk hcargo hcommand
    rw [List.getElem?_append_left hk] at hcargo
    rw [List.getElem?_append_left (hrecords ▸ hk)] at hcommand
    exact hcarried k cargo command hcargo hcommand
  obtain ⟨owners, hlength, hmem, ⟨hb, rest, hplain, hsent, heq⟩ |
    ⟨hpos, hempty, rest, hplain, hsent, heq⟩⟩ := CommitState.record_cases owner hships htracks
  · rw [heq]
    refine ⟨?_, hlength.trans (congrArg List.length hb.symm), ?_, fun t ht => ?_, ?_, ?_⟩
    · simp only [hsent, hb]
      rw [carriedBy, List.map_append, List.map_append, ← List.append_assoc]
      exact htrail.send (carriedBy_plain hplain)
    · simp only [hsent, List.length_append, List.length_map, hrecords]
    · exact hbegun t (hmem _ ht)
    · intro t ht hlt
      simp only [hb]
      exact hstamped t (hmem _ ht) hlt
    · intro k cargo command hcargo hcommand t ht
      simp only [hsent] at hcommand
      by_cases hk : k < s.cargo.length
      · exact hold _ _ k cargo command hk hcargo hcommand t ht
      · -- a command that is not a batch carries nothing
        rw [List.getElem?_append_right (by omega), List.getElem?_map] at hcargo
        obtain ⟨_, -, rfl⟩ := Option.map_eq_some_iff.mp hcargo
        cases ht
  · have hannounced : carriedBy (announced pos b) = [] := by
      rw [announced, if_neg fun h => h.2 (hpos h.1)]
      rfl
    rw [hannounced, List.append_nil] at htrail
    have hends : endsStamped (positions b) = true := by
      refine hends.resolve_left fun hnone => ?_
      rw [hsent, List.drop_left] at hnone
      cases hnone
    rw [heq]
    refine ⟨?_, (congrArg List.length hempty).symm, ?_, ?_, ?_, ?_⟩
    · have hflushed := (htrail.flush hends).send (carriedBy_plain hplain)
      simp only [hsent, hempty]
      rw [carriedBy, List.map_append, List.map_cons, carried_write]
      rw [List.append_assoc, List.singleton_append] at hflushed
      exact hflushed
    · simp only [hsent, List.length_append, List.length_cons, List.length_map, hrecords]
    · exact fun t ht => absurd ht List.not_mem_nil
    · exact fun t ht => absurd ht List.not_mem_nil
    · intro k cargo command hcargo hcommand t ht
      simp only [hsent] at hcommand
      by_cases hk : k < s.cargo.length
      · exact hold _ _ k cargo command hk hcargo hcommand t ht
      · rw [List.getElem?_append_right (by omega)] at hcargo
        rw [List.getElem?_append_right (by omega), ← hrecords] at hcommand
        cases hnth : k - s.cargo.length with
        | zero =>
          rw [hnth, List.getElem?_cons_zero] at hcargo hcommand
          obtain rfl := Option.some.inj hcargo
          obtain rfl := Option.some.inj hcommand
          obtain ⟨o, ho, hfilter⟩ := List.mem_filterMap.mp ht
          obtain ⟨rfl, hlt⟩ := Option.filter_eq_some_iff.mp hfilter
          have hlt : t < s.commits.length := of_decide_eq_true hlt
          obtain ⟨x, hx, hne⟩ := hstamped t (hmem _ ho) hlt
          refine ⟨s.commits[t], List.getElem?_eq_getElem hlt, ?_⟩
          rw [carried_write]
          exact htrail.le_lastPosition hends hx hne _ (List.getElem_mem hlt)
        | succ n =>
          rw [hnth, List.getElem?_cons_succ, List.getElem?_map] at hcargo
          obtain ⟨_, -, rfl⟩ := Option.map_eq_some_iff.mp hcargo
          cases ht

end AckInv

variable {settings : EngineSettings} {origin : Origin}

namespace Engine

variable {engine : Engine} {e : EngineState}

open EngineState

/-- A turn without a commit of the stream hands nothing over, or a buffer that ends in
its last position. -/
theorem handle_ends {s : CommitState} {held again overdue spent : Bool} {ev : ChangeEvent}
    {taken : EngineState} (htake : s.engine.takeEvent held = some ((origin, ev), taken))
    (hkeeps : engine.keepsLast s (.act (.turn settings held again overdue) spent) = true)
    (hstream : ∀ lsn, ev = .commit lsn → lsn = 0) :
    batches ((engine.handle settings again overdue taken (origin, ev)).commands.drop
      taken.commands.length) = [] ∨ endsStamped (positions taken.buffer) = true := by
  cases ev with
  | begin _ | row _ | loadStarted | loadFinished | schemaDrift _ _ =>
    exact .inl (Quiet.batches_eq (.of_eq rfl rfl rfl))
  | commit lsn =>
    obtain rfl := hstream lsn rfl
    simp only [keepsLast, htake, if_true, Bool.or_eq_true] at hkeeps
    exact hkeeps.symm.imp_left fun hwaits => (quiet_boundary hwaits).batches_eq
  | loadMark mark =>
    simp only [keepsLast, htake, Bool.or_eq_true] at hkeeps
    exact hkeeps.imp_left fun hopen => ((delivers_mark mark taken).2.1 hopen).batches_eq
  | tableTruncated table version =>
    simp only [keepsLast, htake, Bool.or_eq_true, Option.isNone_iff_eq_none] at hkeeps
    refine hkeeps.imp_left fun hnone => ?_
    have hsame : engine.truncate table version taken = taken := by
      rw [Engine.truncate, hnone]
    rw [handle, hsame]
    exact (Quiet.refl taken).batches_eq

/-- A row's operations join the buffer, which goes out if it is full. -/
theorem writeRow_joined {s : EngineState} {completions : Completions} {row : RowChange}
    (h : engine.writeRow settings completions origin row s = .ok e) :
    (engine.joined completions row s = none ∧ e = s) ∨
      ∃ ops : List DocumentOp,
        engine.joined completions row s =
          some (s.buffer ++ ops.map fun op => ⟨0, op⟩, s.bytes + (ops.map opSize).sum) ∧
        e = bufferOps settings origin ops s := by
  rw [joined]
  obtain ⟨hnone, rfl⟩ | ⟨target, ops, left, htarget, hops, rfl⟩ := writeRow_ok h
  · exact .inl ⟨by rw [hnone]; rfl, rfl⟩
  · exact .inr ⟨ops.filter fun op => !s.dead op, by simp only [htarget, Option.bind_some, hops], rfl⟩

end Engine

theorem stamp_concat (lsn : Lsn) (init : List LsnOp) (op : LsnOp) :
    stamp lsn (init ++ [op]) = init ++ [{ op with lsn := lsn }] := by
  rw [stamp, List.length_append, List.length_singleton, Nat.add_sub_cancel]
  rw [List.modify_eq_take_cons_drop (by simp), List.take_left', List.drop_eq_nil_of_le (by simp)]
  · simp
  · rfl

namespace AckInv

variable {engine : Engine} {s : CommitState} {e : EngineState}

theorem announced_zero (b : List LsnOp) : announced 0 b = [] :=
  if_neg fun h => h.2 rfl

theorem stampedBy_zero (b : List LsnOp) : stampedBy 0 b = b :=
  if_pos rfl

/-- The commit goes last, in the buffer or alone. -/
theorem trail_commit {lsn : Lsn} (htrail : Trail s.commits (carriedBy s.engine.commands)
    (positions s.engine.buffer)) (hlsn : lsn ≠ 0) (hlate : ∀ c ∈ s.commits, c ≤ lsn) :
    Trail (s.commits ++ [lsn]) (carriedBy s.engine.commands ++
        carriedBy (announced lsn (stampedBy lsn s.engine.buffer)))
      (positions (stampedBy lsn s.engine.buffer)) ∧
    endsStamped (positions (stampedBy lsn s.engine.buffer)) = true ∧
    (s.engine.buffer ≠ [] → lsn ∈ positions (stampedBy lsn s.engine.buffer)) := by
  rw [stampedBy, if_neg hlsn]
  obtain hnil | ⟨init, op, hconcat⟩ := List.eq_nil_or_concat s.engine.buffer
  · rw [hnil] at htrail ⊢
    have hheld : Trail (s.commits ++ [lsn]) (carriedBy s.engine.commands) ([] ++ [lsn]) :=
      Trail.commit (by rw [List.nil_append]; exact htrail) hlsn hlate
    have hsent := hheld.flush (by simp [endsStamped])
    refine ⟨?_, rfl, fun h => absurd rfl h⟩
    have hannounced : announced lsn (stamp lsn []) = [.position lsn] :=
      if_pos ⟨rfl, hlsn⟩
    rw [hannounced]
    exact hsent
  · rw [List.concat_eq_append] at hconcat
    rw [hconcat, positions, List.map_append] at htrail
    rw [hconcat, stamp_concat, positions, List.map_append]
    have hlast := htrail.commit hlsn hlate
    refine ⟨?_, ?_, fun _ => by simp⟩
    · have hannounced : announced lsn (init ++ [{ op with lsn := lsn }]) = [] :=
        if_neg fun h => absurd h.1 (by simp)
      rw [hannounced]
      exact (List.append_nil (carriedBy s.engine.commands)).symm ▸ hlast
    · simp [endsStamped, hlsn]

/-- A turn of the loop. -/
theorem turn (h : AckInv s) {held again overdue spent : Bool} {ev : ChangeEvent}
    {taken : EngineState} (htake : s.engine.takeEvent held = some ((origin, ev), taken))
    (hkeeps : engine.keepsLast s (.act (.turn settings held again overdue) spent) = true) :
    AckInv ((s.note ev).record none (engine.handle settings again overdue taken (origin, ev))) := by
  obtain ⟨hlog, hbuffer, hcommands, -⟩ := takeEvent_frame htake
  have hships := (engine.ships_handle settings again overdue taken (origin, ev)).after hlog
    hbuffer hcommands
  have hnobody : ∀ t, some t ∈ s.owners ∨ some t = none → some t ∈ s.owners := fun t hmem =>
    hmem.resolve_right nofun
  by_cases hstream : ∀ lsn, ev = .commit lsn → lsn = 0
  · have hends := engine.handle_ends htake hkeeps hstream
    obtain ⟨hsame, hzero⟩ : s.note ev = s ∧ ev.position = 0 := by
      cases ev with
      | commit lsn =>
        rw [hstream lsn rfl]
        exact ⟨by simp only [CommitState.note, if_true], rfl⟩
      | _ => exact ⟨rfl, rfl⟩
    rw [hsame]
    dsimp only at hships
    rw [hzero, hbuffer, stampedBy_zero] at hships
    rw [hcommands, hbuffer] at hends
    refine record hships h.tracks h.records (fun t ht => h.begun t (hnobody t ht)) ?_
      (fun t ht => h.stamped t (hnobody t ht)) hends h.carried
    rw [announced_zero]
    exact (List.append_nil (carriedBy s.engine.commands)).symm ▸ h.trail
  · simp only [not_forall] at hstream
    obtain ⟨lsn, rfl, hlsn⟩ := hstream
    have hlate : ∀ c ∈ s.commits, c ≤ lsn := by
      simp only [Engine.keepsLast, htake, if_neg hlsn] at hkeeps
      exact fun c hc => of_decide_eq_true (List.all_eq_true.mp hkeeps c hc)
    obtain ⟨htrail, hends, hlast⟩ := trail_commit h.trail hlsn hlate
    have hnote : s.note (.commit lsn) = { s with commits := s.commits ++ [lsn] } := if_neg hlsn
    rw [hnote]
    dsimp only [ChangeEvent.position] at hships
    rw [hbuffer] at hships
    refine record (s := { s with commits := s.commits ++ [lsn] }) hships h.tracks h.records ?_ htrail
      ?_ (.inr hends) ?_
    · intro t ht
      have hbegun := h.begun t (hnobody t ht)
      rw [List.length_append]
      omega
    · -- what is in the buffer is committed now
      intro t ht _
      refine ⟨lsn, hlast fun hempty => ?_, hlsn⟩
      have hnone : s.owners = [] := by
        rw [← List.length_eq_zero_iff, h.tracks, hempty, List.length_nil]
      have hmem := hnobody t ht
      rw [hnone] at hmem
      cases hmem
    · intro k cargo command hcargo hcommand t ht
      obtain ⟨c, hc, hle⟩ := h.carried k cargo command hcargo hcommand t ht
      exact ⟨c, (List.getElem?_append_left (List.getElem?_eq_some_iff.mp hc).1).trans hc, hle⟩

/-- A row is written. -/
theorem writeRow (h : AckInv s) {completions : Completions} {row : RowChange}
    {rest : List (Origin × RowChange)} {spent : Bool}
    (hphase : s.engine.phase = .writing settings completions ((origin, row) :: rest))
    (hkeeps : engine.keepsLast s (.act .write spent) = true) {after : EngineState}
    (hrow : engine.writeRow settings completions origin row s.engine = .ok e)
    (hafter : after.log = e.log ∧ after.buffer = e.buffer ∧ after.commands = e.commands) :
    AckInv (s.record s.owner after) := by
  simp only [Engine.keepsLast, hphase] at hkeeps
  have howner : ∀ t, some t = s.owner → t = s.commits.length := fun t ht => by
    rw [CommitState.owner, hphase] at ht
    cases origin with
    | stream => exact Option.some.inj ht
    | copy => cases ht
  have hbegun : ∀ t, some t ∈ s.owners ∨ some t = s.owner → t ≤ s.commits.length := fun t ht =>
    ht.elim (h.begun t) fun hnew => (howner t hnew).le
  -- a new row's transaction is not committed
  have hstamped : ∀ t, some t ∈ s.owners ∨ some t = s.owner → t < s.commits.length →
      ∃ x ∈ positions s.engine.buffer, x ≠ 0 := fun t ht hlt =>
    ht.elim (fun hold => h.stamped t hold hlt) fun hnew => absurd hlt (by rw [howner t hnew]; omega)
  obtain ⟨-, rfl⟩ | ⟨ops, hjoined, rfl⟩ := Engine.writeRow_joined hrow
  · have hships : s.engine.Ships 0 s.engine.buffer after := .of_eq hafter.1 hafter.2.1 hafter.2.2
    refine record hships h.tracks h.records hbegun ?_ hstamped (.inl ?_) h.carried
    · rw [announced_zero]
      exact (List.append_nil (carriedBy s.engine.commands)).symm ▸ h.trail
    · rw [hafter.2.2, List.drop_length]
      rfl
  · obtain ⟨hships, hfits⟩ := Engine.ships_bufferOps settings origin ops s.engine
    have hzero : ∀ x ∈ positions (ops.map fun op => (⟨0, op⟩ : LsnOp)), x = 0 := by
      intro x hx
      rw [positions, List.map_map] at hx
      obtain ⟨_, -, rfl⟩ := List.mem_map.mp hx
      rfl
    have hpositions : positions (s.engine.buffer ++ ops.map fun op => ⟨0, op⟩) =
        positions s.engine.buffer ++ positions (ops.map fun op => ⟨0, op⟩) := List.map_append
    refine record (hships.same hafter.1 hafter.2.1 hafter.2.2) h.tracks h.records hbegun ?_ ?_ ?_
      h.carried
    · rw [announced_zero, hpositions]
      exact (List.append_nil (carriedBy s.engine.commands)).symm ▸ h.trail.join hzero
    · intro t ht hlt
      obtain ⟨x, hx, hne⟩ := hstamped t ht hlt
      exact ⟨x, by rw [hpositions]; exact List.mem_append_left _ hx, hne⟩
    · simp only [hjoined, Bool.or_eq_true, Bool.and_eq_true, decide_eq_true_eq] at hkeeps
      refine hkeeps.imp_left fun hroom => ?_
      rw [hafter.2.2, hfits hroom.1 hroom.2, List.drop_length]
      rfl

/-- A step that leaves the buffer and the commands as they are. -/
theorem still (h : AckInv s) {owner : Option ℕ}
    (howner : ∀ t, some t = owner → t = s.commits.length) (hlog : e.log = s.engine.log)
    (hbuffer : e.buffer = s.engine.buffer) (hcommands : e.commands = s.engine.commands) :
    AckInv (s.record owner e) := by
  refine record (.of_eq hlog hbuffer hcommands) h.tracks h.records ?_ ?_ ?_ (.inl ?_) h.carried
  · exact fun t ht => ht.elim (h.begun t) fun hnew => (howner t hnew).le
  · rw [announced_zero]
    exact (List.append_nil (carriedBy s.engine.commands)).symm ▸ h.trail
  · exact fun t ht hlt => ht.elim (fun hold => h.stamped t hold hlt) fun hnew =>
      absurd hlt (by rw [howner t hnew]; omega)
  · rw [hcommands, List.drop_length]
    rfl

theorem owner_eq {t : ℕ} (h : some t = s.owner) : t = s.commits.length := by
  rw [CommitState.owner] at h
  split at h
  · exact Option.some.inj h
  · cases h

/-- One action of the engine, if it keeps the last position last. -/
theorem step (h : AckInv s) {s' : CommitState} {action : CommitAction}
    (hkeeps : engine.keepsLast s action = true) (hstep : engine.commitStep s action = some s') :
    AckInv s' := by
  cases action with
  | release =>
    cases hstep
    exact ⟨h.trail, h.tracks, h.records, h.begun, h.stamped, h.carried⟩
  | act action spent =>
    simp only [Engine.commitStep] at hstep
    split at hstep
    · next hfinds =>
      obtain ⟨next, hnext, rfl⟩ := Option.map_eq_some_iff.mp hstep
      suffices hinv : AckInv next from
        ⟨hinv.trail, hinv.tracks, hinv.records, hinv.begun, hinv.stamped, hinv.carried⟩
      obtain ⟨e, he, rfl⟩ := Option.map_eq_some_iff.mp hnext
      cases action with
      | turn settings held again overdue =>
        simp only [Engine.step] at he
        split at he
        · obtain ⟨⟨⟨origin, ev⟩, taken⟩, htake, rfl⟩ := Option.map_eq_some_iff.mp he
          simp only [htake]
          exact h.turn htake hkeeps
        · cases he
      | write =>
        simp only [Engine.step] at he
        split at he
        · next settings completions origin row rest hphase =>
          split at he
          · next hrow =>
            cases he
            exact h.writeRow hphase hkeeps hrow ⟨rfl, rfl, rfl⟩
          · cases he
            exact h.still (fun t => owner_eq) rfl rfl rfl
        · cases he
          exact h.still (fun t => owner_eq) rfl rfl rfl
        · cases he
      | feed event | feedCopy event | gather held | fetch read | closeEvents | closeCopy | shutdown
        | sinkGone =>
        obtain ⟨hbuffer, hcommands, -, hlog⟩ := step_outside (by simp) (by simp) he
        exact h.still (fun t => owner_eq) hlog hbuffer hcommands
    · cases hstep

end AckInv

/-- A position is something that should not wait. -/
theorem pending_holdsPosition : Pending CommitState.holdsPosition where
  empty s _ hempty := by
    rw [CommitState.holdsPosition, hempty]
    rfl
  same s s' hbuffer _ _ hnone := by
    rw [CommitState.holdsPosition, hbuffer]
    exact hnone

/-! ## The sink loop -/

/-- The commands that are taken and waited for as a barrier. -/
def Phase.waits : Phase → ℕ
  | .draining _ => 1
  | _ => 0

/-- What is accounted for is covered by the acknowledged position. -/
def Covered (taken : List SinkCommand) (ackTx : Option Lsn) (n : ℕ) : Prop :=
  ∀ (k : ℕ) (command : SinkCommand), k < n → taken[k]? = some command →
    command.carried = 0 ∨ ∃ p, ackTx = some p ∧ command.carried ≤ p

/-- What holds of the loop between any two steps. -/
structure LoopAcked (s : LoopState) : Prop where
  /-- before the start nothing has been taken -/
  fresh : s.phase = .starting → s.inflight = [] ∧ s.taken = []
  /-- the open writes come one after another, behind what is accounted for -/
  places : s.phase.live = true →
    s.inflight.map OpenWrite.seq = List.range' s.accounted s.inflight.length ∧
      s.accounted + s.inflight.length + s.phase.waits = s.taken.length
  /-- the barrier waited for is the last command taken -/
  barrier : ∀ command, s.phase = .draining command → s.taken.getLast? = some command
  /-- a write that ended well is acknowledged at its batch's position -/
  outcomes : ∀ w ∈ s.inflight, ∀ ack, w.outcome = some (.finished (.ok ack)) →
    ∃ command, s.taken[w.seq]? = some command ∧ ack.maxLsn = command.carried
  /-- what is accounted for is covered -/
  covered : s.phase.live = true → Covered s.taken s.acks.ackTx s.accounted

/-- What goes out later is later. -/
def InOrder (taken : List SinkCommand) : Prop :=
  ((carriedBy taken).filter (· ≠ 0)).Pairwise (· ≤ ·)

variable {taken : List SinkCommand}

theorem InOrder.le (h : InOrder taken) {j k : ℕ} {earlier later : SinkCommand}
    (hj : taken[j]? = some earlier) (hk : taken[k]? = some later) (hjk : j < k)
    (hearlier : earlier.carried ≠ 0) (hlater : later.carried ≠ 0) :
    earlier.carried ≤ later.carried := by
  have hpair := List.pairwise_iff_getElem.mp (List.pairwise_map.mp (List.pairwise_filter.mp h))
  obtain ⟨hjlt, hj⟩ := List.getElem?_eq_some_iff.mp hj
  obtain ⟨hklt, hk⟩ := List.getElem?_eq_some_iff.mp hk
  have hle := hpair j k hjlt hklt hjk
  rw [hj, hk] at hle
  exact hle (decide_eq_true hearlier) (decide_eq_true hlater)

/-- The acknowledged position after a command's is published, if it has one. -/
def published (ackTx : Option Lsn) (p : Lsn) : Option Lsn :=
  if 0 < p then some p else ackTx

/-- One more command is accounted for. -/
theorem Covered.publish {ackTx : Option Lsn} {n : ℕ} (h : Covered taken ackTx n)
    (horder : InOrder taken) (hn : taken[n]? = some command) :
    Covered taken (published ackTx command.carried) (n + 1) := by
  intro k other hk hother
  rw [published]
  obtain hlt | rfl := Nat.lt_succ_iff_lt_or_eq.mp hk
  · by_cases hzero : other.carried = 0
    · exact .inl hzero
    · refine .inr ?_
      split
      · next hpos => exact ⟨_, rfl, horder.le hother hn hlt hzero (Nat.ne_of_gt hpos)⟩
      · exact (h k other hlt hother).resolve_left hzero
  · obtain rfl := Option.some.inj (hn.symm.trans hother)
    by_cases hzero : command.carried = 0
    · exact .inl hzero
    · exact .inr ⟨_, if_pos (Nat.pos_of_ne_zero hzero), le_rfl⟩

/-- Nothing of what is covered is lost when more is taken. -/
theorem Covered.append {ackTx : Option Lsn} {n : ℕ} (h : Covered taken ackTx n)
    (hn : n ≤ taken.length) (more : List SinkCommand) :
    Covered (taken ++ more) ackTx n := fun k command hk hcommand => by
  rw [List.getElem?_append_left (lt_of_lt_of_le hk hn)] at hcommand
  exact h k command hk hcommand

theorem Acks.ackTx_publish (acks : Acks) (seq : ℕ) (p : Lsn) :
    (acks.publish seq p).ackTx = published acks.ackTx p := by
  rw [publish, published]
  split <;> rfl

variable {acks : Acks}

/-- If the loop carries on, the position of what it accounted for is published. -/
theorem Acks.ackTx_apply {loop : SinkLoop} {seq : ℕ} {filed : Except CoreError Unit} {ack : SinkAck}
    (h : (acks.apply loop seq filed (.ok (some ack))).1 = true) :
    (acks.apply loop seq filed (.ok (some ack))).2.ackTx = published acks.ackTx ack.maxLsn := by
  simp only [apply, acknowledge] at h ⊢
  split
  · exact ackTx_publish ..
  · next hsome =>
    rw [if_neg hsome] at h
    split
    · next hhalt =>
      rw [if_pos hhalt] at h
      cases h
    · next hhalt =>
      rw [if_neg hhalt] at h
      split
      · next hfull =>
        rw [if_pos hfull] at h
        cases h
      · next hfull =>
        rw [if_neg hfull] at h
        obtain e | ⟨⟩ := filed
        · cases h
        · dsimp only at h ⊢
          split
          · next hlimit =>
            rw [if_pos hlimit] at h
            cases h
          · exact ackTx_publish ..

namespace LoopAcked

variable {loop : SinkLoop} {s s' : LoopState}

theorem start : LoopAcked SinkLoop.start where
  fresh _ := ⟨rfl, rfl⟩
  places h := by cases h
  barrier _ h := by cases h
  outcomes _ h := absurd h List.not_mem_nil
  covered h := by cases h

theorem accounted_cons {w : OpenWrite} {rest : List OpenWrite} (h : s.inflight = w :: rest) :
    s.accounted = w.seq := by
  rw [LoopState.accounted, h]

theorem accounted_nil (h : s.inflight = []) : s.accounted = s.taken.length - s.phase.waits := by
  rw [LoopState.accounted, h]
  cases s.phase <;> rfl

/-- A loop that is over owes nothing. -/
theorem of_ended (hlive : s.phase.live = false) (hphase : s.phase ≠ .starting)
    (hnone : s.inflight = []) : LoopAcked s where
  fresh h := absurd h hphase
  places h := by
    rw [hlive] at h
    cases h
  barrier command h := by
    rw [h] at hlive
    cases hlive
  outcomes w hw := by
    rw [hnone] at hw
    cases hw
  covered h := by
    rw [hlive] at h
    cases h

theorem accounted_congr (hseqs : s'.inflight.map OpenWrite.seq = s.inflight.map OpenWrite.seq)
    (hphase : s'.phase = s.phase) (htaken : s'.taken = s.taken) : s'.accounted = s.accounted := by
  cases hs : s.inflight with
  | nil =>
    rw [hs] at hseqs
    rw [accounted_nil (List.map_eq_nil_iff.mp hseqs), accounted_nil hs, hphase, htaken]
  | cons w rest =>
    rw [hs] at hseqs
    obtain ⟨w', rest', hs', hseq, -⟩ := List.map_eq_cons_iff.mp hseqs
    rw [accounted_cons hs', accounted_cons hs, hseq]

/-- The quarantine is counted. -/
theorem begins (h : LoopAcked s) (hphase : s.phase = .starting) (total : ℕ) :
    LoopAcked { s with phase := .receiving, acks := { s.acks with quarantined := total } } := by
  obtain ⟨hinflight, htaken⟩ := h.fresh hphase
  have hzero : LoopState.accounted
      { s with phase := .receiving, acks := { s.acks with quarantined := total } } = 0 := by
    refine (accounted_nil ?_).trans ?_
    · exact hinflight
    · simp [htaken]
  refine { fresh := nofun, places := fun _ => ?_, barrier := nofun, outcomes := h.outcomes,
           covered := fun _ k _ hk => ?_ }
  · rw [hzero, hinflight, htaken]
    exact ⟨rfl, rfl⟩
  · rw [hzero] at hk
    cases hk

/-- A write ends. -/
theorem complete (h : LoopAcked s) {place seq : ℕ} {joined : Joined}
    (hplace : s.inflight[place]? = some ⟨seq, none⟩)
    (hack : ∀ ack, joined = .finished (.ok ack) → ∃ command, s.taken[seq]? = some command ∧
      ack.maxLsn = command.carried) :
    LoopAcked { s with
      inflight := s.inflight.set place ⟨seq, some joined⟩
      done := (seq, joined) :: s.done } := by
  have hseqs : (s.inflight.set place ⟨seq, some joined⟩).map OpenWrite.seq =
      s.inflight.map OpenWrite.seq := by
    have hself : (s.inflight.map OpenWrite.seq)[place]? = some seq := by
      rw [List.getElem?_map, hplace]
      rfl
    obtain ⟨hlt, hseq⟩ := List.getElem?_eq_some_iff.mp hself
    rw [List.map_set]
    exact hseq ▸ List.set_getElem_self hlt
  have haccounted : LoopState.accounted { s with
      inflight := s.inflight.set place ⟨seq, some joined⟩
      done := (seq, joined) :: s.done } = s.accounted := accounted_congr hseqs rfl rfl
  refine ⟨fun hstart => ?_, fun hlive => ?_, h.barrier, fun w hw ack hend => ?_, fun hlive => ?_⟩
  · obtain ⟨hnone, htaken⟩ := h.fresh hstart
    exact ⟨by simp [hnone], htaken⟩
  · rw [haccounted, hseqs, List.length_set]
    exact h.places hlive
  · obtain hold | rfl := List.mem_or_eq_of_mem_set hw
    · exact h.outcomes w hold ack hend
    · exact hack ack (Option.some.inj hend)
  · rw [haccounted]
    exact h.covered hlive

/-- The oldest open write is accounted for, and the loop carries on. -/
theorem account (h : LoopAcked s) (horder : InOrder s.taken) (hlive : s.phase.live = true) {seq : ℕ}
    {ack : SinkAck} {rest : List OpenWrite}
    (hfront : s.inflight = ⟨seq, some (.finished (.ok ack))⟩ :: rest)
    (hpublished : acks.ackTx = published s.acks.ackTx ack.maxLsn) :
    LoopAcked { s with inflight := rest, acks := acks } := by
  obtain ⟨hplaces, hlength⟩ := h.places hlive
  rw [accounted_cons hfront, hfront] at hplaces hlength
  simp only [List.map_cons, List.length_cons, List.range'_succ, List.cons.injEq, true_and] at hplaces
  simp only [List.length_cons] at hlength
  have haccounted : LoopState.accounted { s with inflight := rest, acks := acks } = seq + 1 := by
    cases hrest : rest with
    | nil =>
      refine (accounted_nil rfl).trans ?_
      rw [hrest, List.length_nil] at hlength
      dsimp only
      omega
    | cons w more =>
      rw [hrest, List.map_cons, List.length_cons, List.range'_succ] at hplaces
      exact (List.cons.inj hplaces).1
  refine ⟨fun hstart => ?_, fun _ => ?_, h.barrier, fun w hw => h.outcomes w ?_, fun _ => ?_⟩
  · rw [show s.phase = .starting from hstart] at hlive
    cases hlive
  · rw [haccounted]
    refine ⟨hplaces, ?_⟩
    dsimp only
    omega
  · rw [hfront]
    exact List.mem_cons_of_mem _ hw
  · rw [haccounted]
    obtain ⟨command, hcommand, hmax⟩ := h.outcomes _ (hfront ▸ List.mem_cons_self) ack rfl
    have hcovered := h.covered hlive
    rw [accounted_cons hfront] at hcovered
    rw [hpublished, hmax]
    exact hcovered.publish horder hcommand

/-- The loop takes a command. -/
theorem receive (h : LoopAcked s) (hphase : s.phase = .receiving) (command : SinkCommand) :
    LoopAcked { s with
        inflight := s.inflight ++ [⟨s.taken.length, none⟩]
        taken := s.taken ++ [command] } ∧
      LoopAcked { s with phase := .draining command, taken := s.taken ++ [command] } := by
  have hlive : s.phase.live = true := by rw [hphase]; rfl
  obtain ⟨hplaces, hlength⟩ := h.places hlive
  have hnone : s.phase.waits = 0 := by rw [hphase]; rfl
  have hcovered := (h.covered hlive).append (by omega) [command]
  have houtcomes : ∀ w ∈ s.inflight, ∀ ack, w.outcome = some (.finished (.ok ack)) →
      ∃ other, (s.taken ++ [command])[w.seq]? = some other ∧ ack.maxLsn = other.carried := by
    intro w hw ack hend
    obtain ⟨other, hother, hmax⟩ := h.outcomes w hw ack hend
    exact ⟨other, (List.getElem?_append_left (List.getElem?_eq_some_iff.mp hother).1).trans hother,
      hmax⟩
  constructor
  · have haccounted : LoopState.accounted { s with
        inflight := s.inflight ++ [⟨s.taken.length, none⟩]
        taken := s.taken ++ [command] } = s.accounted := by
      cases hs : s.inflight with
      | nil => rw [accounted_nil hs, hnone]; rfl
      | cons w rest => rw [accounted_cons hs]; rfl
    refine ⟨fun hstart => ?_, fun _ => ?_, fun other hother => ?_, fun w hw ack hend => ?_, fun _ => ?_⟩
    · rw [show s.phase = .starting from hstart] at hphase
      cases hphase
    · rw [haccounted]
      simp only [List.map_append, List.length_append, List.map_cons, List.map_nil,
        List.length_singleton, hplaces, List.range'_concat, Nat.one_mul]
      refine ⟨by rw [show s.accounted + s.inflight.length = s.taken.length by omega], ?_⟩
      omega
    · rw [show s.phase = .draining other from hother] at hphase
      cases hphase
    · obtain hold | hnew := List.mem_append.mp hw
      · exact houtcomes w hold ack hend
      · rw [List.mem_singleton.mp hnew] at hend
        cases hend
    · rw [haccounted]
      exact hcovered
  · have haccounted : LoopState.accounted
        { s with phase := .draining command, taken := s.taken ++ [command] } = s.accounted := by
      cases hs : s.inflight with
      | nil =>
        rw [accounted_nil hs, hnone]
        refine (accounted_nil rfl).trans ?_
        simp [Phase.waits]
      | cons w rest =>
        rw [accounted_cons hs]
        exact accounted_cons rfl
    refine ⟨nofun, fun _ => ?_, fun other hother => ?_, houtcomes, fun _ => ?_⟩
    · rw [haccounted]
      refine ⟨hplaces, ?_⟩
      simp only [Phase.waits, List.length_append, List.length_singleton]
      omega
    · rw [← Phase.draining.inj hother]
      exact List.getLast?_concat ..
    · rw [haccounted]
      exact hcovered

/-- The channel is closed. -/
theorem close (h : LoopAcked s) (hphase : s.phase = .receiving) :
    LoopAcked { s with phase := .closing } := by
  have hlive : s.phase.live = true := by rw [hphase]; rfl
  have haccounted : LoopState.accounted { s with phase := .closing } = s.accounted := by
    cases hs : s.inflight with
    | nil =>
      rw [accounted_nil hs, hphase]
      exact accounted_nil rfl
    | cons w rest =>
      rw [accounted_cons hs]
      exact accounted_cons rfl
  have hplaces := h.places hlive
  rw [hphase] at hplaces
  refine ⟨nofun, fun _ => ?_, nofun, h.outcomes, fun _ => ?_⟩
  · rw [haccounted]
    exact hplaces
  · rw [haccounted]
    exact h.covered hlive

/-- A barrier is carried out, and the loop carries on. -/
theorem execute (h : LoopAcked s) (horder : InOrder s.taken) (hphase : s.phase = .draining command)
    (hnone : s.inflight = []) {loadDone : ℕ}
    (hpublished : acks.ackTx = published s.acks.ackTx command.carried) :
    LoopAcked { s with phase := .receiving, acks := acks, loadDone := loadDone } := by
  have hlive : s.phase.live = true := by rw [hphase]; rfl
  have hlast := h.barrier command hphase
  have hcovered := h.covered hlive
  have hlength := (h.places hlive).2
  rw [accounted_nil hnone, hphase] at hcovered hlength
  simp only [Phase.waits, hnone, List.length_nil] at hcovered hlength
  have haccounted : LoopState.accounted
      { s with phase := .receiving, acks := acks, loadDone := loadDone } = s.taken.length :=
    accounted_nil hnone
  refine ⟨nofun, fun _ => ?_, nofun, h.outcomes, fun _ => ?_⟩
  · rw [haccounted, hnone]
    exact ⟨rfl, rfl⟩
  · rw [haccounted, hpublished]
    rw [List.getLast?_eq_getElem?] at hlast
    have hstep := hcovered.publish horder hlast
    rwa [show s.taken.length - 1 + 1 = s.taken.length by omega] at hstep

/-- Where carrying a barrier out leads. -/
theorem executed (h : LoopAcked s) (horder : InOrder s.taken) (hphase : s.phase = .draining command)
    (hnone : s.inflight = []) (done : Bool × Acks) (loadDone : ℕ)
    (hpublished : done.1 = true → done.2.ackTx = published s.acks.ackTx command.carried) :
    LoopAcked { s with
      phase := if done.1 then .receiving else .halted
      acks := done.2
      loadDone := loadDone } := by
  obtain ⟨goes, acks⟩ := done
  cases goes with
  | true => exact h.execute horder hphase hnone (hpublished rfl)
  | false => exact .of_ended rfl nofun hnone

/-- A barrier is carried out. -/
theorem carriedOut (h : LoopAcked s) (horder : InOrder s.taken)
    (hphase : s.phase = .draining command) (hnone : s.inflight = [])
    (truncated : Except CoreError Unit) :
    LoopAcked (loop.execute s (s.taken.length - 1) truncated command) := by
  cases command with
  | write batch => exact h
  | position lsn =>
    exact h.executed horder hphase hnone
      (s.acks.apply loop (s.taken.length - 1) (.ok ()) (.ok (some (SinkAck.written lsn))))
      s.loadDone Acks.ackTx_apply
  | loadMark mark =>
    exact h.executed horder hphase hnone (true, s.acks) mark fun _ => rfl
  | truncate index version only =>
    cases truncated with
    | ok _ => exact h.executed horder hphase hnone (true, s.acks) s.loadDone fun _ => rfl
    | error e => exact h.executed horder hphase hnone (false, s.acks) s.loadDone nofun

/-- One action of the loop. -/
theorem step (h : LoopAcked s) (horder : InOrder s.taken) {action : LoopAction}
    (hends : ∀ place seq ack, action = .complete place (.finished (.ok ack)) →
      s.inflight[place]? = some ⟨seq, none⟩ →
      ∃ command, s.taken[seq]? = some command ∧ ack.maxLsn = command.carried)
    (hstep : loop.step s action = some s') : LoopAcked s' := by
  cases SinkLoop.does hstep with
  | counted hphase => exact h.begins hphase _
  | uncounted hphase => exact .of_ended rfl (fun h => by cases h) (h.fresh hphase).1
  | @completed place seq _ hplace =>
    exact h.complete hplace fun ack heq => hends place seq ack (by rw [heq]) hplace
  | @accounted _ _ joined _ hlive hfront hgoes =>
    obtain ⟨ack, rfl⟩ : ∃ ack, joined = .finished (.ok ack) := by
      obtain (e | ack) | _ := joined
      · cases hgoes
      · exact ⟨ack, rfl⟩
      · cases hgoes
    exact h.account horder hlive hfront (Acks.ackTx_apply hgoes)
  | failed =>
    refine .of_ended ?_ ?_ rfl
    · cases hphase : s.phase <;> rfl
    · cases hphase : s.phase <;> exact fun h => by cases h
  | opened hphase => exact (h.receive hphase _).1
  | parked hphase => exact (h.receive hphase _).2
  | closed hphase => exact h.close hphase
  | executed hphase hnone => exact h.carriedOut horder hphase hnone _
  | left _ hnone => exact .of_ended rfl (fun h => by cases h) hnone

end LoopAcked

/-! ## Both together -/

/-- What holds between any two steps. -/
structure AckSystemInv (s : AckState) : Prop where
  /-- of the engine -/
  engine : AckInv s.stream
  /-- of its waiting -/
  waits : CommitInv CommitState.holdsPosition s.stream
  /-- of the loop -/
  loop : LoopAcked s.loop
  /-- what the loop has taken, it was sent -/
  taken : s.loop.taken <+: s.stream.engine.commands

/-- What the engine has sent stays sent. -/
theorem commands_extend {engine : Engine} {s s' : CommitState} {action : CommitAction}
    (h : engine.commitStep s action = some s') : s.engine.commands <+: s'.engine.commands := by
  cases action with
  | release =>
    cases h
    exact List.prefix_rfl
  | act action spent =>
    simp only [Engine.commitStep] at h
    split at h
    · obtain ⟨next, hnext, rfl⟩ := Option.map_eq_some_iff.mp h
      obtain ⟨e, he, rfl⟩ := Option.map_eq_some_iff.mp hnext
      have hengine : s.engine.commands <+: e.commands := by
        obtain ⟨pos, b, hships⟩ := engine.ships_step he
        obtain ⟨-, rest, -, hsent⟩ | ⟨-, -, rest, -, hsent⟩ := hships.buffer
        · exact hsent ▸ List.prefix_append ..
        · exact hsent ▸ List.prefix_append ..
      cases action with
      | turn settings held again overdue =>
        dsimp only
        split
        · exact hengine
        · exact hengine
      | _ => exact hengine
    · cases h

namespace AckSystemInv

variable {engine : Engine} {loop : SinkLoop} {s s' : AckState}

theorem inOrder (h : AckSystemInv s) : InOrder s.loop.taken := by
  have hsorted := h.engine.trail.sorted
  rw [List.filter_append] at hsorted
  obtain ⟨rest, hrest⟩ := h.taken
  rw [← hrest, carriedBy, List.map_append, List.filter_append] at hsorted
  exact (List.pairwise_append.mp (List.pairwise_append.mp hsorted).1).1

theorem step (h : AckSystemInv s) {action : AckAction}
    (horderly : engine.orderly s action = true) (hstep : engine.ackStep loop s action = some s') :
    AckSystemInv s' := by
  cases action with
  | engine action =>
    obtain ⟨next, hnext, rfl⟩ := Option.map_eq_some_iff.mp hstep
    obtain ⟨hkeeps, hfollowed⟩ := Bool.and_eq_true_iff.mp horderly
    exact ⟨h.engine.step hkeeps hnext, h.waits.step pending_holdsPosition hfollowed hnext, h.loop,
      h.taken.trans (commands_extend hnext)⟩
  | loop action =>
    simp only [Engine.ackStep] at hstep
    split at hstep
    · next hpermits =>
      obtain ⟨next, hnext, rfl⟩ := Option.map_eq_some_iff.mp hstep
      refine ⟨h.engine, h.waits, h.loop.step h.inOrder ?_ hnext, ?_⟩
      · rintro place seq ack rfl hplace
        simp only [AckState.permits, hplace] at hpermits
        obtain ⟨command, hcommand, hmax⟩ := (Option.any_eq_true _ _).mp hpermits
        exact ⟨command, hcommand, of_decide_eq_true hmax⟩
      · obtain htaken | ⟨command, rfl, htaken⟩ := (SinkLoop.step_history hnext).1
        · exact htaken ▸ h.taken
        · have hcommand : s.stream.engine.commands[s.loop.taken.length]? = some command :=
            of_decide_eq_true hpermits
          obtain ⟨rest, hrest⟩ := h.taken
          rw [← hrest, List.getElem?_append_right le_rfl, Nat.sub_self] at hcommand
          obtain ⟨more, rfl⟩ : ∃ more, rest = command :: more := by
            cases rest with
            | nil => cases hcommand
            | cons first more => exact ⟨more, by rw [Option.some.inj hcommand]⟩
          refine ⟨more, ?_⟩
          dsimp only
          rw [htaken, List.append_assoc, List.singleton_append]
          exact hrest
    · cases hstep

end AckSystemInv

/-- What holds between any two steps says what is asked. -/
theorem AckSystemInv.complete {s : AckState} (h : AckSystemInv s) : AckComplete s where
  durable hlive k hk cargo hcargo t ht lsn hlsn := by
    obtain ⟨hplaces, hlength⟩ := h.loop.places hlive
    have hlt : k < s.loop.taken.length := by omega
    obtain ⟨rest, hrest⟩ := h.taken
    have hcommand : s.stream.engine.commands[k]? = some s.loop.taken[k] := by
      rw [← hrest, List.getElem?_append_left hlt, List.getElem?_eq_getElem hlt]
    obtain ⟨c, hc, hle⟩ := h.engine.carried k cargo _ hcargo hcommand t ht
    obtain rfl := Option.some.inj (hc.symm.trans hlsn)
    have hpos : c ≠ 0 := h.engine.trail.positive c (List.mem_of_getElem? hc)
    obtain hzero | ⟨p, hp, hcovered⟩ :=
      h.loop.covered hlive k _ hk (List.getElem?_eq_getElem hlt)
    · rw [hzero] at hle
      exact absurd (Nat.le_zero.mp hle) hpos
    · exact ⟨p, hp, hle.trans hcovered⟩
  settled hlive hblocked haccounted lsn hlsn := by
    have hpos := h.engine.trail.positive lsn hlsn
    obtain ⟨x, hx, hle⟩ := h.engine.trail.covers lsn hlsn
    have hne : x ≠ 0 := fun hzero => hpos (Nat.le_zero.mp (hzero ▸ hle))
    obtain hx | hx := List.mem_append.mp hx
    · -- it went out
      obtain ⟨command, hmem, rfl⟩ := List.mem_map.mp hx
      obtain ⟨k, hk⟩ := List.mem_iff_getElem?.mp hmem
      obtain ⟨hplaces, hlength⟩ := h.loop.places hlive
      have hlt : k < s.stream.engine.commands.length := (List.getElem?_eq_some_iff.mp hk).1
      obtain ⟨rest, hrest⟩ := h.taken
      have htaken : s.loop.taken[k]? = some command := by
        rw [← hrest, List.getElem?_append_left (by omega)] at hk
        exact hk
      obtain hzero | ⟨p, hp, hcovered⟩ := h.loop.covered hlive k _ (haccounted ▸ hlt) htaken
      · exact absurd hzero hne
      · exact ⟨p, hp, hle.trans hcovered⟩
    · -- nothing is held while the loop waits
      have hnone := h.waits.waits hblocked
      rw [CommitState.holdsPosition, List.any_eq_false] at hnone
      exact absurd (by simpa using hne) (hnone x hx)

namespace Engine

variable {engine : Engine} {loop : SinkLoop} {s : AckState}

/-- **If the last commit's position stays on the last operation until the buffer goes out,
and the loop does not wait with a position, every commit is acknowledged**, whatever the
load sends and however the loop's writes overlap. -/
theorem every_commit_acknowledged (h : (ackSystem engine loop).ReachUnder
    (fun s action => engine.orderly s action = true) s) : AckComplete s := by
  have hinv : AckSystemInv s := h.invariant
    (fun _ hinitial => by
      rw [hinitial]
      refine ⟨⟨.start, rfl, rfl, ?_, ?_, ?_⟩, .of_empty pending_holdsPosition rfl rfl, .start,
        List.prefix_rfl⟩
      · exact fun _ ht => absurd ht List.not_mem_nil
      · exact fun _ ht => absurd ht List.not_mem_nil
      · exact fun _ _ _ hcargo => by cases hcargo)
    fun _ _ _ hinv horderly hstep => hinv.step horderly hstep
  exact hinv.complete

end Engine

/-! ## Runs that the kernel follows -/

/-- The sink loop, with one write at a time. -/
def plainLoop : SinkLoop := ⟨.halt, 0, 1⟩

/-- The loop takes a batch, which is written and acknowledged. -/
def writtenOnce (batch : List LsnOp) : List AckAction :=
  [.loop (.receive (.write batch)),
    .loop (.complete 0 (.finished (.ok (SinkAck.written (lastPosition (positions batch)))))),
    .loop (.account (.ok ()))]

/-- What a plain row becomes. -/
def plainOp (key : ℤ) (version : ℕ) (lsn : Lsn) : LsnOp :=
  ⟨lsn, .upsert "t" (toString key) none (.obj [("id", .int key)]) (some version) none⟩

/-- What a state shows of its acknowledgements. -/
structure AcksSeen : Type where
  /-- the commits that were seen -/
  commits : List Lsn
  /-- what the commands carry rows of -/
  cargo : List (List ℕ)
  /-- how many are accounted for -/
  accounted : ℕ
  /-- whether the loop is live -/
  live : Bool
  /-- the acknowledged position -/
  ackTx : Option Lsn
  deriving DecidableEq

/-- What a state shows. -/
def AckState.see (s : AckState) : AcksSeen where
  commits := s.stream.commits
  cargo := s.stream.cargo
  accounted := s.loop.accounted
  live := s.loop.phase.live
  ackTx := s.loop.acks.ackTx

/-- A row is copied and written. -/
def oneCopied (key : ℤ) (version : ℕ) : List CommitAction :=
  .act (.feedCopy (storedRow key version)) false ::
    writeRowOnce.map fun action => .act action false

/-- A row is copied and waits; a transaction's row joins it, and its commit hands both
over. -/
def copiedFirst : List AckAction :=
  (oneCopied 2 4 ++ oneTransaction 1 10 ++ [takeNext]).map .engine ++
    .loop (.start (.ok 0)) :: writtenOnce [plainOp 2 4 0, plainOp 1 10 10]

/-- The commit is acknowledged with both. -/
theorem copiedFirst_acknowledged : ∃ s,
    (Engine.ackSystem plainEngine plainLoop).runUnder plainEngine.orderly
        ⟨.start, SinkLoop.start⟩ copiedFirst = some s ∧
      s.see = ⟨[10], [[0]], 1, true, some 10⟩ ∧ AckComplete s := by
  have hrun : ((Engine.ackSystem plainEngine plainLoop).runUnder plainEngine.orderly
      ⟨.start, SinkLoop.start⟩ copiedFirst).map AckState.see =
        some ⟨[10], [[0]], 1, true, some 10⟩ := by decide +kernel
  obtain ⟨s, hs, hsee⟩ := Option.map_eq_some_iff.mp hrun
  exact ⟨s, hs, hsee, Engine.every_commit_acknowledged (.of_runUnder (.initial rfl) hs)⟩

/-- A transaction waits for a copied row that is behind it; the load's boundary hands both
over. -/
def copiedLast : List AckAction :=
  (oneTransaction 1 10 ++ .act (.feedCopy (storedRow 2 4)) false :: takeNext ::
    (writeRowOnce.map fun action => .act action false) ++
    [.act (.feedCopy (.commit 0)) false, takeNext]).map .engine ++
  .loop (.start (.ok 0)) :: writtenOnce [plainOp 1 10 10, plainOp 2 4 0]

/-- The batch is written and accounted for, and nothing is acknowledged. -/
theorem copiedLast_unacknowledged :
    ∃ s, (Engine.ackSystem plainEngine plainLoop).Reachable s ∧ ¬ AckComplete s := by
  have hrun : ((Engine.ackSystem plainEngine plainLoop).run ⟨.start, SinkLoop.start⟩
      copiedLast).map AckState.see = some ⟨[10], [[0]], 1, true, none⟩ := by decide +kernel
  obtain ⟨s, hs, hsee⟩ := Option.map_eq_some_iff.mp hrun
  refine ⟨s, Transition.System.reachable_of_run rfl hs, fun h => ?_⟩
  have hcommits : s.stream.commits = [10] := congrArg AcksSeen.commits hsee
  have hcargo : s.stream.cargo = [[0]] := congrArg AcksSeen.cargo hsee
  have haccounted : s.loop.accounted = 1 := congrArg AcksSeen.accounted hsee
  have hnone : s.loop.acks.ackTx = none := congrArg AcksSeen.ackTx hsee
  obtain ⟨p, hp, -⟩ := h.durable (congrArg AcksSeen.live hsee) 0 (by rw [haccounted]; exact one_pos)
    [0] (by rw [hcargo]; rfl) 0 (List.mem_singleton.mpr rfl) 10 (by rw [hcommits]; rfl)
  rw [hnone] at hp
  cases hp

end Pg2osync
