import Pg2osync.Brackets

/-!
# Tokens and places of the log

Every token that a MySQL source sends stands for a place of the server's log. The source
follows the log by what the headers of its events state: the low half of where an event
ends, or nothing within a group of MariaDB. This says which tokens are those of the true
place.
-/

namespace Pg2osync

/-- The token of an event, if it has one. -/
def ChangeEvent.token : ChangeEvent → Option ℕ
  | .row change => change.version
  | .tableTruncated _ version => version
  | .begin lsn | .commit lsn => some lsn
  | .schemaDrift _ _ | .loadMark _ | .loadStarted | .loadFinished => none

namespace MySql

/-! ## What a server sends -/

/-- Where a dump is: what was sent of the log ends there. -/
structure DumpPlace : Type where
  /-- the file -/
  file : String
  /-- the offset, however long the file is -/
  offset : ℕ
  /-- a group has begun and not ended -/
  inGroup : Bool
  deriving DecidableEq, Repr

/-- Whether an event is in the file, among those of groups and statements. -/
def BinlogBody.isLogged : BinlogBody → Bool
  | .query _ | .xid | .tableMap _ _ _ | .rows _ _ _ | .partialUpdateRows | .other => true
  | .heartbeat | .formatDescription | .rotate _ => false

/-- Whether something that has a token may be sent at an event. -/
def BinlogBody.stamps : BinlogBody → Bool
  | .heartbeat | .query _ | .xid | .rows _ _ _ => true
  | .formatDescription | .rotate _ | .tableMap _ _ _ | .partialUpdateRows | .other => false

/-- What a server sends next, and where its dump is then. -/
inductive Serves : DumpPlace → BinlogEvent → DumpPlace → Prop where
  /-- the file that is sent, and from where -/
  | opened (p : DumpPlace) (size logPos : ℕ) (hgroup : p.inGroup = false) :
      Serves p ⟨size, logPos, .rotate (some (p.file, p.offset))⟩ p
  /-- the format of a file, which its beginning holds, or ahead of what follows -/
  | format (p : DumpPlace) (size logPos offset : ℕ) (hgroup : p.inGroup = false)
      (hoffset : offset = p.offset ∨ offset = p.offset + size) :
      Serves p ⟨size, logPos, .formatDescription⟩ ⟨p.file, offset, false⟩
  /-- where the log ends for now -/
  | heartbeat (p : DumpPlace) (size : ℕ) (hgroup : p.inGroup = false) :
      Serves p ⟨size, p.offset % 2 ^ 32, .heartbeat⟩ p
  /-- the file that follows -/
  | rotated (p : DumpPlace) (size logPos : ℕ) (next : String) (hgroup : p.inGroup = false)
      (hnext : binlogIndex p.file < binlogIndex next) :
      Serves p ⟨size, logPos, .rotate (some (next, 4))⟩ ⟨next, 4, false⟩
  /-- an event of the file. Between groups some may be left out before it; within one, it
  may state no position, unless it is the end -/
  | logged (p : DumpPlace) (body : BinlogBody) (size start logPos : ℕ) (inGroup : Bool)
      (hbody : body.isLogged = true) (hsize : 0 < size) (hstart : p.offset ≤ start)
      (hgroup : p.inGroup = true → start = p.offset) (hxid : body = .xid → inGroup = false)
      (hpos : logPos = (start + size) % 2 ^ 32 ∨ logPos = 0 ∧ p.inGroup = true ∧ body ≠ .xid) :
      Serves p ⟨size, logPos, body⟩ ⟨p.file, start + size, inGroup⟩

/-- An event as it is sent, with what the server answers while it is taken. -/
structure Delivery : Type where
  /-- where the dump is before -/
  before : DumpPlace
  /-- the event -/
  event : BinlogEvent
  /-- the answers -/
  reads : BinlogReads
  /-- where the dump is then -/
  after : DumpPlace

/-- What the source takes of it. -/
def Delivery.turn (d : Delivery) : BinlogEvent × BinlogReads :=
  (d.event, d.reads)

/-- What a server sends from a place on. -/
def Dumped : DumpPlace → List Delivery → Prop
  | _, [] => True
  | p, d :: rest => d.before = p ∧ Serves p d.event d.after ∧ Dumped d.after rest

/-- What one connection is sent: first of all, where the dump begins, which need not be
where the source asked for. -/
structure Connected (p : DumpPlace) (log : List Delivery) : Prop where
  /-- it begins between groups -/
  between : p.inGroup = false
  /-- it is a dump -/
  dumped : Dumped p log
  /-- with the place ahead of it -/
  head : ∀ d ∈ log.head?, d.event.body = .rotate (some (p.file, p.offset))

/-- The coordinate of a place. -/
def DumpPlace.coordinate (p : DumpPlace) : Coordinate :=
  ⟨binlogIndex p.file, p.offset⟩

/-- And as a number: the file above every offset that fits. -/
def DumpPlace.number (p : DumpPlace) : ℕ :=
  binlogIndex p.file * 2 ^ 32 + p.offset

variable {log : List Delivery} {p q : DumpPlace} {e : BinlogEvent} {p : DumpPlace} {d : Delivery}

variable {file : String}

namespace BinlogSource

variable (src : BinlogSource)

/-- The token of a place, base added. -/
def trueToken (p : DumpPlace) : ℕ :=
  src.versionBase + p.number

/-- The place that an event ends at has a token: its offset fits into 32 bits and the token
into 64. A heartbeat moves nothing, so it must not find the source ahead of the server. -/
structure InRange (s : BinlogState) (d : Delivery) : Prop where
  /-- the offset -/
  offset : d.after.offset < 2 ^ 32
  /-- the token -/
  token : src.trueToken d.after ≤ u64Max
  /-- the source -/
  heartbeat : d.event.body = .heartbeat → s.currentPos ≤ d.after.offset

/-- An event is taken in a state. -/
def Reached (file : String) (pos : ℕ) (before : List Delivery) (s : BinlogState) : Prop :=
  ∃ sent, Emission.run src.step (.start file pos) (before.map Delivery.turn) = (sent, .ok s)

/-- A token is sent at an event of a log, which is in some range. -/
structure SentAt (inRange : BinlogState → Delivery → Prop) (file : String) (pos : ℕ)
    (before : List Delivery) (d : Delivery) (e : ChangeEvent) (token : ℕ) : Prop where
  /-- it is sent in the state in which the event is taken -/
  sent : ∃ s, src.Reached file pos before s ∧ inRange s d ∧ e ∈ (src.step s d.turn).1
  /-- with an event that has a token -/
  token : e.token = some token


/-- The coordinate that a checkpoint of a token names: `position_text_full`. -/
def checkpointCoordinate (token : ℕ) : Coordinate :=
  ⟨(token - src.versionBase) >>> 32, (token - src.versionBase) % 2 ^ 32⟩

/-- **Tokens follow the log**, as far as events are in a range. -/
structure FollowsLog (inRange : BinlogState → Delivery → Prop) (file : String) (pos : ℕ)
    (log : List Delivery) : Prop where
  /-- each is that of where its event ends -/
  isTrue : ∀ before d after e token, log = before ++ d :: after →
    src.SentAt inRange file pos before d e token → token = src.trueToken d.after
  /-- they never go back, and a row event has a greater one than all before -/
  ordered : ∀ before d between d' after e token e' token',
    log = before ++ d :: (between ++ d' :: after) → src.SentAt inRange file pos before d e token →
      src.SentAt inRange file pos (before ++ d :: between) d' e' token' →
        token ≤ token' ∧ ((∃ tableId kind rows, d'.event.body = .rows tableId kind rows) →
          token < token')
  /-- a checkpoint of a Commit names the end of a group, and what follows is what a dump
  from there is sent -/
  commits : ∀ before d after lsn token, log = before ++ d :: after →
    src.SentAt inRange file pos before d (.commit lsn) token →
      d.after.inGroup = false ∧ src.checkpointCoordinate lsn = d.after.coordinate ∧
        Dumped d.after after

variable {src}

/-! ## What is sent at an event -/

/-- A row with a version. -/
def RowAt (version : ℕ) (e : ChangeEvent) : Prop :=
  ∃ change, e = .row change ∧ change.version = some version

variable {reads : FlushReads}

theorem rowAt_flush {s : BinlogState} {version : ℕ} :
    ∀ e ∈ (s.flush reads version).1, RowAt version e := by
  intro e he
  obtain ⟨row, hrow, rfl⟩ := List.mem_map.mp he
  exact ⟨row, rfl, version_flushPending reads s.pending (some version) row hrow⟩

variable {kind : RowsKind}

theorem version_buildChange {rt : Registration} {row : RowsRow} {version : ℕ} {change : RowChange}
    (h : rt.buildChange kind row version = .ok change) : change.version = some version := by
  rw [Registration.buildChange.eq_def] at h
  cases kind with
  | write =>
    dsimp only at h
    split at h
    · cases h
    · obtain ⟨pk, -, rfl⟩ := Except.map_eq_ok h
      rfl
  | update | delete =>
    dsimp only at h
    split at h
    · cases h
    · split at h
      · cases h
      · obtain ⟨pk, -, rfl⟩ := Except.map_eq_ok h
        rfl

theorem rowAt_holdRows {s : BinlogState} {rt : Registration} {rows : List RowsRow} :
    ∀ e ∈ (src.holdRows s rt kind rows).1, RowAt (src.token s) e := by
  intro e he
  rw [holdRows] at he
  split at he
  · cases he
  · split at he
    · have hsent : ∀ e ∈ (Emission.run (sendRow rt kind (src.token s)) () rows).1,
          RowAt (src.token s) e := by
        refine Emission.run_sends (fun _ => True) (fun _ _ _ _ _ _ _ => trivial)
          (fun row _ _ _ e he => ?_) trivial
        rw [sendRow] at he
        split at he
        · cases he
        · next change hchange =>
          exact ⟨change, List.mem_singleton.mp he, version_buildChange hchange⟩
      exact hsent e he
    · cases he

theorem rowAt_takeRows {s : BinlogState} {tableId : ℕ} {raw : List RawRow} :
    ∀ e ∈ (src.takeRows s reads tableId kind raw).1, RowAt (src.token s) e := by
  intro e he
  rw [takeRows] at he
  split at he
  · cases he
  · next rt hrt =>
    split at he
    · cases he
    · next rows hrows =>
      have hheld : ∀ e ∈ (src.holdRows s rt kind rows).1, RowAt (src.token s) e := rowAt_holdRows
      split at he
      · next sent err hhold =>
        rw [hhold] at hheld
        exact hheld e he
      · next sent held hhold =>
        rw [hhold] at hheld
        split at he
        · rcases List.mem_append.mp he with he | he
          · exact hheld e he
          · exact rowAt_flush e he
        · exact hheld e he

theorem mem_takeXid {s : BinlogState} :
    ∀ e ∈ (src.takeXid s reads).1, RowAt (src.token s) e ∨ e = .commit (src.token s) := by
  intro e he
  have hflush : ∀ e ∈ (s.flush reads (src.token s)).1, RowAt (src.token s) e := rowAt_flush
  rw [takeXid] at he
  split at he
  · next sent next hsent =>
    rw [hsent] at hflush
    rcases List.mem_append.mp he with he | he
    · exact .inl (hflush e he)
    · exact .inr (List.mem_singleton.mp he)
  · next sent err hsent =>
    rw [hsent] at hflush
    exact .inl (hflush e he)

theorem mem_takeQuery {s : BinlogState} {database sql : String} :
    ∀ e ∈ (src.takeQuery s database sql).1, ∃ t, e = .tableTruncated t (some (src.token s)) := by
  intro e he
  rw [takeQuery] at he
  split at he
  · exact ⟨_, List.mem_singleton.mp he⟩
  · split at he
    · cases he
    · split at he <;> cases he

variable {reads : BinlogReads}

/-- What a table map sends is a report. -/
theorem mem_takeTableMap {s : BinlogState} {tableId : ℕ} {info : TableMeta} {names : List String} :
    ∀ e ∈ (src.takeTableMap s reads tableId info names).1,
      ∃ report, e = .schemaDrift info.table report := by
  intro e he
  rw [takeTableMap] at he
  split at he
  · split at he
    · cases he
    · next columns resolved drift schemas _ =>
      have hreported : ∀ e ∈ drift.toList.map (ChangeEvent.schemaDrift info.table),
          ∃ report, e = .schemaDrift info.table report := by
        intro e he
        obtain ⟨report, -, rfl⟩ := List.mem_map.mp he
        exact ⟨report, rfl⟩
      dsimp only at he
      split at he
      · exact hreported e he
      · rcases List.mem_append.mp he with he | he
        · exact hreported e he
        · rw [takeTableMapAgain] at he
          split at he
          · cases he
          · exact ⟨_, List.mem_singleton.mp he⟩
  · cases he

/-- What is sent at an event is a report, or has the token of where the event ends; and a
Commit is sent at the end of a transaction, or where the log ends for now. -/
theorem mem_step {s : BinlogState} {turn : BinlogEvent × BinlogReads} {e : ChangeEvent}
    (he : e ∈ (src.step s turn).1) :
    e.token = none ∨ e.token = some (src.tokenOf s turn) ∧ turn.1.body.stamps = true ∧
      ∀ lsn, e = .commit lsn → turn.1.body = .heartbeat ∨ turn.1.body = .xid := by
  rw [step] at he
  split at he
  · cases he
  · cases he
  · cases he
  · cases he
  · split at he <;> cases he
  · next hbody =>
    obtain ⟨t, rfl⟩ := mem_takeQuery e he
    rw [hbody]
    exact .inr ⟨rfl, rfl, fun lsn h => by cases h⟩
  · next hbody =>
    rw [List.mem_singleton.mp he, hbody]
    exact .inr ⟨rfl, rfl, fun _ _ => .inl rfl⟩
  · next hbody =>
    rw [hbody]
    rcases mem_takeXid e he with ⟨change, rfl, hversion⟩ | rfl
    · exact .inr ⟨hversion, rfl, fun _ _ => .inr rfl⟩
    · exact .inr ⟨rfl, rfl, fun _ _ => .inr rfl⟩
  · obtain ⟨report, rfl⟩ := mem_takeTableMap e he
    exact .inl rfl
  · next hbody =>
    rw [hbody]
    obtain ⟨change, rfl, hversion⟩ := rowAt_takeRows e he
    exact .inr ⟨hversion, rfl, fun lsn h => by cases h⟩
  · cases he

/-! ## Where the source is -/

/-- The source is in the file that is sent, and within a group it is where the server is. -/
structure Tracks (s : BinlogState) (p : DumpPlace) : Prop where
  /-- the file -/
  file : s.currentFile = p.file
  /-- the offset -/
  offset : p.inGroup = true → p.offset < 2 ^ 32 → s.currentPos = p.offset

/-- An event of a file moves the source to where the event ends. -/
theorem endPos_logged {s : BinlogState} (hs : Tracks s p) (h : Serves p e q)
    (hlogged : e.body.isLogged = true) (hoffset : q.offset < 2 ^ 32) :
    endPos s.currentPos e = q.offset := by
  cases h with
  | opened | format | heartbeat | rotated => cases hlogged
  | logged body size start logPos inGroup hbody hsize hstart hgroup hxid hpos =>
    have hend : endPos s.currentPos ⟨size, logPos, body⟩ =
        if logPos = 0 then min (s.currentPos + size) u32Max else logPos := by
      cases body <;> first | rfl | cases hbody
    rw [hend]
    dsimp only at hoffset
    rcases hpos with rfl | ⟨rfl, hinside, -⟩
    · rw [Nat.mod_eq_of_lt hoffset, if_neg (by omega)]
    · have hhere := hs.offset hinside (by omega)
      have hfits : start + size ≤ u32Max := by
        rw [u32Max]
        omega
      rw [if_pos rfl, hhere, ← hgroup hinside]
      exact min_eq_left hfits

variable {sent : List ChangeEvent} {s next : BinlogState}

theorem step_logged {turn : BinlogEvent × BinlogReads} (hlogged : turn.1.body.isLogged = true)
    (h : src.step s turn = (sent, .ok next)) :
    next.currentFile = s.currentFile ∧ next.currentPos = endPos s.currentPos turn.1 := by
  rw [step] at h
  split at h
  · next hbody =>
    rw [hbody] at hlogged
    cases hlogged
  · next hbody =>
    rw [hbody] at hlogged
    cases hlogged
  · obtain rfl := Except.ok.inj (Prod.mk.inj h).2
    exact ⟨rfl, rfl⟩
  · obtain rfl := Except.ok.inj (Prod.mk.inj h).2
    exact ⟨rfl, rfl⟩
  · next hbody =>
    rw [hbody] at hlogged
    cases hlogged
  · obtain ⟨schemas, registered, rfl⟩ := takeQuery_ok h
    exact ⟨rfl, rfl⟩
  · next hbody =>
    rw [hbody] at hlogged
    cases hlogged
  · obtain rfl := takeXid_ok h
    exact ⟨rfl, rfl⟩
  · obtain ⟨schemas, registration, rfl⟩ := takeTableMap_ok h
    exact ⟨rfl, rfl⟩
  · obtain ⟨pending, rfl⟩ := takeRows_ok h
    exact ⟨rfl, rfl⟩
  · cases (Prod.mk.inj h).2

/-- The file that is named is the one the source is in then. -/
theorem step_rotate {turn : BinlogEvent × BinlogReads} {offset : ℕ}
    (hbody : turn.1.body = .rotate (some (file, offset))) (h : src.step s turn = (sent, .ok next)) :
    next.currentFile = file := by
  rw [step, hbody] at h
  dsimp only at h
  split at h
  · next hsame =>
    obtain rfl := Except.ok.inj (Prod.mk.inj h).2
    exact hsame.symm
  · obtain rfl := Except.ok.inj (Prod.mk.inj h).2
    rfl

theorem tracks_between {s : BinlogState} (hfile : s.currentFile = p.file)
    (hgroup : p.inGroup = false) : Tracks s p := by
  refine ⟨hfile, fun hinside => ?_⟩
  rw [hgroup] at hinside
  cases hinside

/-- A source that follows the server goes on to follow it. -/
theorem tracks_step (hs : Tracks s p) (h : Serves p e q)
    (hstep : src.step s (e, reads) = (sent, .ok next)) : Tracks next q := by
  have hserves := h
  cases h with
  | opened size logPos hgroup => exact tracks_between (step_rotate rfl hstep) hgroup
  | rotated size logPos following => exact tracks_between (step_rotate rfl hstep) rfl
  | format | heartbeat =>
    obtain rfl := Except.ok.inj (Prod.mk.inj hstep).2
    exact tracks_between hs.file (by first | rfl | assumption)
  | logged body size start logPos inGroup hbody =>
    obtain ⟨hfile, hpos⟩ := step_logged hbody hstep
    refine ⟨hfile.trans hs.file, fun hinside hoffset => hpos.trans ?_⟩
    exact endPos_logged hs hserves hbody hoffset

/-- A source follows the server from the place it is told first, wherever it asked for. -/
theorem tracks_head (hgroup : p.inGroup = false) (h : Serves p e q)
    (hhead : e.body = .rotate (some (p.file, p.offset)))
    (hstep : src.step s (e, reads) = (sent, .ok next)) : Tracks next q := by
  cases h with
  | opened size logPos => exact tracks_between (step_rotate rfl hstep) hgroup
  | rotated size logPos following => exact tracks_between (step_rotate rfl hstep) rfl
  | format | heartbeat => cases hhead
  | logged body size start logPos inGroup hbody =>
    dsimp only at hhead
    rw [hhead] at hbody
    cases hbody

theorem tracks_run (hs : Tracks s p) {rest : List Delivery} (hdumped : Dumped p (log ++ d :: rest))
    (hrun : Emission.run src.step s (log.map Delivery.turn) = (sent, .ok next)) :
    Tracks next d.before := by
  induction log generalizing s p sent with
  | nil =>
    obtain rfl := Except.ok.inj (Prod.mk.inj hrun).2
    rw [hdumped.1]
    exact hs
  | cons first log ih =>
    obtain ⟨hbefore, hserves, hrest⟩ := hdumped
    obtain ⟨now, between, more, hfirst, hlater, -⟩ := Emission.run_cons_eq_ok hrun
    exact ih (tracks_step (hbefore ▸ hs) hserves hfirst) hrest hlater

/-- In whatever state an event after the first one is taken, the source follows the server. -/
theorem tracks_reached {pos : ℕ} (hlog : Connected p log) {before after : List Delivery}
    (hsplit : log = before ++ d :: after) (hbefore : before ≠ []) {s : BinlogState}
    (hs : src.Reached file pos before s) : Tracks s d.before := by
  obtain ⟨sent, hrun⟩ := hs
  obtain ⟨first, rest, rfl⟩ := List.exists_cons_of_ne_nil hbefore
  have hdumped := hlog.dumped
  have hhead := hlog.head
  rw [hsplit] at hdumped hhead
  obtain ⟨hplace, hserves, hrest⟩ := hdumped
  obtain ⟨now, between, more, hfirst, hlater, -⟩ := Emission.run_cons_eq_ok hrun
  exact tracks_run (tracks_head hlog.between hserves (hhead first rfl) hfirst) hrest hlater

/-- Where an event in range that stamps ends is where the source is then. -/
theorem endPos_inRange {s : BinlogState} (hs : Tracks s d.before)
    (hserves : Serves d.before d.event d.after) (hrange : src.InRange s d)
    (hstamps : d.event.body.stamps = true) :
    d.after.file = d.before.file ∧ endPos s.currentPos d.event = d.after.offset := by
  obtain ⟨p, e, reads, q⟩ := d
  have hcopy : Serves p e q := hserves
  change Serves p e q at hserves
  cases hserves with
  | opened | format | rotated => cases hstamps
  | heartbeat size hgroup =>
    refine ⟨rfl, ?_⟩
    have hoffset : p.offset < 2 ^ 32 := hrange.offset
    have hhere : s.currentPos ≤ p.offset := hrange.heartbeat rfl
    change max s.currentPos (p.offset % 2 ^ 32) = p.offset
    rw [Nat.mod_eq_of_lt hoffset, max_eq_right hhere]
  | logged body size start logPos inGroup hbody =>
    exact ⟨rfl, endPos_logged hs hcopy hbody hrange.offset⟩

theorem stamps_head (hlog : Connected p log) {after : List Delivery} (hsplit : log = d :: after) :
    d.event.body.stamps = false := by
  have hhead := hlog.head d (by rw [hsplit]; rfl)
  rw [hhead]
  rfl

/-- **A token in range is that of the true place.** -/
theorem token_true {pos : ℕ} (hlog : Connected p log) {before after : List Delivery}
    {e : ChangeEvent} {token : ℕ} (hsplit : log = before ++ d :: after)
    (h : src.SentAt src.InRange file pos before d e token)
    (hserves : Serves d.before d.event d.after) : token = src.trueToken d.after := by
  obtain ⟨⟨s, hs, hrange, he⟩, htoken⟩ := h
  obtain ⟨htaken, hstamps⟩ : e.token = some (src.tokenOf s d.turn) ∧
      d.event.body.stamps = true := by
    rcases mem_step he with hnone | ⟨htaken, hstamps, -⟩
    · rw [htoken] at hnone
      cases hnone
    · exact ⟨htaken, hstamps⟩
  obtain rfl := Option.some.inj (htoken.symm.trans htaken)
  have hbefore : before ≠ [] := by
    rintro rfl
    have hnot := stamps_head hlog hsplit
    rw [hnot] at hstamps
    cases hstamps
  have htracks := tracks_reached hlog hsplit hbefore hs
  obtain ⟨hfile, hpos⟩ := endPos_inRange htracks hserves hrange hstamps
  have hend : src.tokenOf s d.turn = src.tokenAt d.after.file d.after.offset := by
    rw [tokenOf, htracks.file, ← hfile]
    exact congrArg _ hpos
  rw [hend, tokenAt, positionToken_mk hrange.offset]
  exact min_eq_left hrange.token

end BinlogSource

/-! ## The log goes forward -/

/-- A place is not past another one. -/
def DumpPlace.UpTo (p q : DumpPlace) : Prop :=
  binlogIndex p.file < binlogIndex q.file ∨ p.file = q.file ∧ p.offset ≤ q.offset

theorem DumpPlace.UpTo.trans {p q r : DumpPlace} (h : p.UpTo q) (h' : q.UpTo r) : p.UpTo r := by
  rcases h with hlt | ⟨hfile, hoffset⟩
  · rcases h' with hlt' | ⟨hfile', -⟩
    · exact .inl (hlt.trans hlt')
    · exact .inl (hfile' ▸ hlt)
  · rcases h' with hlt' | ⟨hfile', hoffset'⟩
    · exact .inl (hfile ▸ hlt')
    · exact .inr ⟨hfile.trans hfile', hoffset.trans hoffset'⟩

/-- What is up to another place has no greater number. -/
theorem DumpPlace.UpTo.number_le (h : p.UpTo q) (hp : p.offset < 2 ^ 32) : p.number ≤ q.number := by
  rw [number, number]
  rcases h with hlt | ⟨hfile, hoffset⟩
  · omega
  · rw [hfile]
    omega

/-- No event goes back, and one of the file goes forward. -/
theorem Serves.forward (h : Serves p e q) :
    p.UpTo q ∧ (e.body.isLogged = true → p.file = q.file ∧ p.offset < q.offset) := by
  cases h with
  | opened => exact ⟨.inr ⟨rfl, le_rfl⟩, fun h => by cases h⟩
  | format size logPos offset hgroup hoffset =>
    refine ⟨.inr ⟨rfl, ?_⟩, fun h => by cases h⟩
    rcases hoffset with rfl | rfl
    · exact le_rfl
    · exact Nat.le_add_right _ _
  | heartbeat => exact ⟨.inr ⟨rfl, le_rfl⟩, fun h => by cases h⟩
  | rotated size logPos following hgroup hnext => exact ⟨.inl hnext, fun h => by cases h⟩
  | logged body size start logPos inGroup hbody hsize hstart =>
    have hlt : p.offset < start + size := by omega
    exact ⟨.inr ⟨rfl, hlt.le⟩, fun _ => ⟨rfl, hlt⟩⟩

/-- What is sent from a place on is not before it. -/
theorem Dumped.forward {after : List Delivery} (h : Dumped p (log ++ d :: after)) :
    p.UpTo d.before ∧ Serves d.before d.event d.after ∧ Dumped d.after after := by
  induction log generalizing p with
  | nil =>
    obtain ⟨hplace, hserves, hrest⟩ := h
    rw [hplace]
    exact ⟨.inr ⟨rfl, le_rfl⟩, hserves, hrest⟩
  | cons first log ih =>
    obtain ⟨hplace, hserves, hrest⟩ := h
    obtain ⟨hle, hthen⟩ := ih hrest
    rw [← hplace] at hserves ⊢
    exact ⟨hserves.forward.1.trans hle, hthen⟩

/-- A later event of a file ends at a greater number than a place before it. -/
theorem Serves.number_lt {p q r : DumpPlace} (h : Serves q e r) (hlogged : e.body.isLogged = true)
    (hpq : p.UpTo q) (hp : p.offset < 2 ^ 32) : p.number < r.number := by
  obtain ⟨hfile, hoffset⟩ := h.forward.2 hlogged
  have hlt : q.number < r.number := by
    rw [DumpPlace.number, DumpPlace.number, hfile]
    omega
  exact (hpq.number_le hp).trans_lt hlt

/-- A Commit is sent between groups. -/
theorem Serves.after_commit (h : Serves p e q) (hbody : e.body = .heartbeat ∨ e.body = .xid) :
    q.inGroup = false := by
  cases h with
  | opened | rotated | format => rcases hbody with hbody | hbody <;> cases hbody
  | heartbeat size hgroup => exact hgroup
  | logged body size start logPos inGroup hlogged _ _ _ hxid =>
    rcases hbody with rfl | rfl
    · cases hlogged
    · exact hxid rfl

open BinlogSource

/-- An event of 30 bytes, somewhere in a file. -/
def eventAt (file : String) (start : ℕ) (before : Bool) (body : BinlogBody) (after : Bool) :
    Delivery :=
  ⟨⟨file, start, before⟩, ⟨30, (start + 30) % 2 ^ 32, body⟩, oneTableReads,
    ⟨file, start + 30, after⟩⟩

/-- A group that inserts one row. -/
def insertAt (file : String) (start : ℕ) : List Delivery :=
  [eventAt file start false (.query (some ("shop", "BEGIN"))) true,
    eventAt file (start + 30) true
      (.tableMap 87 ⟨("shop", "orders"), [⟨15, [255, 0], none⟩]⟩ []) true,
    eventAt file (start + 60) true (.rows 87 .write [⟨none, some [.bytes [55]]⟩]) true,
    eventAt file (start + 90) true .xid false]

/-- A group of two row events. -/
def insertTwice (file : String) (start : ℕ) : List Delivery :=
  [eventAt file start false (.query (some ("shop", "BEGIN"))) true,
    eventAt file (start + 30) true
      (.tableMap 87 ⟨("shop", "orders"), [⟨15, [255, 0], none⟩]⟩ []) true,
    eventAt file (start + 60) true (.rows 87 .write [⟨none, some [.bytes [55]]⟩]) true,
    eventAt file (start + 90) true (.rows 87 .write [⟨none, some [.bytes [56]]⟩]) true,
    eventAt file (start + 120) true .xid false]

/-- A connection that is sent such a group. -/
def connectedAt (file : String) (start : ℕ) (rest : List Delivery) : List Delivery :=
  ⟨⟨file, start, false⟩, ⟨47, 0, .rotate (some (file, start))⟩, oneTableReads,
    ⟨file, start, false⟩⟩ :: rest

theorem serves_eventAt (file : String) (start : ℕ) (before : Bool) {body : BinlogBody}
    {after : Bool} (hbody : body.isLogged = true) (hxid : body = .xid → after = false) :
    Serves ⟨file, start, before⟩ (eventAt file start before body after).event
      ⟨file, start + 30, after⟩ :=
  .logged _ body 30 start _ after hbody (by decide) le_rfl (fun _ => rfl) hxid (.inl rfl)

theorem dumped_insertAt (file : String) (start : ℕ) :
    Dumped ⟨file, start, false⟩ (insertAt file start) := by
  refine ⟨rfl, ?_, rfl, ?_, rfl, ?_, rfl, ?_, trivial⟩
  · exact serves_eventAt _ _ _ rfl fun h => by cases h
  · exact serves_eventAt _ _ _ rfl fun h => by cases h
  · exact serves_eventAt _ _ _ rfl fun h => by cases h
  · exact serves_eventAt _ _ _ rfl fun _ => rfl

theorem dumped_insertTwice (file : String) (start : ℕ) :
    Dumped ⟨file, start, false⟩ (insertTwice file start) := by
  refine ⟨rfl, ?_, rfl, ?_, rfl, ?_, rfl, ?_, rfl, ?_, trivial⟩
  · exact serves_eventAt _ _ _ rfl fun h => by cases h
  · exact serves_eventAt _ _ _ rfl fun h => by cases h
  · exact serves_eventAt _ _ _ rfl fun h => by cases h
  · exact serves_eventAt _ _ _ rfl fun h => by cases h
  · exact serves_eventAt _ _ _ rfl fun _ => rfl

theorem connected_connectedAt {start : ℕ} {rest : List Delivery}
    (h : Dumped ⟨file, start, false⟩ rest) :
    Connected ⟨file, start, false⟩ (connectedAt file start rest) := by
  refine ⟨rfl, ⟨rfl, .opened _ 47 0 rfl, h⟩, ?_⟩
  intro d hd
  obtain rfl := Option.some.inj hd
  rfl

/-- A heartbeat ahead of what follows. -/
def heartbeatAt (file : String) (offset : ℕ) : Delivery :=
  ⟨⟨file, offset, false⟩, ⟨40, offset % 2 ^ 32, .heartbeat⟩, oneTableReads, ⟨file, offset, false⟩⟩

/-- The row that is inserted, with a version. -/
def orderSeven (version : ℕ) : ChangeEvent :=
  .row ⟨("shop", "orders"), .insert (.str "7") (.obj [("id", .str "7")]), some version⟩

/-- A source of a table with a collection. -/
def ordersWithLines : BinlogSource :=
  { oneTable with
    watch := mysqlConfig [⟨("shop", "orders"), [⟨"shop", "lines", "lines", "order_id", none⟩], []⟩]
      (List.Perm.refl _) (List.Perm.refl _) }

/-- What is sent of a connection. -/
def sentOf (src : BinlogSource) (file : String) (pos : ℕ) (log : List Delivery) :
    List ChangeEvent :=
  (Emission.run src.step (.start file pos) (log.map Delivery.turn)).1

/-- A token is that of the state in which it was sent, whatever the range. -/
theorem not_followsLog_of_sent {src : BinlogSource} {pos : ℕ} (before : List Delivery)
    (d : Delivery) (after : List Delivery) (lsn : ℕ) {s : BinlogState}
    (hsplit : log = before ++ d :: after) (hs : src.Reached file pos before s)
    (hsent : ChangeEvent.commit lsn ∈ (src.step s d.turn).1) (hlsn : lsn ≠ src.trueToken d.after) :
    ¬src.FollowsLog (fun _ _ => True) file pos log :=
  fun h => hlsn (h.isTrue before d after _ lsn hsplit ⟨⟨s, hs, trivial, hsent⟩, rfl⟩)

/-- The versions of the rows that are sent, in order. -/
def rowVersions (sent : List ChangeEvent) : List ℕ :=
  sent.filterMap fun e => match e with
    | .row change => change.version
    | _ => none

end MySql

end Pg2osync
