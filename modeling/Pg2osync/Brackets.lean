import Pg2osync.BinlogStream
import Pg2osync.WalStream

/-!
# Brackets around transactions

The engine takes what a source sends for rows of a transaction between its Begin and its
Commit. Of a source that is given whole transactions, one after the other with other
messages in between, this says what it has to send for each: a Begin, then the
transaction's rows and truncations and nothing else, then one Commit at its end.
-/

namespace Pg2osync

open Emission

variable {σ μ : Type}

/-- A source, as far as the shape of what it sends goes. -/
structure Streaming (σ μ : Type) : Type where
  /-- how it takes a message -/
  step : σ → μ → List ChangeEvent × Except CoreError σ
  /-- where it starts -/
  start : σ
  /-- a message has a row that is a document of its own -/
  sends : RowChange → σ → μ → Prop
  /-- a message has a row whose document is put together later -/
  holds : RowChange → σ → μ → Prop
  /-- a message is about the documents of a table -/
  concerns : TableName → σ → μ → Prop
  /-- a message empties a table -/
  truncates : TableName → σ → μ → Prop

/-- What a source is given: transactions, which end at a position, and messages in
between. -/
inductive StreamItem (σ μ : Type) : Type where
  /-- a transaction -/
  | transaction (msgs : List μ) (endLsn : σ → Lsn) : StreamItem σ μ
  /-- a message between two -/
  | between (m : μ) : StreamItem σ μ

/-- Its messages. -/
def StreamItem.messages : StreamItem σ μ → List μ
  | .transaction msgs _ => msgs
  | .between m => [m]

/-- Whether it is a transaction. -/
def StreamItem.isTransaction : StreamItem σ μ → Bool
  | .transaction _ _ => true
  | .between _ => false

variable {sent : List ChangeEvent}

namespace Streaming

variable (M : Streaming σ μ)

/-- What is sent belongs to some messages. -/
def Own (s : σ) (msgs : List μ) : ChangeEvent → Prop
  | .row change => Emission.During M.step (M.concerns change.table) s msgs
  | .tableTruncated t _ => Emission.During M.step (M.truncates t) s msgs
  | .schemaDrift _ _ => True
  | .begin _ | .commit _ | .loadMark _ | .loadStarted | .loadFinished => False

/-- All that some messages have is sent. -/
structure Carried (s : σ) (msgs : List μ) (sent : List ChangeEvent) : Prop where
  /-- documents of their own -/
  sends : ∀ change, Emission.During M.step (M.sends change) s msgs → .row change ∈ sent
  /-- documents that are put together -/
  holds : ∀ change, Emission.During M.step (M.holds change) s msgs →
    ∃ row, .row row ∈ sent ∧ row.SameRow change
  /-- truncations -/
  truncates : ∀ t, Emission.During M.step (M.truncates t) s msgs →
    ∃ version, .tableTruncated t version ∈ sent

/-- What a source sends of a transaction is bracketed. One that ends in an error has sent a
part of it. -/
def Bracketed (s : σ) (msgs : List μ) (endLsn : σ → Lsn) : Prop :=
  ∃ lsn sent, (∀ e ∈ sent, M.Own s msgs e) ∧
    match (Emission.run M.step s msgs).2 with
    | .ok _ => (Emission.run M.step s msgs).1 = .begin lsn :: (sent ++ [.commit (endLsn s)]) ∧
        M.Carried s msgs sent
    | .error _ => (Emission.run M.step s msgs).1 = .begin lsn :: sent

variable {M} in
theorem bracketed_of_ok {s next : σ} {msgs : List μ} {endLsn : σ → Lsn} {lsn : Lsn}
    (h : run M.step s msgs = (.begin lsn :: (sent ++ [.commit (endLsn s)]), .ok next))
    (hown : ∀ e ∈ sent, M.Own s msgs e) (hcarried : M.Carried s msgs sent) :
    M.Bracketed s msgs endLsn := by
  refine ⟨lsn, sent, hown, ?_⟩
  rw [h]
  exact ⟨rfl, hcarried⟩

variable {M} in
theorem bracketed_of_error {s : σ} {msgs : List μ} {endLsn : σ → Lsn} {lsn : Lsn} {e : CoreError}
    (h : run M.step s msgs = (.begin lsn :: sent, .error e))
    (hown : ∀ e ∈ sent, M.Own s msgs e) : M.Bracketed s msgs endLsn := by
  refine ⟨lsn, sent, hown, ?_⟩
  rw [h]

/-- Between transactions there are positions and reports, and what has no transaction. -/
def Quiet : ChangeEvent → Prop
  | .commit _ | .schemaDrift _ _ | .tableTruncated _ _ => True
  | .begin _ | .row _ | .loadMark _ | .loadStarted | .loadFinished => False

/-- What a source that is in a state sends for what comes next has its shape. -/
def Shaped (s : σ) : StreamItem σ μ → Prop
  | .transaction msgs endLsn => M.Bracketed s msgs endLsn
  | .between m => ∀ e ∈ (M.step s m).1, Quiet e

/-- **Brackets**: all that a source sends has its shape, as far as it comes. -/
def Brackets (items : List (StreamItem σ μ)) : Prop :=
  ∀ before item after, items = before ++ item :: after → ∀ sent s,
    Emission.run M.step M.start (before.flatMap StreamItem.messages) = (sent, .ok s) →
      M.Shaped s item

variable {M}

/-- A state that every item leads back to is the one that all of them lead back to. -/
theorem idle_of_run (idle : σ → Prop) {items : List (StreamItem σ μ)}
    (hidle : ∀ item ∈ items, ∀ s sent next, idle s →
      run M.step s item.messages = (sent, .ok next) → idle next) {s next : σ} (hs : idle s)
    (h : run M.step s (items.flatMap StreamItem.messages) = (sent, .ok next)) :
    idle next := by
  induction items generalizing s sent with
  | nil =>
    obtain rfl := Except.ok.inj (Prod.mk.inj h).2
    exact hs
  | cons first rest ih =>
    rw [List.flatMap_cons] at h
    obtain ⟨now, between, more, hfirst, hrest, -⟩ := run_append_eq_ok h
    exact ih (fun item hitem => hidle item (List.mem_cons_of_mem _ hitem))
      (hidle first List.mem_cons_self s now between hs hfirst) hrest

/-- What has its shape from every idle state has it wherever it comes. -/
theorem brackets_of_idle (idle : σ → Prop) {items : List (StreamItem σ μ)}
    (hstart : idle M.start)
    (hidle : ∀ item ∈ items, ∀ s sent next, idle s →
      run M.step s item.messages = (sent, .ok next) → idle next)
    (hshape : ∀ item ∈ items, ∀ s, idle s → M.Shaped s item) : M.Brackets items := by
  intro before item after hitems sent s hrun
  have hmem : item ∈ items := hitems ▸ List.mem_append_right _ List.mem_cons_self
  have hbefore : ∀ item ∈ before, item ∈ items :=
    fun item hitem => hitems ▸ List.mem_append_left _ hitem
  exact hshape item hmem s
    (idle_of_run idle (fun item hitem => hidle item (hbefore item hitem)) hstart hrun)

end Streaming

/-! ## PostgreSQL -/

variable {reads : FlushReads} {s next : WalState} {s : WalState}

namespace WalSource

variable (src : WalSource)

/-- The source, from a new connection. -/
def streaming : Streaming WalState (WalMessage × FlushReads) where
  step := src.step
  start := .start
  sends change s turn := ∃ c, src.Classifies (.row c) s turn ∧
    change = { c with version := s.txnVersion }
  holds change s turn := ∃ t, src.Classifies (.parentRow t change) s turn
  concerns := src.Concerns
  truncates := Truncates

/-- What a PostgreSQL server sends: a transaction's messages between its Begin and its
Commit, and between transactions nothing that belongs to one. -/
inductive Delivered : StreamItem WalState (WalMessage × FlushReads) → Prop where
  /-- a transaction -/
  | transaction (finalLsn endLsn : Lsn) (first last : FlushReads)
      (body : List (WalMessage × FlushReads)) (hbody : ∀ m ∈ body, m.1.isBoundary = false) :
      Delivered (.transaction ((.begin finalLsn, first) :: (body ++ [(.commit endLsn, last)]))
        fun _ => endLsn)
  /-- something in between -/
  | between (m : WalMessage × FlushReads) (hboundary : m.1.isBoundary = false)
      (hchange : m.1.isChange = false) : Delivered (.between m)

/-- No transaction is open, and nothing is held. -/
def Idle (s : WalState) : Prop :=
  s.inTransaction = false ∧ s.pending = .empty

variable {src}

theorem idle_between {m : WalMessage × FlushReads} (hboundary : m.1.isBoundary = false)
    (hchange : m.1.isChange = false) (hs : Idle s) (h : src.step s m = (sent, .ok next)) :
    Idle next := by
  obtain ⟨message, reads⟩ := m
  cases message with
  | begin | commit => cases hboundary
  | truncate | row => cases hchange
  | relation | message | keepAlive | other =>
    obtain rfl := Except.ok.inj (Prod.mk.inj h).2
    exact hs

theorem quiet_between {m : WalMessage × FlushReads} (hboundary : m.1.isBoundary = false)
    (hchange : m.1.isChange = false) : ∀ e ∈ (src.step s m).1, Streaming.Quiet e := by
  obtain ⟨message, reads⟩ := m
  intro e he
  cases message with
  | begin | commit => cases hboundary
  | truncate | row => cases hchange
  | other => cases he
  | relation relId rel =>
    simp only [step, driftEvents] at he
    split at he
    · cases he
    · split at he
      · cases he
      · rw [List.mem_singleton.mp he]
        trivial
  | message | keepAlive =>
    simp only [step] at he
    split at he
    · cases he
    · rw [List.mem_singleton.mp he]
      trivial

/-- A commit leaves the source idle. -/
theorem idle_commit {endLsn : Lsn} (h : src.step s (.commit endLsn, reads) = (sent, .ok next)) :
    Idle next ∧ ∃ flushed, s.flush reads = (flushed, .ok { s with pending := .empty }) ∧
      sent = flushed ++ [.commit endLsn] := by
  simp only [step] at h
  split at h
  · next flushed between hflush =>
    obtain ⟨rfl, hnext⟩ := Prod.mk.inj h
    obtain rfl := Except.ok.inj hnext
    obtain ⟨rfl, -⟩ := flush_ok hflush
    exact ⟨⟨rfl, rfl⟩, flushed, hflush, rfl⟩
  · cases (Prod.mk.inj h).2

theorem commit_error {endLsn : Lsn} {e : CoreError}
    (h : src.step s (.commit endLsn, reads) = (sent, .error e)) : (s.flush reads).1 = sent := by
  simp only [step] at h
  split at h
  · cases (Prod.mk.inj h).2
  · next flushed e' hflush =>
    rw [hflush]
    exact (Prod.mk.inj h).1

section

variable {finalLsn endLsn : Lsn} {first last : FlushReads}
  {body : List (WalMessage × FlushReads)} {s : WalState}

/-- The state that a transaction opens. -/
def opened (s : WalState) (finalLsn : Lsn) : WalState :=
  { s with inTransaction := true, txnVersion := some finalLsn }

theorem idle_transaction {next : WalState}
    (h : run src.step s ((.begin finalLsn, first) :: (body ++ [(.commit endLsn, last)])) =
      (sent, .ok next)) : Idle next := by
  obtain ⟨_, _, _, -, h, -⟩ := run_cons_eq_ok h
  obtain ⟨_, _, _, -, h, -⟩ := run_append_eq_ok h
  obtain ⟨_, _, _, hcommit, h, -⟩ := run_cons_eq_ok h
  obtain rfl := Except.ok.inj (Prod.mk.inj h).2
  exact (idle_commit hcommit).1

/-- What happens in the body happens in the transaction. -/
theorem during_transaction {p : WalState → WalMessage × FlushReads → Prop}
    (h : Emission.During src.step p (opened s finalLsn) body) :
    Emission.During src.step p s ((.begin finalLsn, first) :: (body ++ [(.commit endLsn, last)])) :=
  .inr ⟨_, rfl, h.append _⟩

/-- Nothing in the body strays from what the transaction is about. -/
theorem not_strays_transaction (src : WalSource) (s : WalState)
    (txn : List (WalMessage × FlushReads))
    (htxn : txn = (.begin finalLsn, first) :: (body ++ [(.commit endLsn, last)])) :
    ¬Emission.During src.step
      (Strays src (fun t => Emission.During src.step (src.Concerns t) s txn)
        fun t => Emission.During src.step (Truncates t) s txn) (opened s finalLsn) body := by
  intro h
  obtain ⟨t, h⟩ := during_exists h
  rcases during_or h with h | h
  · refine during_of_and h ?_
    rw [htxn]
    exact during_transaction (h.imp fun _ _ h => h.1)
  · refine during_of_and h ?_
    rw [htxn]
    exact during_transaction (h.imp fun _ _ h => h.1)

/-- What the body sends belongs to the transaction, and so does what is left to be sent. -/
theorem body_own (src : WalSource) (finalLsn endLsn : Lsn) (first last : FlushReads)
    {txn : List (WalMessage × FlushReads)}
    (htxn : txn = (.begin finalLsn, first) :: (body ++ [(.commit endLsn, last)]))
    (hbody : ∀ m ∈ body, m.1.isBoundary = false) (hs : Idle s) :
    (∀ e ∈ (run src.step (opened s finalLsn) body).1, src.streaming.Own s txn e) ∧
      ∀ sent next, run src.step (opened s finalLsn) body = (sent, .ok next) →
        next.pending.About fun t => Emission.During src.step (src.Concerns t) s txn := by
  let good := fun t => Emission.During src.step (src.Concerns t) s txn
  let truncated := fun t => Emission.During src.step (Truncates t) s txn
  have hopened : (opened s finalLsn).inTransaction = true ∧
      (opened s finalLsn).pending.About good := by
    refine ⟨rfl, ?_⟩
    rw [opened, hs.2]
    exact ChildrenPending.about_empty
  have hstray := not_strays_transaction src s txn htxn
  have hstep : ∀ m ∈ body, ∀ (s : WalState) sent next,
      s.inTransaction = true ∧ s.pending.About good → ¬Strays src good truncated s m →
        src.step s m = (sent, .ok next) →
          next.inTransaction = true ∧ next.pending.About good := by
    rintro m hm s sent next ⟨hopen, habout⟩ hstray hnow
    exact ⟨(step_inner (hbody m hm) hnow).1.trans hopen,
      step_about (hbody m hm) habout hstray hnow⟩
  constructor
  · have hfine := run_sends_unless
      (fun s => s.inTransaction = true ∧ s.pending.About good) hstep
      (fun m hm _ hopen hstray => step_fine (hbody m hm) hopen.1 hopen.2 hstray) hopened hstray
    intro e he
    have h := hfine e he
    cases e with
    | row change | tableTruncated t version | schemaDrift => exact h
    | begin | commit | loadMark | loadStarted | loadFinished => exact h.elim
  · intro sent next hrun
    exact (run_keeps_unless
      (fun s => s.inTransaction = true ∧ s.pending.About good) hstep hopened hstray hrun).2

/-- What a transaction sends once all of it was taken. -/
theorem carried_of_run {txn : List (WalMessage × FlushReads)} {begun : Lsn} {next : WalState}
    (hnext : Idle next)
    (hrun : run src.step s txn = (.begin begun :: (sent ++ [.commit endLsn]), .ok next)) :
    src.streaming.Carried s txn sent := by
  -- a row or a truncation is neither the Begin nor the Commit
  have hinner : ∀ e ∈ .begin begun :: (sent ++ [.commit endLsn]), (∀ lsn, e ≠ .begin lsn) →
      (∀ lsn, e ≠ .commit lsn) → e ∈ sent := by
    intro e he hbegin hcommit
    rcases List.mem_cons.mp he with rfl | he
    · exact absurd rfl (hbegin begun)
    · rcases List.mem_append.mp he with he | he
      · exact he
      · exact absurd (List.mem_singleton.mp he) (hcommit endLsn)
  constructor
  · intro change hchange
    have hsettled := run_settles (fun _ => False) (· = .row change)
      (fun m _ s sent next hstep howed => .inl ?_) hrun (.inr hchange)
    · obtain ⟨e, he, rfl⟩ := hsettled.resolve_right id
      exact hinner _ he (fun _ h => by cases h) fun _ h => by cases h
    · obtain ⟨c, hc, rfl⟩ := howed.resolve_left id
      exact ⟨_, step_row hc hstep, rfl⟩
  · intro change hchange
    obtain ⟨t, hchange⟩ := during_exists hchange
    have hsettled := run_settles (fun s => (t, change) ∈ s.pending.parents)
      (fun e => ∃ row, e = .row row ∧ row.SameRow change)
      (fun m _ s sent next hstep howed => step_held hstep howed) hrun (.inr hchange)
    rcases hsettled with ⟨e, he, row, rfl, hsame⟩ | howed
    · exact ⟨row, hinner _ he (fun _ h => by cases h) (fun _ h => by cases h), hsame⟩
    · rw [hnext.2] at howed
      cases howed
  · intro t ht
    have hsettled := run_settles (fun _ => False)
      (fun e => ∃ version, e = .tableTruncated t version)
      (fun m _ s sent next hstep howed => .inl ?_) hrun (.inr ht)
    · obtain ⟨e, he, version, rfl⟩ := hsettled.resolve_right id
      exact ⟨version, hinner _ he (fun _ h => by cases h) fun _ h => by cases h⟩
    · exact ⟨_, step_truncate (howed.resolve_left id) hstep, _, rfl⟩

/-- **A transaction of a PostgreSQL source is bracketed.** -/
theorem bracketed_transaction (hbody : ∀ m ∈ body, m.1.isBoundary = false) (hs : Idle s) :
    src.streaming.Bracketed s ((.begin finalLsn, first) :: (body ++ [(.commit endLsn, last)]))
      fun _ => endLsn := by
  have hbegin : src.step s (.begin finalLsn, first) =
      ([.begin finalLsn], .ok (opened s finalLsn)) := rfl
  obtain ⟨hown, habout⟩ := body_own src finalLsn endLsn first last rfl hbody hs
  cases hrun : run src.step (opened s finalLsn) body with
  | mk sent result =>
    rw [hrun] at hown
    cases result with
    | error e =>
      have htxn : run src.step s
          ((.begin finalLsn, first) :: (body ++ [(.commit endLsn, last)])) =
            (.begin finalLsn :: sent, .error e) := by
        rw [run_cons_ok hbegin, run_append_error hrun]
        rfl
      exact Streaming.bracketed_of_error htxn hown
    | ok next =>
      have hflush : ∀ e ∈ (next.flush last).1, src.streaming.Own s
          ((.begin finalLsn, first) :: (body ++ [(.commit endLsn, last)])) e := by
        intro e he
        obtain ⟨row, hrow, rfl⟩ := mem_flush he
        exact about_flushPending (habout sent next hrun) row hrow
      cases hcommit : src.step next (.commit endLsn, last) with
      | mk more result =>
        have htxn : run src.step s
            ((.begin finalLsn, first) :: (body ++ [(.commit endLsn, last)])) =
              (.begin finalLsn :: (sent ++ more), result) := by
          rw [run_cons_ok hbegin, run_append_ok hrun]
          cases result with
          | error e => rw [run_cons_error hcommit]; rfl
          | ok final =>
            rw [run_cons_ok hcommit, run, List.append_nil]
            rfl
        cases result with
        | error e =>
          rw [← commit_error hcommit] at htxn
          exact Streaming.bracketed_of_error htxn fun e he =>
            (List.mem_append.mp he).elim (hown e) (hflush e)
        | ok final =>
          obtain ⟨hfinal, flushed, hflushed, rfl⟩ := idle_commit hcommit
          rw [hflushed] at hflush
          rw [← List.append_assoc] at htxn
          exact Streaming.bracketed_of_ok htxn
            (fun e he => (List.mem_append.mp he).elim (hown e) (hflush e))
            (carried_of_run hfinal htxn)

end

end WalSource

/-! ## MySQL -/

variable {file : String} {pos : ℕ}

namespace MySql.BinlogSource

variable (src : BinlogSource)

/-- Rows of a row event, with the table they are decoded by. -/
def Decodes (rt : Registration) (kind : RowsKind) (row : RowsRow) (s : BinlogState)
    (turn : BinlogEvent × BinlogReads) : Prop :=
  ∃ tableId raw rows, turn.1.body = .rows tableId kind raw ∧ s.registered tableId = some rt ∧
    raw.mapM (decodeRow src.decode rt.metas) = .ok rows ∧ row ∈ rows

/-- The token of the state in which an event is taken. -/
def tokenOf (s : BinlogState) (turn : BinlogEvent × BinlogReads) : ℕ :=
  src.tokenAt s.currentFile (endPos s.currentPos turn.1)

/-- Whether a table has collections. -/
def hasCollections (t : TableName) : Bool :=
  !(src.watch.children t).isEmpty || !(src.watch.aggregates t).isEmpty

/-- The source, from a coordinate. -/
def streaming (file : String) (pos : ℕ) : Streaming BinlogState (BinlogEvent × BinlogReads) where
  step := src.step
  start := .start file pos
  sends change s turn := ∃ rt kind row, src.Decodes rt kind row s turn ∧
    src.watch.childParents rt.table = none ∧ src.hasCollections rt.table = false ∧
      rt.buildChange kind row (src.tokenOf s turn) = .ok change
  holds change s turn := ∃ rt kind row, src.Decodes rt kind row s turn ∧
    src.watch.childParents rt.table = none ∧ src.hasCollections rt.table = true ∧
      rt.buildChange kind row (src.tokenOf s turn) = .ok change
  concerns t s turn := ∃ rt kind row, src.Decodes rt kind row s turn ∧
    (src.watch.childParents rt.table).getD rt.table = t
  truncates t _ turn := ∃ database sql, turn.1.body = .query (some (database, sql)) ∧
    (truncatedTable src.alphanumeric sql database).filter src.tables = some t

/-- What stands within a group: statements, table maps and rows. -/
def inGroup : BinlogBody → Bool
  | .query _ | .tableMap _ _ _ | .rows _ _ _ | .partialUpdateRows | .other => true
  | .heartbeat | .formatDescription | .rotate _ | .xid => false

/-- What stands between groups: the files and where the log ends, and statements that are
a group of their own. -/
def betweenGroups : BinlogBody → Bool
  | .heartbeat | .formatDescription | .rotate _ | .query _ | .other => true
  | .tableMap _ _ _ | .rows _ _ _ | .partialUpdateRows | .xid => false

/-- The end of a group: an XID, or the statement that stands for it where a storage engine
has no transactions. -/
def endsGroup : BinlogBody → Bool
  | .xid => true
  | .query (some (_, sql)) => sql = "COMMIT"
  | .heartbeat | .formatDescription | .rotate _ | .query none | .tableMap _ _ _ | .rows _ _ _ |
      .partialUpdateRows | .other => false

/-- What a MySQL server sends. -/
inductive Delivered : StreamItem BinlogState (BinlogEvent × BinlogReads) → Prop where
  /-- a group, which ends where its last event says -/
  | group (body : List (BinlogEvent × BinlogReads)) (last : BinlogEvent × BinlogReads)
      (hbody : ∀ m ∈ body, inGroup m.1.body = true) (hlast : endsGroup last.1.body = true)
      (hpos : last.1.logPos ≠ 0) :
      Delivered (.transaction (body ++ [last]) fun s => src.tokenAt s.currentFile last.1.logPos)
  /-- something in between -/
  | between (m : BinlogEvent × BinlogReads) (hm : betweenGroups m.1.body = true) :
      Delivered (.between m)

variable {src}

/-! ### No Begin is sent -/

/-- An event that opens no transaction. -/
def NoBegin (e : ChangeEvent) : Prop :=
  ∀ lsn, e ≠ .begin lsn

theorem noBegin_row (change : RowChange) : NoBegin (.row change) := by
  intro lsn h
  cases h

variable {s : BinlogState}

theorem noBegin_flush {version : ℕ} : ∀ e ∈ (s.flush reads version).1, NoBegin e := by
  intro e he
  obtain ⟨row, -, rfl⟩ := List.mem_map.mp he
  exact noBegin_row row

theorem noBegin_holdRows {rt : Registration} {kind : RowsKind} {rows : List RowsRow} :
    ∀ e ∈ (src.holdRows s rt kind rows).1, NoBegin e := by
  intro e he
  rw [holdRows] at he
  split at he
  · cases he
  · split at he
    · refine run_sends (fun _ => True) (fun _ _ _ _ _ _ _ => trivial)
        (fun row _ _ _ e he => ?_) trivial e he
      rw [sendRow] at he
      split at he
      · cases he
      · rw [List.mem_singleton.mp he]
        exact noBegin_row _
    · cases he

variable {tableId : ℕ}

theorem noBegin_takeRows {kind : RowsKind} {rows : List RawRow} :
    ∀ e ∈ (src.takeRows s reads tableId kind rows).1, NoBegin e := by
  intro e he
  rw [takeRows] at he
  split at he
  · cases he
  · next rt hrt =>
    split at he
    · cases he
    · next rows hrows =>
      have hheld : ∀ e ∈ (src.holdRows s rt kind rows).1, NoBegin e := noBegin_holdRows
      split at he
      · next sent err hhold =>
        rw [hhold] at hheld
        exact hheld e he
      · next sent held hhold =>
        rw [hhold] at hheld
        split at he
        · rcases List.mem_append.mp he with he | he
          · exact hheld e he
          · exact noBegin_flush e he
        · exact hheld e he

theorem noBegin_takeTableMapAgain {reads : BinlogReads} {info : TableMeta} {names : List String}
    {before : ℕ} :
    ∀ e ∈ (src.takeTableMapAgain s reads tableId info names before).1, NoBegin e := by
  intro e he
  rw [takeTableMapAgain] at he
  split at he
  · cases he
  · rw [List.mem_singleton.mp he]
    intro lsn h
    cases h

theorem noBegin_takeTableMap {reads : BinlogReads} {info : TableMeta} {names : List String} :
    ∀ e ∈ (src.takeTableMap s reads tableId info names).1, NoBegin e := by
  intro e he
  rw [takeTableMap] at he
  split at he
  · split at he
    · cases he
    · next columns resolved drift schemas _ =>
      have hreported : ∀ e ∈ drift.toList.map (ChangeEvent.schemaDrift info.table), NoBegin e := by
        intro e he
        obtain ⟨report, -, rfl⟩ := List.mem_map.mp he
        intro lsn h
        cases h
      dsimp only at he
      split at he
      · exact hreported e he
      · rcases List.mem_append.mp he with he | he
        · exact hreported e he
        · exact noBegin_takeTableMapAgain e he
  · cases he

theorem noBegin_takeQuery {database sql : String} :
    ∀ e ∈ (src.takeQuery s database sql).1, NoBegin e := by
  intro e he
  rw [takeQuery] at he
  split at he
  · rw [List.mem_singleton.mp he]
    intro lsn h
    cases h
  · split at he
    · cases he
    · split at he <;> cases he

theorem noBegin_takeXid : ∀ e ∈ (src.takeXid s reads).1, NoBegin e := by
  intro e he
  have hflush : ∀ e ∈ (s.flush reads (src.token s)).1, NoBegin e := noBegin_flush
  rw [takeXid] at he
  split at he
  · next sent next hsent =>
    rw [hsent] at hflush
    rcases List.mem_append.mp he with he | he
    · exact hflush e he
    · rw [List.mem_singleton.mp he]
      intro lsn h
      cases h
  · next sent err hsent =>
    rw [hsent] at hflush
    exact hflush e he

variable {turn : BinlogEvent × BinlogReads}

/-- No event of the binlog makes the source send a Begin. -/
theorem noBegin_step : ∀ e ∈ (src.step s turn).1, NoBegin e := by
  intro e he
  rw [step] at he
  split at he
  · cases he
  · cases he
  · cases he
  · cases he
  · split at he <;> cases he
  · exact noBegin_takeQuery e he
  · rw [List.mem_singleton.mp he]
    intro lsn h
    cases h
  · exact noBegin_takeXid e he
  · exact noBegin_takeTableMap e he
  · exact noBegin_takeRows e he
  · cases he

/-- No transaction of a MySQL source is bracketed. -/
theorem not_bracketed (s : BinlogState) (msgs : List (BinlogEvent × BinlogReads))
    (endLsn : BinlogState → Lsn) : ¬(src.streaming file pos).Bracketed s msgs endLsn := by
  have hnone : ∀ e ∈ (run src.step s msgs).1, NoBegin e :=
    run_sends (fun _ => True) (fun _ _ _ _ _ _ _ => trivial)
      (fun _ _ _ _ => noBegin_step) trivial
  rintro ⟨lsn, sent, -, h⟩
  have hbegin : ChangeEvent.begin lsn ∈ (run src.step s msgs).1 := by
    change ChangeEvent.begin lsn ∈ (run (src.streaming file pos).step s msgs).1
    split at h
    · rw [h.1]
      exact List.mem_cons_self
    · rw [h]
      exact List.mem_cons_self
  exact hnone _ hbegin lsn rfl

theorem not_shaped {item : StreamItem BinlogState (BinlogEvent × BinlogReads)}
    (h : item.isTransaction = true) : ¬(src.streaming file pos).Shaped s item := by
  cases item with
  | transaction msgs endLsn => exact not_bracketed s msgs endLsn
  | between m => cases h

/-! ### Between groups -/

theorem takeQuery_isOk (s : BinlogState) (database sql : String) :
    ∃ next, (src.takeQuery s database sql).2 = .ok next := by
  rw [takeQuery]
  split
  · exact ⟨_, rfl⟩
  · split
    · exact ⟨_, rfl⟩
    · split <;> exact ⟨_, rfl⟩

/-- What stands between groups ends no stream. -/
theorem step_between_ok (h : betweenGroups turn.1.body = true) :
    ∃ next, (src.step s turn).2 = .ok next := by
  rw [step]
  split
  · exact ⟨_, rfl⟩
  · exact ⟨_, rfl⟩
  · exact ⟨_, rfl⟩
  · exact ⟨_, rfl⟩
  · split <;> exact ⟨_, rfl⟩
  · exact takeQuery_isOk _ _ _
  · exact ⟨_, rfl⟩
  · next hbody =>
    rw [hbody] at h
    cases h
  · next hbody =>
    rw [hbody] at h
    cases h
  · next hbody =>
    rw [hbody] at h
    cases h
  · next hbody =>
    rw [hbody] at h
    cases h

theorem quiet_between (h : betweenGroups turn.1.body = true) :
    ∀ e ∈ (src.step s turn).1, Streaming.Quiet e := by
  intro e he
  rw [step] at he
  split at he
  · cases he
  · cases he
  · cases he
  · cases he
  · split at he <;> cases he
  · rw [takeQuery] at he
    split at he
    · rw [List.mem_singleton.mp he]
      trivial
    · split at he
      · cases he
      · split at he <;> cases he
  · rw [List.mem_singleton.mp he]
    trivial
  · next hbody =>
    rw [hbody] at h
    cases h
  · next hbody =>
    rw [hbody] at h
    cases h
  · next hbody =>
    rw [hbody] at h
    cases h
  · cases he

theorem run_between_ok {items : List (StreamItem BinlogState (BinlogEvent × BinlogReads))}
    (hitems : ∀ item ∈ items, Delivered src item)
    (hnone : ∀ item ∈ items, item.isTransaction = false)
    (s : BinlogState) : ∃ sent next,
      run src.step s (items.flatMap StreamItem.messages) = (sent, .ok next) := by
  induction items generalizing s with
  | nil => exact ⟨[], s, rfl⟩
  | cons item rest ih =>
    have hitem := hitems item List.mem_cons_self
    have hnot := hnone item List.mem_cons_self
    cases hitem with
    | group => cases hnot
    | between m hm =>
      obtain ⟨next, hnext⟩ : ∃ next, (src.step s m).2 = .ok next := step_between_ok hm
      obtain ⟨sent, final, hrun⟩ := ih
        (fun item hitem => hitems item (List.mem_cons_of_mem _ hitem))
        (fun item hitem => hnone item (List.mem_cons_of_mem _ hitem)) next
      have hstep : src.step s m = ((src.step s m).1, .ok next) := Prod.ext rfl hnext
      refine ⟨(src.step s m).1 ++ sent, final, ?_⟩
      change run src.step s (m :: rest.flatMap StreamItem.messages) = _
      rw [run_cons_ok hstep, hrun]

end MySql.BinlogSource

theorem WalSource.idle_item {src : WalSource} {item : StreamItem WalState (WalMessage × FlushReads)}
    (hitem : Delivered item) (hs : Idle s)
    (h : run src.step s item.messages = (sent, .ok next)) : Idle next := by
  cases hitem with
  | transaction finalLsn endLsn first last body hbody => exact idle_transaction h
  | between m hboundary hchange =>
    obtain ⟨now, between, more, hstep, h, -⟩ := run_cons_eq_ok h
    obtain rfl := Except.ok.inj (Prod.mk.inj h).2
    exact idle_between hboundary hchange hs hstep

/-- A PostgreSQL source is idle whenever it was given whole transactions. -/
theorem WalSource.idle_of_run {src : WalSource}
    {items : List (StreamItem WalState (WalMessage × FlushReads))}
    (hitems : ∀ item ∈ items, Delivered item)
    (h : run src.step .start (items.flatMap StreamItem.messages) = (sent, .ok s)) :
    Idle s :=
  Streaming.idle_of_run (M := src.streaming) Idle (fun _ hitem _ _ _ => idle_item (hitems _ hitem))
    ⟨rfl, rfl⟩ h

/-- What a PostgreSQL source sends is bracketed. -/
theorem WalSource.brackets (src : WalSource)
    {items : List (StreamItem WalState (WalMessage × FlushReads))}
    (hitems : ∀ item ∈ items, Delivered item) : src.streaming.Brackets items := by
  refine Streaming.brackets_of_idle Idle ⟨rfl, rfl⟩
    (fun _ hitem _ _ _ => idle_item (hitems _ hitem)) ?_
  intro item hitem s hs
  cases hitems item hitem with
  | transaction finalLsn endLsn first last body hbody => exact bracketed_transaction hbody hs
  | between m hboundary hchange => exact quiet_between hboundary hchange

/-- What a MySQL source sends is bracketed only if it is given no transaction. -/
theorem MySql.BinlogSource.none_of_brackets {src : BinlogSource}
    {items : List (StreamItem BinlogState (BinlogEvent × BinlogReads))}
    (hitems : ∀ item ∈ items, Delivered src item) (h : (src.streaming file pos).Brackets items) :
    ∀ item ∈ items, item.isTransaction = false := by
  -- the first transaction is reached, for nothing before it ends the stream
  by_contra hnot
  simp only [not_forall, Bool.not_eq_false] at hnot
  obtain ⟨item, hitem, htransaction⟩ := hnot
  obtain ⟨first, hfirst⟩ := Option.isSome_iff_exists.mp
    (List.find?_isSome.mpr ⟨item, hitem, htransaction⟩)
  obtain ⟨htransaction, before, after, hsplit, hbefore⟩ :=
    List.find?_eq_some_iff_append.mp hfirst
  obtain ⟨sent, s, hrun⟩ := run_between_ok
    (fun item hitem => hitems item (hsplit ▸ List.mem_append_left _ hitem))
    (fun item hitem => by simpa using hbefore item hitem) (.start file pos)
  exact not_shaped htransaction (h before first after hsplit sent s hrun)

/-- **Brackets**: what a PostgreSQL source sends is bracketed, whatever it is given and
finds. What a MySQL source sends is so exactly where it is given no transaction. -/
theorem brackets_iff (wal : WalSource)
    (walItems : List (StreamItem WalState (WalMessage × FlushReads)))
    (hwal : ∀ item ∈ walItems, WalSource.Delivered item) (src : MySql.BinlogSource) (file : String)
    (pos : ℕ)
    (items : List (StreamItem MySql.BinlogState (MySql.BinlogEvent × MySql.BinlogReads)))
    (hitems : ∀ item ∈ items, MySql.BinlogSource.Delivered src item) :
    wal.streaming.Brackets walItems ∧
      ((src.streaming file pos).Brackets items ↔ ∀ item ∈ items, item.isTransaction = false) := by
  refine ⟨wal.brackets hwal, MySql.BinlogSource.none_of_brackets hitems, fun hnone => ?_⟩
  refine Streaming.brackets_of_idle (fun _ => True) trivial (fun _ _ _ _ _ _ _ => trivial) ?_
  intro item hitem s _
  cases hitems item hitem with
  | group => cases hnone _ hitem
  | between m hm => exact MySql.BinlogSource.quiet_between hm

/-- A source of one table without collections. -/
def oneTable : MySql.BinlogSource where
  tables t := t = ("shop", "orders")
  appendOnly _ := false
  watch := walConfig []
  versionBase := 0
  decode _ raw := .ok (.str (String.ofList (raw.map fun b => Char.ofNat b.toNat)))
  alphanumeric := Char.isAlphanum

/-- What the server answers to it. -/
def oneTableReads : MySql.BinlogReads where
  flush :=
    { order := id
      perm := List.Perm.refl
      parentsThrough := fun _ _ _ => .ok []
      refetch := fun _ _ => .ok fun _ => none
      attach := fun _ _ => .ok fun _ doc => doc }
  catalog _ := .ok ⟨[⟨"id", .text⟩], ["id"]⟩
  catalogAgain _ := .ok ⟨[⟨"id", .text⟩], ["id"]⟩

/-- A transaction that inserts one row. -/
def oneRow : StreamItem MySql.BinlogState (MySql.BinlogEvent × MySql.BinlogReads) :=
  .transaction
    ([(⟨70, 227, .query (some ("shop", "BEGIN"))⟩, oneTableReads),
      (⟨50, 277, .tableMap 87 ⟨("shop", "orders"), [⟨15, [255, 0], none⟩]⟩ []⟩, oneTableReads),
      (⟨40, 317, .rows 87 .write [⟨none, some [.bytes [55]]⟩]⟩, oneTableReads)] ++
      [(⟨31, 348, .xid⟩, oneTableReads)])
    fun s => oneTable.tokenAt s.currentFile 348

theorem oneRow_delivered : MySql.BinlogSource.Delivered oneTable oneRow := by
  refine .group _ _ ?_ rfl (by decide)
  intro m hm
  simp only [List.mem_cons, List.not_mem_nil, or_false] at hm
  rcases hm with rfl | rfl | rfl <;> rfl

/-- The row of a MySQL transaction is sent before any Begin. -/
theorem oneRow_unbracketed :
    MySql.BinlogSource.Delivered oneTable oneRow ∧
      (Emission.run oneTable.step (.start "mysql-bin.000001" 157) oneRow.messages).1 =
        [.row ⟨("shop", "orders"), .insert (.str "7") (.obj [("id", .str "7")]),
          some (oneTable.tokenAt "mysql-bin.000001" 317)⟩,
          .commit (oneTable.tokenAt "mysql-bin.000001" 348)] ∧
      ¬(oneTable.streaming "mysql-bin.000001" 157).Brackets [oneRow] := by
  refine ⟨oneRow_delivered, by rfl, fun hbrackets => ?_⟩
  exact MySql.BinlogSource.not_shaped rfl (hbrackets [] oneRow [] rfl [] _ rfl)

/-- A PostgreSQL source of the same table. -/
def oneTableWal : WalSource where
  convert _ raw := .ok (.str raw)
  watch := walConfig []
  tables t := t = ("public", "orders")
  keyColumns _ := some ["id"]
  appendOnly _ := false

/-- A transaction that inserts one row. -/
def oneInsert : StreamItem WalState (WalMessage × FlushReads) :=
  .transaction
    ((.begin 24, oneTableReads.flush) ::
      ([(.relation 16385 ⟨"public", "orders", .default, [⟨"id", 25, true⟩]⟩, oneTableReads.flush),
        (.row 16385 (.insert [.text "7"]), oneTableReads.flush)] ++
        [(.commit 32, oneTableReads.flush)]))
    fun _ => 32

theorem oneInsert_delivered : WalSource.Delivered oneInsert := by
  refine .transaction 24 32 _ _ _ ?_
  intro m hm
  simp only [List.mem_cons, List.not_mem_nil, or_false] at hm
  rcases hm with rfl | rfl <;> rfl

theorem brackets_iff_oneRow :
    oneTableWal.streaming.Brackets [oneInsert] ∧
      ((oneTable.streaming "mysql-bin.000001" 157).Brackets [oneRow] ↔
        ∀ item ∈ [oneRow], item.isTransaction = false) := by
  refine brackets_iff oneTableWal [oneInsert] ?_ oneTable "mysql-bin.000001" 157 [oneRow] ?_
  · intro item hitem
    rw [List.mem_singleton.mp hitem]
    exact oneInsert_delivered
  · intro item hitem
    rw [List.mem_singleton.mp hitem]
    exact oneRow_delivered

example : (Emission.run oneTableWal.step .start oneInsert.messages).1 =
    [.begin 24, .row ⟨("public", "orders"), .insert (.str "7") (.obj [("id", .str "7")]), some 24⟩,
      .commit 32] := by rfl

end Pg2osync
