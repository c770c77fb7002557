import Pg2osync.Drift
import Pg2osync.Held
import Mathlib.Logic.Function.Basic

/-!
# The stream of a PostgreSQL source

The source takes the messages of the replication connection one after the other. A row
that is a document of its own goes out at once, and so does a TRUNCATE; what needs to be
read from the database waits for the commit, or for so many of its kind that they are read
together. A position is only sent between transactions.
-/

namespace Pg2osync

/-- What a PostgreSQL source streams by. -/
structure WalSource : Type where
  /-- what the text of a value converts to -/
  convert : ℕ → String → Except CoreError Json
  /-- its collections -/
  watch : WatchConfig
  /-- the tables that it admits -/
  tables : TableName → Bool
  /-- the key columns of a table -/
  keyColumns : TableName → Option (List String)
  /-- the tables whose rows are only added -/
  appendOnly : TableName → Bool

/-- A message of the replication connection. -/
inductive WalMessage : Type where
  /-- a transaction that will commit at a position -/
  | begin (finalLsn : Lsn) : WalMessage
  /-- its end -/
  | commit (endLsn : Lsn) : WalMessage
  /-- the shape of a table -/
  | relation (relId : ℕ) (rel : Relation) : WalMessage
  /-- tables that were truncated -/
  | truncate (relIds : List ℕ) : WalMessage
  /-- a row that changed -/
  | row (relId : ℕ) (incoming : Incoming) : WalMessage
  /-- a logical decoding message -/
  | message (lsn : Lsn) : WalMessage
  /-- everything up to a position has been sent -/
  | keepAlive (walEnd : Lsn) : WalMessage
  /-- anything else -/
  | other : WalMessage

/-- Whether a message opens or closes a transaction. -/
def WalMessage.isBoundary : WalMessage → Bool
  | .begin _ | .commit _ => true
  | .relation _ _ | .truncate _ | .row _ _ | .message _ | .keepAlive _ | .other => false

/-- Whether a message belongs to a transaction only. -/
def WalMessage.isChange : WalMessage → Bool
  | .truncate _ | .row _ _ => true
  | .begin _ | .commit _ | .relation _ _ | .message _ | .keepAlive _ | .other => false

/-- What the source knows between two messages. -/
structure WalState : Type where
  /-- the tables it was told of -/
  relations : ℕ → Option Relation
  /-- whether a transaction is open -/
  inTransaction : Bool
  /-- what it holds -/
  pending : ChildrenPending
  /-- the position the transaction commits at -/
  txnVersion : Option ℕ

/-- A new stream. -/
def WalState.start : WalState := ⟨fun _ => none, false, .empty, none⟩

/-- `PENDING_FLUSH_ROWS`. -/
def pendingFlushRows : ℕ := 5000

/-- What is held of a row. -/
def ChildrenPending.hold (p : ChildrenPending) : Classified → ChildrenPending
  | .row _ | .skip => p
  | .parentRow table change => p.holdParent table change
  | .namesParent parent keys => keys.foldl (fun p key => p.nameParent parent key) p
  | .namesThrough parent field childKey => p.nameThrough parent field childKey

/-- What is sent of a row at once. -/
def Classified.sent (version : Option ℕ) : Classified → List ChangeEvent
  | .row change => [.row { change with version := version }]
  | .parentRow _ _ | .namesParent _ _ | .namesThrough _ _ _ | .skip => []

/-- The table whose documents a row is about. -/
def Classified.about : Classified → Option TableName
  | .row change | .parentRow _ change => some change.table
  | .namesParent parent _ | .namesThrough parent _ _ => some parent
  | .skip => none

/-- `flush_pending`, with what it leaves. -/
def WalState.flush (s : WalState) (reads : FlushReads) :
    List ChangeEvent × Except CoreError WalState :=
  let flushed := flushPending reads s.pending s.txnVersion
  (flushed.1.map .row, flushed.2.map fun _ => { s with pending := .empty })

namespace WalSource

/-- `classify`, by the tables that are known. -/
def classifyRow (src : WalSource) (relations : ℕ → Option Relation) (relId : ℕ)
    (incoming : Incoming) : Except CoreError Classified :=
  match relations relId with
  | none => .error (.source ("row for unknown relation oid " ++ toString relId))
  | some rel =>
    let t := rel.tableName
    rel.classify src.convert src.watch (src.tables t)
      (rel.buildRowChange src.convert (src.keyColumns t) (src.appendOnly t) incoming) incoming

/-- The columns of a relation, as drift compares them. -/
def driftColumns (rel : Relation) : List (String × ℕ) :=
  rel.columns.map fun c => (c.name, c.typeOid)

/-- What is said of a table that was known in another shape. -/
def driftEvents (previous : Option Relation) (rel : Relation) : List ChangeEvent :=
  match previous with
  | none => []
  | some before =>
    match columnDrift toString (driftColumns before) (driftColumns rel) with
    | none => []
    | some drift => [.schemaDrift rel.tableName drift]

/-- One table of a TRUNCATE. -/
def truncateOne (s : WalState) (relId : ℕ) : List ChangeEvent × Except CoreError Unit :=
  match s.relations relId with
  | none => ([], .error (.source ("TRUNCATE for unknown relation oid " ++ toString relId)))
  | some rel => ([.tableTruncated rel.tableName s.txnVersion], .ok ())

/-- A row, once it is classified. -/
def takeRow (s : WalState) (reads : FlushReads) (c : Classified) :
    List ChangeEvent × Except CoreError WalState :=
  let held := { s with pending := s.pending.hold c }
  if pendingFlushRows ≤ held.pending.len then
    (c.sent s.txnVersion ++ (held.flush reads).1, (held.flush reads).2)
  else (c.sent s.txnVersion, .ok held)

/-- `stream`: one message, with what the database answers if something is read. -/
def step (src : WalSource) (s : WalState) (turn : WalMessage × FlushReads) :
    List ChangeEvent × Except CoreError WalState :=
  match turn.1 with
  | .begin finalLsn =>
    ([.begin finalLsn], .ok { s with inTransaction := true, txnVersion := some finalLsn })
  | .commit endLsn =>
    match s.flush turn.2 with
    | (sent, .ok next) =>
      (sent ++ [.commit endLsn], .ok { next with inTransaction := false, txnVersion := none })
    | (sent, .error e) => (sent, .error e)
  | .relation relId rel =>
    (driftEvents (s.relations relId) rel,
      .ok { s with relations := Function.update s.relations relId (some rel) })
  | .truncate relIds =>
    let truncated := Emission.run (fun _ => truncateOne s) () relIds
    (truncated.1, truncated.2.map fun _ => s)
  | .row relId incoming =>
    match src.classifyRow s.relations relId incoming with
    | .error e => ([], .error e)
    | .ok c => takeRow s turn.2 c
  | .message lsn => (if s.inTransaction then [] else [.commit lsn], .ok s)
  | .keepAlive walEnd => (if s.inTransaction then [] else [.commit walEnd], .ok s)
  | .other => ([], .ok s)

/-- A row of the stream turns out to be something. -/
def Classifies (src : WalSource) (c : Classified) (s : WalState)
    (turn : WalMessage × FlushReads) : Prop :=
  ∃ relId incoming, turn.1 = .row relId incoming ∧
    src.classifyRow s.relations relId incoming = .ok c

/-- A row of the stream is about the documents of a table. -/
def Concerns (src : WalSource) (t : TableName) (s : WalState)
    (turn : WalMessage × FlushReads) : Prop :=
  ∃ c, src.Classifies c s turn ∧ c.about = some t

/-- A table is truncated. -/
def Truncates (t : TableName) (s : WalState) (turn : WalMessage × FlushReads) : Prop :=
  ∃ relIds, turn.1 = .truncate relIds ∧
    ∃ relId ∈ relIds, ∃ rel, s.relations relId = some rel ∧ rel.tableName = t

end WalSource

/-! ## What a flush leaves -/

section

variable {s next : WalState} {reads : FlushReads} {sent : List ChangeEvent}

theorem flush_ok (h : s.flush reads = (sent, .ok next)) :
    next = { s with pending := .empty } ∧ ∃ rows, sent = rows.map .row ∧
      flushPending reads s.pending s.txnVersion = (rows, .ok ()) := by
  obtain ⟨hsent, hnext⟩ := Prod.mk.inj h
  obtain ⟨u, hu, rfl⟩ := Except.map_eq_ok hnext
  exact ⟨rfl, _, hsent.symm, Prod.ext rfl hu⟩

theorem mem_flush {e : ChangeEvent} (h : e ∈ (s.flush reads).1) :
    ∃ row ∈ (flushPending reads s.pending s.txnVersion).1, e = .row row := by
  obtain ⟨row, hrow, rfl⟩ := List.mem_map.mp h
  exact ⟨row, hrow, rfl⟩

theorem about_hold {p : ChildrenPending} {good : TableName → Prop} (hp : p.About good)
    {c : Classified}
    (hc : ∀ t, c.about = some t → good t) : (p.hold c).About good := by
  cases c with
  | row change | skip => exact hp
  | parentRow table change => exact hp.holdParent (hc _ rfl)
  | namesParent parent keys => exact hp.nameAll (hc _ rfl) keys
  | namesThrough parent field childKey => exact hp.nameThrough (hc _ rfl) field childKey

theorem parents_hold (p : ChildrenPending) (c : Classified) :
    (p.hold c).parents = p.parents ++
      (match c with
        | .parentRow table change => [(table, change)]
        | .row _ | .namesParent _ _ | .namesThrough _ _ _ | .skip => []) := by
  cases c with
  | row change | skip => exact (List.append_nil _).symm
  | parentRow table change => rfl
  | namesParent parent keys => exact (parents_nameAll parent keys p).trans (List.append_nil _).symm
  | namesThrough parent field childKey =>
    exact (ChildrenPending.parents_nameThrough p parent field childKey).trans
      (List.append_nil _).symm

end

namespace WalSource

/-! ## One message within a transaction -/

variable {t : TableName}

section

variable {src : WalSource} {s next : WalState} {turn : WalMessage × FlushReads}
  {reads : FlushReads} {sent : List ChangeEvent} {c : Classified}

/-- What is left after a row, and what is sent of it and of what was held. -/
theorem takeRow_ok (h : takeRow s reads c = (sent, .ok next)) :
    (sent = c.sent s.txnVersion ∧ next = { s with pending := s.pending.hold c }) ∨
      ∃ rows, flushPending reads (s.pending.hold c) s.txnVersion = (rows, .ok ()) ∧
        sent = c.sent s.txnVersion ++ rows.map .row ∧ next = { s with pending := .empty } := by
  rw [takeRow] at h
  split at h
  · obtain ⟨rfl, hnext⟩ := Prod.mk.inj h
    obtain ⟨rfl, rows, hsent, hrows⟩ := flush_ok (Prod.ext rfl hnext)
    exact .inr ⟨rows, hrows, congrArg (c.sent s.txnVersion ++ ·) hsent, rfl⟩
  · obtain ⟨rfl, hnext⟩ := Prod.mk.inj h
    exact .inl ⟨rfl, (Except.ok.inj hnext).symm⟩

/-- What a message that is no boundary leaves as it is, and what it does to what is
known and held. -/
theorem step_inner (hturn : turn.1.isBoundary = false) (h : src.step s turn = (sent, .ok next)) :
    next.inTransaction = s.inTransaction ∧ next.txnVersion = s.txnVersion := by
  obtain ⟨message, reads⟩ := turn
  cases message with
  | begin | commit => cases hturn
  | relation | message | keepAlive | other =>
    obtain rfl := Except.ok.inj (Prod.mk.inj h).2
    exact ⟨rfl, rfl⟩
  | truncate relIds =>
    obtain ⟨_, _, rfl⟩ := Except.map_eq_ok (Prod.mk.inj h).2
    exact ⟨rfl, rfl⟩
  | row relId incoming =>
    simp only [step] at h
    split at h
    · cases (Prod.mk.inj h).2
    · rcases takeRow_ok h with ⟨-, rfl⟩ | ⟨rows, -, -, rfl⟩ <;> exact ⟨rfl, rfl⟩

/-- A document of its own is sent with the row. -/
theorem step_row {change : RowChange} (hc : Classifies src (.row change) s turn)
    (h : src.step s turn = (sent, .ok next)) :
    .row { change with version := s.txnVersion } ∈ sent := by
  obtain ⟨message, reads⟩ := turn
  obtain ⟨relId, incoming, rfl, hclassify⟩ := hc
  simp only [step, hclassify] at h
  rcases takeRow_ok h with ⟨rfl, -⟩ | ⟨rows, -, rfl, -⟩
  · exact List.mem_singleton.mpr rfl
  · exact List.mem_append_left _ (List.mem_singleton.mpr rfl)

/-- A row that is held, or was, is sent or held on. -/
theorem step_held {change : RowChange} (h : src.step s turn = (sent, .ok next))
    (howed : (t, change) ∈ s.pending.parents ∨ Classifies src (.parentRow t change) s turn) :
    (∃ e ∈ sent, ∃ row, e = .row row ∧ row.SameRow change) ∨
      (t, change) ∈ next.pending.parents := by
  obtain ⟨message, reads⟩ := turn
  have hother (hmessage : ∀ relId incoming, message ≠ .row relId incoming)
      (hpending : next.pending = s.pending) : (t, change) ∈ next.pending.parents := by
    rw [hpending]
    refine howed.resolve_right ?_
    rintro ⟨relId, incoming, hrow, -⟩
    exact hmessage relId incoming hrow
  cases message with
  | begin | relation | message | keepAlive | other =>
    obtain rfl := Except.ok.inj (Prod.mk.inj h).2
    exact .inr (hother (fun _ _ h => by cases h) rfl)
  | truncate relIds =>
    obtain ⟨_, _, rfl⟩ := Except.map_eq_ok (Prod.mk.inj h).2
    exact .inr (hother (fun _ _ h => by cases h) rfl)
  | commit endLsn =>
    simp only [step] at h
    split at h
    · next flushed between hflush =>
      obtain ⟨rfl, -⟩ := Prod.mk.inj h
      obtain ⟨rfl, rows, rfl, hrows⟩ := flush_ok hflush
      have hmem : (t, change) ∈ s.pending.parents := by
        refine howed.resolve_right ?_
        rintro ⟨_, _, hrow, -⟩
        cases hrow
      obtain ⟨row, hrow, hsame⟩ := flushPending_ok hrows hmem
      exact .inl ⟨_, List.mem_append_left _ (List.mem_map_of_mem hrow), row, rfl, hsame⟩
    · cases (Prod.mk.inj h).2
  | row relId incoming =>
    simp only [step] at h
    split at h
    · cases (Prod.mk.inj h).2
    · next c hc =>
      have hmem : (t, change) ∈ (s.pending.hold c).parents := by
        rw [parents_hold]
        rcases howed with howed | ⟨relId', incoming', hrow, hclassify⟩
        · exact List.mem_append_left _ howed
        · obtain ⟨rfl, rfl⟩ := WalMessage.row.inj hrow
          rw [hc] at hclassify
          obtain rfl := Except.ok.inj hclassify
          exact List.mem_append_right _ (List.mem_singleton.mpr rfl)
      rcases takeRow_ok h with ⟨-, rfl⟩ | ⟨rows, hrows, rfl, -⟩
      · exact .inr hmem
      · obtain ⟨row, hrow, hsame⟩ := flushPending_ok hrows hmem
        exact .inl ⟨_, List.mem_append_right _ (List.mem_map_of_mem hrow), row, rfl, hsame⟩

theorem truncateAll_ok {relIds : List ℕ} {relId : ℕ} {rel : Relation} (hmem : relId ∈ relIds)
    (hrel : s.relations relId = some rel)
    (h : Emission.run (fun _ => truncateOne s) () relIds = (sent, .ok ())) :
    .tableTruncated rel.tableName s.txnVersion ∈ sent := by
  induction relIds generalizing sent with
  | nil => cases hmem
  | cons relId' rest ih =>
    obtain ⟨now, _, more, hnow, hrun, rfl⟩ := Emission.run_cons_eq_ok h
    rcases List.mem_cons.mp hmem with rfl | hmem
    · simp only [truncateOne, hrel] at hnow
      obtain ⟨rfl, -⟩ := Prod.mk.inj hnow
      exact List.mem_append_left _ (List.mem_singleton.mpr rfl)
    · exact List.mem_append_right _ (ih hmem hrun)

/-- Each table of a TRUNCATE is named. -/
theorem step_truncate (ht : Truncates t s turn) (h : src.step s turn = (sent, .ok next)) :
    .tableTruncated t s.txnVersion ∈ sent := by
  obtain ⟨message, reads⟩ := turn
  obtain ⟨relIds, rfl, relId, hmem, rel, hrel, rfl⟩ := ht
  obtain ⟨rfl, hnext⟩ := Prod.mk.inj h
  obtain ⟨_, hrun, -⟩ := Except.map_eq_ok hnext
  exact truncateAll_ok hmem hrel (Prod.ext rfl hrun)

end

/-! ## What is sent within a transaction -/

/-- What may be sent of a transaction: rows of some tables, and that some were truncated. -/
def Fine (good truncated : TableName → Prop) : ChangeEvent → Prop
  | .row change => good change.table
  | .tableTruncated t _ => truncated t
  | .schemaDrift _ _ => True
  | .begin _ | .commit _ | .loadMark _ | .loadStarted | .loadFinished => False

/-- A message is about a table that is none of them. -/
def Strays (src : WalSource) (good truncated : TableName → Prop) (s : WalState)
    (turn : WalMessage × FlushReads) : Prop :=
  ∃ t, src.Concerns t s turn ∧ ¬good t ∨ Truncates t s turn ∧ ¬truncated t

section

variable {src : WalSource} {s next : WalState} {turn : WalMessage × FlushReads}
  {reads : FlushReads} {sent : List ChangeEvent} {c : Classified}
  {good truncated : TableName → Prop}

theorem fine_flush (hp : s.pending.About good) :
    ∀ e ∈ (s.flush reads).1, Fine good truncated e := by
  intro e he
  obtain ⟨row, hrow, rfl⟩ := mem_flush he
  exact about_flushPending hp row hrow

theorem about_of_classifies (hstray : ¬Strays src good truncated s turn)
    (hc : Classifies src c s turn) (ht : c.about = some t) : good t :=
  not_not.mp fun hgood => hstray ⟨t, .inl ⟨⟨c, hc, ht⟩, hgood⟩⟩

theorem fine_takeRow (hp : s.pending.About good) (hc : ∀ t, c.about = some t → good t) :
    ∀ e ∈ (takeRow s reads c).1, Fine good truncated e := by
  have hsent : ∀ e ∈ c.sent s.txnVersion, Fine good truncated e := by
    intro e he
    cases c with
    | row change =>
      obtain rfl := List.mem_singleton.mp he
      exact hc change.table rfl
    | parentRow | namesParent | namesThrough | skip => cases he
  rw [takeRow]
  split
  · intro e he
    rcases List.mem_append.mp he with he | he
    · exact hsent e he
    · exact fine_flush (s := { s with pending := s.pending.hold c }) (about_hold hp hc) e he
  · exact hsent

theorem step_about (hturn : turn.1.isBoundary = false) (hp : s.pending.About good)
    (hstray : ¬Strays src good truncated s turn) (h : src.step s turn = (sent, .ok next)) :
    next.pending.About good := by
  obtain ⟨message, reads⟩ := turn
  cases message with
  | begin | commit => cases hturn
  | relation | message | keepAlive | other =>
    obtain rfl := Except.ok.inj (Prod.mk.inj h).2
    exact hp
  | truncate relIds =>
    obtain ⟨_, _, rfl⟩ := Except.map_eq_ok (Prod.mk.inj h).2
    exact hp
  | row relId incoming =>
    simp only [step] at h
    split at h
    · cases (Prod.mk.inj h).2
    · next c hc =>
      rcases takeRow_ok h with ⟨-, rfl⟩ | ⟨rows, -, -, rfl⟩
      · exact about_hold hp fun t ht =>
          about_of_classifies hstray ⟨relId, incoming, rfl, hc⟩ ht
      · exact ChildrenPending.about_empty

/-- What a message within a transaction sends is fine. -/
theorem step_fine (hturn : turn.1.isBoundary = false) (hopen : s.inTransaction = true)
    (hp : s.pending.About good) (hstray : ¬Strays src good truncated s turn) :
    ∀ e ∈ (src.step s turn).1, Fine good truncated e := by
  obtain ⟨message, reads⟩ := turn
  intro e he
  cases message with
  | begin | commit => cases hturn
  | other => cases he
  | message | keepAlive =>
    simp only [step, hopen, if_true] at he
    cases he
  | relation relId rel =>
    simp only [step, driftEvents] at he
    split at he
    · cases he
    · split at he
      · cases he
      · rw [List.mem_singleton.mp he]
        trivial
  | truncate relIds =>
    simp only [step] at he
    refine Emission.run_sends (fun _ => True) (fun _ _ _ _ _ _ _ => trivial)
      (fun relId hmem _ _ e he => ?_) trivial e he
    rw [truncateOne] at he
    split at he
    · cases he
    · next rel hrel =>
      rw [List.mem_singleton.mp he]
      exact not_not.mp fun hnot =>
        hstray ⟨_, .inr ⟨⟨relIds, rfl, relId, hmem, rel, hrel, rfl⟩, hnot⟩⟩
  | row relId incoming =>
    simp only [step] at he
    split at he
    · cases he
    · next c hc =>
      exact fine_takeRow hp (fun t ht => about_of_classifies hstray ⟨relId, incoming, rfl, hc⟩ ht)
        e he

end

end WalSource

end Pg2osync
