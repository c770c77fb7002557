import Pg2osync.Brackets
import Pg2osync.Interleave
import Pg2osync.Routes

/-!
# The order of a transaction's changes

Rows of a table without collections and TRUNCATEs go out as they come. Rows of a table
with collections are held, and go out table by table when they are flushed. All of a
transaction has one version, so that the order they are sent in is the order that counts.
-/

namespace Pg2osync

open ChildrenPending Routes

/-- What the log of a transaction has of a document or of a table. -/
inductive LogChange : Type where
  /-- a row, and with it its document -/
  | row (change : RowChange) : LogChange
  /-- a table that was truncated -/
  | truncate (t : TableName) : LogChange
  deriving DecidableEq

/-- An event is sent for a change. -/
def LogChange.Stems : LogChange → ChangeEvent → Prop
  | .row change, .row sent => sent.SameRow change
  | .truncate t, .tableTruncated t' _ => t' = t
  | _, _ => False

/-- An event that is sent for no change of its own: a boundary, a report, or a document
that was read again. -/
def Extra : ChangeEvent → Prop
  | .begin _ | .commit _ | .schemaDrift _ _ => True
  | .row change => ∃ key doc, change.kind = .insert key doc
  | .tableTruncated _ _ | .loadMark _ | .loadStarted | .loadFinished => False

/-- Events of some changes, in their order, with others between them. -/
inductive Woven : List ChangeEvent → List LogChange → Prop where
  | nil : Woven [] []
  | own {c : LogChange} {e : ChangeEvent} {events : List ChangeEvent} {changes : List LogChange}
      (h : c.Stems e) (hrest : Woven events changes) : Woven (e :: events) (c :: changes)
  | extra {e : ChangeEvent} {events : List ChangeEvent} {changes : List LogChange}
      (h : Extra e) (hrest : Woven events changes) : Woven (e :: events) changes

theorem Woven.append {events events' : List ChangeEvent} {changes changes' : List LogChange}
    (h : Woven events changes) (h' : Woven events' changes') :
    Woven (events ++ events') (changes ++ changes') := by
  induction h with
  | nil => exact h'
  | own hstems _ ih => exact .own hstems ih
  | extra hextra _ ih => exact .extra hextra ih

theorem Woven.extras {events : List ChangeEvent} (h : ∀ e ∈ events, Extra e) :
    Woven events [] := by
  induction events with
  | nil => exact .nil
  | cons e events ih =>
    exact .extra (h e List.mem_cons_self) (ih fun e he => h e (List.mem_cons_of_mem _ he))

/-- What happens to a change. -/
abbrev LogAct := Routes.Act LogChange TableName

/-- The rows that are held. -/
def ChildrenPending.changes (p : ChildrenPending) : List (TableName × LogChange) :=
  p.parents.map fun held => (held.1, .row held.2)

/-- The tables that a flush takes, in its order. -/
def flushGroups (reads : FlushReads) (p : ChildrenPending) : List TableName :=
  match resolvePending reads p with
  | .ok p => reads.order p.tables
  | .error _ => []

namespace WalSource

/-- What happens to a row. -/
def rowActs : Classified → List LogAct
  | .row change => [.now (.row change)]
  | .parentRow t change => [.hold t (.row change)]
  | .namesParent _ _ | .namesThrough _ _ _ | .skip => []

/-- What happens to the tables of a TRUNCATE. -/
def truncateActs (s : WalState) : List ℕ → List LogAct
  | [] => []
  | relId :: rest =>
    match s.relations relId with
    | none => []
    | some rel => .now (.truncate rel.tableName) :: truncateActs s rest

/-- What happens to a row, and to what is held with it. -/
def takeActs (s : WalState) (reads : FlushReads) (c : Classified) : List LogAct :=
  let held := s.pending.hold c
  if pendingFlushRows ≤ held.len then rowActs c ++ [.flush (flushGroups reads held)]
  else rowActs c

/-- What happens with a row, if it can be classified. -/
def classifiedActs (s : WalState) (reads : FlushReads) : Except CoreError Classified → List LogAct
  | .error _ => []
  | .ok c => takeActs s reads c

/-- What happens with a message. -/
def turnActs (src : WalSource) (s : WalState) (turn : WalMessage × FlushReads) : List LogAct :=
  match turn.1 with
  | .commit _ => [.flush (flushGroups turn.2 s.pending)]
  | .truncate relIds => truncateActs s relIds
  | .row relId incoming => classifiedActs s turn.2 (src.classifyRow s.relations relId incoming)
  | .begin _ | .relation _ _ | .message _ | .keepAlive _ | .other => []

/-- What happens with some messages. -/
def acts (src : WalSource) : WalState → List (WalMessage × FlushReads) → List LogAct
  | _, [] => []
  | s, turn :: rest =>
    src.turnActs s turn ++
      match (src.step s turn).2 with
      | .error _ => []
      | .ok next => src.acts next rest

/-- The changes of some messages, numbered as the log has them, in the order they are
sent. -/
def sendOrder (src : WalSource) (s : WalState) (msgs : List (WalMessage × FlushReads)) :
    List (ℕ × LogChange) :=
  Routes.output [] (Routes.numbered 0 (src.acts s msgs))

/-- The changes of some messages, as the log has them. -/
def logOrder (src : WalSource) (s : WalState) (msgs : List (WalMessage × FlushReads)) :
    List (ℕ × LogChange) :=
  Routes.log (Routes.numbered 0 (src.acts s msgs))

end WalSource

/-- **In the order of the log**: of two changes that conflict, the one that comes first is
sent first. -/
def InLogOrder (conflict : LogChange → LogChange → Prop) (sent : List (ℕ × LogChange)) : Prop :=
  ∀ x y, [x, y].Sublist sent → y.1 < x.1 → ¬conflict y.2 x.2

/-! ## Flushing -/

theorem mapDoc_id (kind : RowKind) : kind.mapDoc id = kind := by
  cases kind <;> rfl

theorem RowChange.sameRow_version (change : RowChange) (version : Option ℕ) :
    RowChange.SameRow { change with version := version } change :=
  ⟨rfl, id, (mapDoc_id change.kind).symm⟩

section

variable {reads : FlushReads} {p : ChildrenPending} {version : Option ℕ}

theorem ofGroup_changes (p : ChildrenPending) (t : TableName) :
    ofGroup p.changes t = (p.rowsOf t).map .row := by
  rw [ofGroup, changes, rowsOf]
  induction p.parents with
  | nil => rfl
  | cons held rest ih =>
    by_cases h : held.1 = t
    · simp only [List.map_cons, List.filter_cons, h, decide_true, if_true, List.filterMap_cons]
      exact congrArg (List.cons _) ih
    · simp only [List.map_cons, List.filter_cons, h, decide_false, if_false, List.filterMap_cons]
      exact ih

variable {rows : List RowChange}

theorem woven_table {t : TableName} (h : flushTable reads p version t = .ok rows) :
    Woven (rows.map .row) (ofGroup p.changes t) := by
  rw [flushTable] at h
  obtain ⟨found, -, h⟩ := Except.bind_eq_ok h
  obtain ⟨attach, -, h⟩ := Except.bind_eq_ok h
  obtain rfl := Except.ok.inj h
  rw [List.map_map, List.map_append, ofGroup_changes,
    ← List.append_nil ((p.rowsOf t).map LogChange.row)]
  refine Woven.append ?_ (Woven.extras ?_)
  · induction p.rowsOf t with
    | nil => exact .nil
    | cons row rest ih => exact .own ⟨rfl, _, rfl⟩ ih
  · intro e he
    obtain ⟨row, hrow, rfl⟩ := List.mem_map.mp he
    obtain ⟨key, -, hdoc⟩ := List.mem_filterMap.mp hrow
    obtain ⟨doc, -, rfl⟩ := Option.map_eq_some_iff.mp hdoc
    exact ⟨key, _, rfl⟩

theorem woven_tables {tables : List TableName}
    (h : Emission.run (fun _ => flushStep reads p version) () tables = (rows, .ok ())) :
    Woven (rows.map .row) (flushed p.changes tables) := by
  induction tables generalizing rows with
  | nil =>
    obtain rfl := (Prod.mk.inj h).1
    exact .nil
  | cons t rest ih =>
    obtain ⟨now, _, more, hnow, hrun, rfl⟩ := Emission.run_cons_eq_ok h
    rw [List.map_append, flushed, List.flatMap_cons]
    exact (woven_table (flushStep_eq_ok hnow)).append (ih hrun)

theorem changes_resolvePending {q : ChildrenPending} (h : resolvePending reads p = .ok q) :
    q.changes = p.changes := by
  rw [changes, changes, parents_resolvePending h]

/-- A flush that goes through has found what it needs to know of the junctions. -/
theorem resolve_of_flush (h : flushPending reads p version = (rows, .ok ())) :
    ∃ q, resolvePending reads p = .ok q := by
  rw [flushPending] at h
  split at h
  · next hempty =>
    simp only [isEmpty, Bool.and_eq_true, List.isEmpty_iff] at hempty
    rw [resolvePending, hempty.2]
    exact ⟨_, rfl⟩
  · cases hresolve : resolvePending reads p with
    | error e =>
      rw [hresolve] at h
      cases (Prod.mk.inj h).2
    | ok q => exact ⟨q, rfl⟩

theorem woven_flush (h : flushPending reads p version = (rows, .ok ())) :
    Woven (rows.map .row) (flushed p.changes (flushGroups reads p)) := by
  obtain ⟨q, hresolve⟩ := resolve_of_flush h
  rw [flushPending] at h
  simp only [flushGroups, hresolve] at h ⊢
  split at h
  · next hempty =>
    obtain rfl := (Prod.mk.inj h).1
    simp only [isEmpty, Bool.and_eq_true, List.isEmpty_iff] at hempty
    have hnone : flushed p.changes (reads.order q.tables) = [] := by
      refine List.flatMap_eq_nil_iff.mpr fun t _ => ?_
      rw [ofGroup_changes, rowsOf, hempty.1.1]
      rfl
    rw [hnone]
    exact .nil
  · rw [← changes_resolvePending hresolve]
    exact woven_tables h

/-- A flush that goes through takes each table that something is held of, once. -/
theorem flushGroups_covers (h : flushPending reads p version = (rows, .ok ())) :
    (flushGroups reads p).Nodup ∧ ∀ held ∈ p.changes, held.1 ∈ flushGroups reads p := by
  obtain ⟨q, hresolve⟩ := resolve_of_flush h
  simp only [flushGroups, hresolve]
  refine ⟨(reads.perm _).nodup_iff.mpr (List.nodup_dedup _), fun held hheld => ?_⟩
  obtain ⟨⟨t, change⟩, hmem, rfl⟩ := List.mem_map.mp hheld
  rw [← parents_resolvePending hresolve] at hmem
  exact (reads.perm _).mem_iff.mpr (mem_tables_of_parent hmem)

end

namespace WalSource

/-! ## One message -/

section

variable {src : WalSource} {s next : WalState} {turn : WalMessage × FlushReads}
  {reads : FlushReads} {sent : List ChangeEvent} {c : Classified}

theorem sends_row (p : ChildrenPending) (c : Classified) (version : Option ℕ) :
    ∃ part, Woven (c.sent version) part ∧
      Sends p.changes (rowActs c) part (p.hold c).changes := by
  have hsame : (p.hold c).parents = p.parents →
      Sends p.changes [] [] (p.hold c).changes := by
    intro h
    rw [changes, changes, h]
    exact .nil _
  cases c with
  | row change =>
    exact ⟨[.row change], .own (change.sameRow_version version) .nil, .now _ _⟩
  | parentRow t change =>
    refine ⟨[], .nil, ?_⟩
    have hchanges : (p.hold (.parentRow t change)).changes = p.changes ++ [(t, .row change)] := by
      rw [changes, parents_hold, List.map_append]
      rfl
    rw [hchanges]
    exact .hold _ _ _
  | namesParent parent keys =>
    exact ⟨[], .nil, hsame (parents_nameAll parent keys p)⟩
  | namesThrough parent field childKey =>
    exact ⟨[], .nil, hsame (parents_nameThrough p parent field childKey)⟩
  | skip => exact ⟨[], .nil, hsame rfl⟩

/-- A flush that goes through sends what is held. -/
theorem sends_flush (h : s.flush reads = (sent, .ok next)) :
    ∃ part, Woven sent part ∧ Sends s.pending.changes
      [.flush (flushGroups reads s.pending)] part next.pending.changes := by
  obtain ⟨rfl, rows, rfl, hrows⟩ := flush_ok h
  obtain ⟨hnodup, hcovers⟩ := flushGroups_covers hrows
  exact ⟨_, woven_flush hrows, .flush hnodup hcovers⟩

theorem sends_takeRow (h : takeRow s reads c = (sent, .ok next)) :
    ∃ part, Woven sent part ∧ Sends s.pending.changes (takeActs s reads c) part
      next.pending.changes := by
  obtain ⟨part, hwoven, hsends⟩ := sends_row s.pending c s.txnVersion
  rw [takeRow] at h
  rw [takeActs]
  split at h
  · next hlen =>
    obtain ⟨rfl, hnext⟩ := Prod.mk.inj h
    obtain ⟨later, hlater, hflush⟩ := sends_flush (Prod.ext rfl hnext)
    rw [if_pos hlen]
    exact ⟨part ++ later, hwoven.append hlater, hsends.append hflush⟩
  · next hlen =>
    obtain ⟨rfl, hnext⟩ := Prod.mk.inj h
    obtain rfl := Except.ok.inj hnext
    rw [if_neg hlen]
    exact ⟨part, hwoven, hsends⟩

theorem sends_truncate {relIds : List ℕ}
    (h : Emission.run (fun _ => truncateOne s) () relIds = (sent, .ok ()))
    (held : List (TableName × LogChange)) :
    ∃ part, Woven sent part ∧ Sends held (truncateActs s relIds) part held := by
  induction relIds generalizing sent with
  | nil =>
    obtain rfl := (Prod.mk.inj h).1
    exact ⟨[], .nil, .nil held⟩
  | cons relId rest ih =>
    obtain ⟨now, _, more, hnow, hrun, rfl⟩ := Emission.run_cons_eq_ok h
    obtain ⟨part, hwoven, hsends⟩ := ih hrun
    rw [truncateOne] at hnow
    split at hnow
    · cases (Prod.mk.inj hnow).2
    · next rel hrel =>
      obtain ⟨rfl, -⟩ := Prod.mk.inj hnow
      have htable : (LogChange.truncate rel.tableName).Stems
          (.tableTruncated rel.tableName s.txnVersion) := rfl
      simp only [truncateActs, hrel]
      exact ⟨_, .own htable hwoven, (Sends.now held _).append hsends⟩

theorem extra_of_relation {relId : ℕ} {rel : Relation} :
    ∀ e ∈ driftEvents (s.relations relId) rel, Extra e := by
  intro e he
  simp only [driftEvents] at he
  split at he
  · cases he
  · split at he
    · cases he
    · rw [List.mem_singleton.mp he]
      trivial

/-- What a message sends, and what is held after it. -/
theorem sends_turn (h : src.step s turn = (sent, .ok next)) :
    ∃ part, Woven sent part ∧ Sends s.pending.changes (src.turnActs s turn) part
      next.pending.changes := by
  obtain ⟨message, reads⟩ := turn
  cases message with
  | begin finalLsn =>
    obtain ⟨rfl, hnext⟩ := Prod.mk.inj h
    obtain rfl := Except.ok.inj hnext
    exact ⟨[], .extra trivial .nil, .nil _⟩
  | commit endLsn =>
    simp only [step] at h
    split at h
    · next flushed between hflush =>
      obtain ⟨rfl, hnext⟩ := Prod.mk.inj h
      obtain rfl := Except.ok.inj hnext
      obtain ⟨part, hwoven, hsends⟩ := sends_flush hflush
      refine ⟨part, ?_, hsends⟩
      rw [← List.append_nil part]
      exact hwoven.append (.extra trivial .nil)
    · cases (Prod.mk.inj h).2
  | relation relId rel =>
    obtain ⟨rfl, hnext⟩ := Prod.mk.inj h
    obtain rfl := Except.ok.inj hnext
    exact ⟨[], .extras extra_of_relation, .nil _⟩
  | truncate relIds =>
    obtain ⟨rfl, hnext⟩ := Prod.mk.inj h
    obtain ⟨_, hrun, rfl⟩ := Except.map_eq_ok hnext
    exact sends_truncate (Prod.ext rfl hrun) s.pending.changes
  | row relId incoming =>
    simp only [step] at h
    split at h
    · cases (Prod.mk.inj h).2
    · next c hc =>
      have hacts : src.turnActs s (.row relId incoming, reads) = takeActs s reads c :=
        congrArg (classifiedActs s reads) hc
      rw [hacts]
      exact sends_takeRow h
  | message lsn | keepAlive lsn =>
    obtain ⟨rfl, hnext⟩ := Prod.mk.inj h
    obtain rfl := Except.ok.inj hnext
    refine ⟨[], .extras fun e he => ?_, .nil _⟩
    split at he
    · cases he
    · rw [List.mem_singleton.mp he]
      trivial
  | other =>
    obtain ⟨rfl, hnext⟩ := Prod.mk.inj h
    obtain rfl := Except.ok.inj hnext
    exact ⟨[], .nil, .nil _⟩

/-- What some messages send, and what is held after them. -/
theorem sends_run {msgs : List (WalMessage × FlushReads)}
    (h : Emission.run src.step s msgs = (sent, .ok next)) :
    ∃ part, Woven sent part ∧ Sends s.pending.changes (src.acts s msgs) part
      next.pending.changes := by
  induction msgs generalizing s sent with
  | nil =>
    obtain ⟨rfl, hnext⟩ := Prod.mk.inj h
    obtain rfl := Except.ok.inj hnext
    exact ⟨[], .nil, .nil _⟩
  | cons turn rest ih =>
    obtain ⟨now, between, more, hstep, hrun, rfl⟩ := Emission.run_cons_eq_ok h
    obtain ⟨part, hwoven, hsends⟩ := sends_turn hstep
    obtain ⟨later, hlater, hmore⟩ := ih hrun
    refine ⟨part ++ later, hwoven.append hlater, ?_⟩
    rw [acts, hstep]
    exact hsends.append hmore

end

end WalSource

/-- **The order of the log** is kept exactly where no change overtakes one that it
conflicts with: a TRUNCATE, or a row of a table without collections, one that is held, or a
flush one of a table that it takes later. Where it is kept, the changes do what they do in
the order of the log. -/
theorem inLogOrder_iff (src : WalSource)
    (before : List (StreamItem WalState (WalMessage × FlushReads)))
    (hbefore : ∀ item ∈ before, WalSource.Delivered item) (earlier : List ChangeEvent)
    (s : WalState)
    (hreached : Emission.run src.step .start (before.flatMap StreamItem.messages) =
      (earlier, .ok s))
    (finalLsn endLsn : Lsn) (first last : FlushReads) (body : List (WalMessage × FlushReads))
    (sent : List ChangeEvent) (next : WalState)
    (hrun : Emission.run src.step s
      ((.begin finalLsn, first) :: (body ++ [(.commit endLsn, last)])) = (sent, .ok next))
    (conflict : LogChange → LogChange → Prop) :
    let txn := (WalMessage.begin finalLsn, first) :: (body ++ [(.commit endLsn, last)])
    Woven sent ((src.sendOrder s txn).map Prod.snd) ∧
      (InLogOrder conflict (src.sendOrder s txn) ↔ ∀ x y,
        Routes.Overtakes x y [] (Routes.numbered 0 (src.acts s txn)) → ¬conflict y.2 x.2) ∧
      (InLogOrder conflict (src.sendOrder s txn) → ∀ (δ : Type) (act : LogChange → δ → δ),
        (∀ a b, ¬conflict b a → ∀ d, act a (act b d) = act b (act a d)) → ∀ d,
          Interleave.run (fun x => act x.2) (src.sendOrder s txn) d =
            Interleave.run (fun x => act x.2) (src.logOrder s txn) d) := by
  intro txn
  have hs : WalSource.Idle s := WalSource.idle_of_run hbefore hreached
  have hnext : WalSource.Idle next := WalSource.idle_transaction hrun
  obtain ⟨part, hwoven, hsends⟩ := WalSource.sends_run hrun
  have hnone : ∀ {s : WalState}, WalSource.Idle s → s.pending.changes = [] := by
    intro s hs
    rw [ChildrenPending.changes, hs.2]
    rfl
  rw [hnone hs, hnone hnext] at hsends
  obtain ⟨houtput, hflushes⟩ := hsends.all
  have hnumbered : Routes.Flushes [] (Routes.numbered 0 (src.acts s txn)) := by
    rw [← Routes.flushes_map Prod.snd, Routes.map_numbered]
    exact hflushes
  obtain ⟨hsorted, -⟩ := Routes.log_numbered_sorted 0 (src.acts s txn)
  have hpairs : ∀ x y : ℕ × LogChange, ([x, y].Sublist (src.sendOrder s txn) ∧ y.1 < x.1) ↔
      Routes.Overtakes x y [] (Routes.numbered 0 (src.acts s txn)) :=
    fun x y => Routes.overtakes_iff hnumbered hsorted
  refine ⟨?_, ?_, ?_⟩
  · rw [WalSource.sendOrder, Routes.map_output, Routes.map_numbered]
    exact houtput.symm ▸ hwoven
  · constructor
    · intro horder x y hovertakes
      obtain ⟨hsub, hlt⟩ := (hpairs x y).mpr hovertakes
      exact horder x y hsub hlt
    · intro h x y hsub hlt
      exact h x y ((hpairs x y).mp ⟨hsub, hlt⟩)
  · intro horder δ act hcommutes d
    have hgood : ∀ (x : ℕ × LogChange) (d : δ), True → True := fun _ _ h => h
    refine Interleave.run_eq_of_perm hgood (Routes.output_perm hnumbered) hsorted ?_ trivial
    intro x y hsub hlt d _
    exact hcommutes x.2 y.2 (horder x y hsub hlt) d

/-! ### A row that a TRUNCATE overtakes -/

/-- Two changes that a document or a table has in common. -/
def LogChange.Touches : LogChange → LogChange → Prop
  | .row a, .row b => a.table = b.table ∧ a.kind.pk = b.kind.pk
  | .row a, .truncate t => a.table = t
  | .truncate t, .row a => a.table = t
  | .truncate t, .truncate t' => t = t'

/-- A source of customers, whose documents have their orders. -/
def customersWal : WalSource where
  convert _ raw := .ok (.str raw)
  watch := walConfig [⟨("public", "customers"),
    [⟨"public", "orders", "orders", "customer_id", none⟩], []⟩]
  tables t := t = ("public", "customers") || t = ("public", "orders")
  keyColumns _ := some ["id"]
  appendOnly _ := false

/-- A transaction that adds a customer and truncates the table, or does not. -/
def addCustomer (truncates : Bool) : List (WalMessage × FlushReads) :=
  (.begin 24, oneTableReads.flush) ::
    (((.relation 16385 ⟨"public", "customers", .default, [⟨"id", 25, true⟩]⟩,
        oneTableReads.flush) ::
      (.row 16385 (.insert [.text "7"]), oneTableReads.flush) ::
      (if truncates then [(.truncate [16385], oneTableReads.flush)] else [])) ++
      [(.commit 32, oneTableReads.flush)])

/-- The customer. -/
def customerSeven (version : Option ℕ) : RowChange :=
  ⟨("public", "customers"), .insert (.str "7") (.obj [("id", .str "7")]), version⟩

/-- The TRUNCATE goes out at once, the customer at the commit: the table's index is emptied
first and has the customer then. -/
theorem truncate_overtakes :
    (Emission.run customersWal.step .start (addCustomer true)).1 =
        [.begin 24, .tableTruncated ("public", "customers") (some 24),
          .row (customerSeven (some 24)), .commit 32] ∧
      customersWal.logOrder .start (addCustomer true) =
        [(0, .row (customerSeven none)), (1, .truncate ("public", "customers"))] ∧
      ¬InLogOrder LogChange.Touches (customersWal.sendOrder .start (addCustomer true)) := by
  refine ⟨rfl, rfl, fun horder => ?_⟩
  have hsent : customersWal.sendOrder .start (addCustomer true) =
      [(1, .truncate ("public", "customers")), (0, .row (customerSeven none))] := rfl
  rw [hsent] at horder
  exact horder _ _ (List.Sublist.refl _) (by decide) rfl

theorem inLogOrder_addCustomer :
    InLogOrder LogChange.Touches (customersWal.sendOrder .start (addCustomer false)) := by
  obtain ⟨-, hiff, -⟩ := inLogOrder_iff customersWal [] (fun _ h => absurd h List.not_mem_nil) []
    .start rfl 24 32 _ _ _ _ _ (by rfl : Emission.run customersWal.step .start
      (addCustomer false) = _) LogChange.Touches
  refine hiff.mpr fun x y h => ?_
  have hacts : Routes.numbered 0 (customersWal.acts .start (addCustomer false)) =
      [.hold ("public", "customers") (0, .row (customerSeven none)),
        .flush [("public", "customers")]] := rfl
  change Routes.Overtakes x y [] (Routes.numbered 0 (customersWal.acts .start
    (addCustomer false))) at h
  rw [hacts] at h
  rcases h with ⟨k, k', hheld, -⟩ | h
  · exact absurd hheld.length_le (by simp)
  · exact h.elim

end Pg2osync
