import Pg2osync.BinlogStream
import Pg2osync.Emission

/-!
# The layout that rows were written with

A row event has neither the names of its columns nor their declared types. The source takes
both from the catalogue, which answers for the moment it is asked, while the event may be
older: the stream lags behind the server, or starts again from an earlier checkpoint. What
the source compares with the event is how many columns there are.
-/

namespace Pg2osync

namespace MySql

/-- `table_schema`, for a table that looks as given, if it is there. -/
def tableSchema (t : TableName) (keylessOk : Bool) (layout : Option TableSchema) :
    Except CoreError TableSchema :=
  match layout.filter fun schema => !schema.columns.isEmpty with
  | none => .error (.source ("table " ++ t.1 ++ "." ++ t.2 ++
      " does not exist or is not visible to this user"))
  | some schema =>
    if schema.pkColumns.isEmpty && !keylessOk then
      .error (.source ("table " ++ t.1 ++ "." ++ t.2 ++
        " has no PRIMARY KEY; pg2osync needs one to derive a stable document id, or " ++
        "`append_only = true` on its [sync] section to index its rows as they arrive"))
    else .ok schema

/-- An event that the source reads, with the moments of the server that matter to it. -/
structure Reading : Type where
  /-- the event -/
  event : BinlogEvent
  /-- what a flush is answered -/
  flush : FlushReads
  /-- when the event was written -/
  written : ℕ
  /-- when the catalogue is asked, if it is -/
  asked : ℕ
  /-- when it is asked a second time -/
  askedAgain : ℕ

/-- A row event of a number whose table map came before the events in between. -/
def RefersTo (tableId : ℕ) (between : List Reading) (rows : Reading) : Prop :=
  (∃ kind raw, rows.event.body = .rows tableId kind raw) ∧
    ∀ r ∈ between, match r.event.body with
      | .tableMap other _ _ => other ≠ tableId
      | .query _ | .xid | .rotate _ => False
      | .heartbeat | .formatDescription | .rows _ _ _ | .partialUpdateRows | .other => True

/-- A part of a log, which starts anywhere, as it is read some time later; `layout` is what
the tables look like at each moment. The server logs no names of columns. -/
structure Replayed (layout : ℕ → TableName → Option TableSchema) (log : List Reading) :
    Prop where
  /-- what is read was written before -/
  lag : ∀ r ∈ log, r.written ≤ r.asked ∧ r.asked ≤ r.askedAgain
  /-- in the order in which it was written -/
  order : log.Pairwise fun earlier later =>
    earlier.written ≤ later.written ∧ earlier.askedAgain ≤ later.asked
  /-- a table map has the columns that its table had -/
  maps : ∀ r ∈ log, ∀ tableId info names, r.event.body = .tableMap tableId info names →
    names = [] ∧ ∃ l, layout r.written info.table = some l ∧ l.columns ≠ [] ∧
      l.columns.length = info.columns.length
  /-- rows are written together with their table map -/
  together : ∀ before map between rows after, log = before ++ map :: (between ++ rows :: after) →
    ∀ tableId info names, map.event.body = .tableMap tableId info names →
      RefersTo tableId between rows → rows.written = map.written

/-- A registration by which rows are read as a layout has them. -/
structure Registration.Laid (rt : Registration) (info : TableMeta) (l : TableSchema) : Prop where
  /-- it is that of the table -/
  table : rt.table = info.table
  /-- the names -/
  columns : rt.columns = l.columnNames
  /-- the key -/
  pkColumns : rt.pkColumns = l.pkColumns
  /-- the declared shapes -/
  metas : rt.metas = fillShapes info.columns l.columns

namespace BinlogSource

variable (src : BinlogSource) (layout : ℕ → TableName → Option TableSchema)

/-- An event, with what the catalogue answers. -/
def turn (r : Reading) : BinlogEvent × BinlogReads :=
  (r.event,
    { flush := r.flush
      catalog := fun t => tableSchema t (src.appendOnly t) (layout r.asked t)
      catalogAgain := fun t => tableSchema t (src.appendOnly t) (layout r.askedAgain t) })

/-- Rows of a table that was written with a layout are read as that layout has them, or
left out, and the table's drift was reported. -/
def ReadAs (sent : List ChangeEvent) (s : BinlogState) (tableId : ℕ) (info : TableMeta)
    (l : TableSchema) : Prop :=
  (∃ rt, s.registered tableId = some rt ∧ rt.Laid info l) ∨
    s.registered tableId = none ∧ ∃ report, .schemaDrift info.table report ∈ sent

/-- The table map of a row event of a configured table, and the state it is met in. -/
structure Meets (file : String) (pos : ℕ) (log : List Reading) (s : BinlogState) (map : Reading)
    (between : List Reading) (rows : Reading) (tableId : ℕ) (info : TableMeta) (l : TableSchema) :
    Prop where
  /-- it is met after what came before -/
  reached : ∃ before after sent, log = before ++ map :: (between ++ rows :: after) ∧
    Emission.run src.step (.start file pos) (before.map (src.turn layout)) = (sent, .ok s)
  /-- it is a table map -/
  isMap : ∃ names, map.event.body = .tableMap tableId info names
  /-- once it is taken, so is what comes before the rows -/
  taken : ∀ sent next, src.step s (src.turn layout map) = (sent, .ok next) →
    ∃ more later, Emission.run src.step next (between.map (src.turn layout)) = (more, .ok later)
  /-- the rows are of its table -/
  refers : RefersTo tableId between rows
  /-- the table is configured -/
  configured : src.tables info.table = true
  /-- the layout is that of the moment the rows were written -/
  written : layout rows.written info.table = some l

/-- **Rows are read under the layout they were written with**, or left out with a report:
every row event of a configured table, wherever its table map is met. -/
def ReadAsWritten (file : String) (pos : ℕ) (log : List Reading) : Prop :=
  ∀ s map between rows tableId info l,
    src.Meets layout file pos log s map between rows tableId info l →
      ∃ sent next, src.step s (src.turn layout map) = (sent, .ok next) ∧
        ∀ more later, Emission.run src.step next (between.map (src.turn layout)) =
          (more, .ok later) → ReadAs sent later tableId info l

/-- What a table map is read with at first: the answer that is kept, or that of the
catalogue. -/
def firstAnswer (s : BinlogState) (catalog : TableName → Except CoreError TableSchema)
    (t : TableName) : Except CoreError TableSchema :=
  match s.schemas.entries t with
  | some kept => .ok kept
  | none => catalog t

/-- A layout that has as many columns as the one that rows were written with is that one. -/
def Distinguished (l : TableSchema) (answer : TableSchema) : Prop :=
  answer.columns.length = l.columns.length → answer = l

/-- The answers for a table map are no errors, and each that is used can be told from the
layout the rows were written with by the number of its columns, if it is another one. -/
def Answered (l : TableSchema) (first again : Except CoreError TableSchema) : Prop :=
  ∃ answer, first = .ok answer ∧ Distinguished l answer ∧
    (answer.columns.length ≠ l.columns.length →
      ∃ second, again = .ok second ∧ Distinguished l second)

variable {src} {layout}

/-! ## A table map -/

variable {info : TableMeta}

theorem columnNames_unlogged (hinfo : info.columns ≠ []) (a : TableSchema) :
    columnNames [] info a = a.columnNames := by
  apply if_neg
  intro h
  exact hinfo (List.eq_nil_of_length_eq_zero h.symm)

variable {catalog : Except CoreError TableSchema} {cache : SchemaCache}

/-- What is read first is the answer that is kept, or a new one, which is kept then. -/
theorem get_ok {t : TableName} {a : TableSchema}
    (h : cache.entries t = some a ∨ cache.entries t = none ∧ catalog = .ok a) :
    ∃ after, cache.get catalog t = .ok (a, after) ∧ after.entries t = some a := by
  rw [SchemaCache.get]
  rcases h with hkept | ⟨hnone, rfl⟩
  · rw [hkept]
    exact ⟨cache, rfl, hkept⟩
  · rw [hnone]
    refine ⟨_, rfl, ?_⟩
    exact Function.update_self _ _ _

theorem resolve_ok (hinfo : info.columns ≠ []) {a : TableSchema}
    (h : cache.entries info.table = some a ∨ cache.entries info.table = none ∧ catalog = .ok a) :
    ∃ drift after, resolve cache catalog info [] = .ok (a.columnNames, a, drift, after) ∧
      after.entries info.table = some a := by
  obtain ⟨after, hget, hkept⟩ := get_ok h
  refine ⟨(after.takeDrift info.table).1, (after.takeDrift info.table).2, ?_, hkept⟩
  rw [resolve, hget, ← columnNames_unlogged hinfo a]
  rfl

theorem resolve_error {names : List String} {e : CoreError}
    (hnone : cache.entries info.table = none) (hcatalog : catalog = .error e) :
    resolve cache catalog info names = .error e := by
  rw [resolve, SchemaCache.get, hnone, hcatalog]
  rfl

theorem entries_invalidate (cache : SchemaCache) (t : TableName) :
    (cache.invalidate t).entries t = none := by
  rw [SchemaCache.invalidate]
  cases h : cache.entries t with
  | none => exact h
  | some previous => exact Function.update_self _ _ _

/-- The shapes that are filled in are those of the columns. -/
theorem fillShapes_inj {metas : List ColMeta} {columns others : List Column}
    (hcolumns : columns.length = metas.length) (hothers : others.length = metas.length)
    (hnames : columns.map Column.name = others.map Column.name)
    (h : fillShapes metas columns = fillShapes metas others) : columns = others := by
  induction metas generalizing columns others with
  | nil => rw [List.eq_nil_of_length_eq_zero hcolumns, List.eq_nil_of_length_eq_zero hothers]
  | cons c metas ih =>
    cases columns with
    | nil => cases hcolumns
    | cons column columns =>
      cases others with
      | nil => cases hothers
      | cons other others =>
        simp only [fillShapes, List.cons.injEq, ColMeta.mk.injEq, Option.some.injEq, true_and] at h
        simp only [List.map_cons, List.cons.injEq] at hnames
        have hrest := ih (Nat.succ.inj hcolumns) (Nat.succ.inj hothers) hnames.2 h.2
        obtain ⟨name, shape⟩ := column
        obtain ⟨name', shape'⟩ := other
        obtain rfl : name = name' := hnames.1
        obtain rfl : shape = shape' := h.1
        rw [hrest]

variable {tableId : ℕ} {s : BinlogState}

/-- A registration under an answer reads rows as another layout has them only if they are
the same. -/
theorem readAs_register {l a : TableSchema} {sent : List ChangeEvent}
    (hl : l.columns.length = info.columns.length) (ha : a.columns.length = info.columns.length) :
    ReadAs sent (src.register s tableId info a.columnNames a) tableId info l ↔ a = l := by
  have hregistered : (src.register s tableId info a.columnNames a).registered tableId =
      some { table := info.table, columns := a.columnNames,
             metas := fillShapes info.columns a.columns, pkColumns := a.pkColumns,
             appendOnly := src.appendOnly info.table } := Function.update_self _ _ _
  rw [ReadAs, hregistered]
  constructor
  · rintro (⟨rt, hrt, hlaid⟩ | ⟨h, -⟩)
    · obtain rfl := Option.some.inj hrt
      have hcolumns := fillShapes_inj ha hl hlaid.columns hlaid.metas
      obtain ⟨columns, pk⟩ := a
      obtain ⟨columns', pk'⟩ := l
      obtain rfl : columns = columns' := hcolumns
      obtain rfl : pk = pk' := hlaid.pkColumns
      rfl
    · cases h
  · rintro rfl
    exact .inl ⟨_, rfl, rfl, rfl, rfl, rfl⟩

variable {l : TableSchema}

theorem readAs_forget {sent : List ChangeEvent} {report : String}
    (h : .schemaDrift info.table report ∈ sent) : ReadAs sent (s.forget tableId) tableId info l :=
  .inr ⟨Function.update_self _ _ _, report, h⟩

/-- What the second answer, if it is asked for, makes of a table map. -/
theorem takeTableMapAgain_readAs (src : BinlogSource) (s : BinlogState) (reads : BinlogReads)
    (tableId before : ℕ) (reported : List ChangeEvent) (hinfo : info.columns ≠ [])
    (hl : l.columns.length = info.columns.length) :
    (∃ sent next, src.takeTableMapAgain s reads tableId info [] before = (sent, .ok next) ∧
      ReadAs (reported ++ sent) next tableId info l) ↔
    ∃ second, reads.catalogAgain info.table = .ok second ∧ Distinguished l second := by
  have hnone := entries_invalidate s.schemas info.table
  rw [takeTableMapAgain]
  cases hagain : reads.catalogAgain info.table with
  | error e =>
    rw [resolve_error hnone rfl]
    constructor
    · rintro ⟨sent, next, h, -⟩
      cases (Prod.mk.inj h).2
    · rintro ⟨second, h, -⟩
      cases h
  | ok second =>
    obtain ⟨drift, after, hresolve, -⟩ := resolve_ok hinfo (.inr ⟨hnone, rfl⟩)
    rw [hresolve]
    dsimp only
    rw [TableSchema.columnNames, List.length_map]
    by_cases hlength : second.columns.length = info.columns.length
    · rw [if_pos hlength]
      constructor
      · rintro ⟨sent, next, h, hread⟩
        obtain ⟨rfl, hnext⟩ := Prod.mk.inj h
        obtain rfl := Except.ok.inj hnext
        exact ⟨second, rfl, fun _ => (readAs_register hl hlength).mp hread⟩
      · rintro ⟨_, h, hsame⟩
        obtain rfl := Except.ok.inj h
        exact ⟨_, _, rfl, (readAs_register hl hlength).mpr (hsame (hlength.trans hl.symm))⟩
    · rw [if_neg hlength]
      refine ⟨fun _ => ⟨second, rfl, fun h => absurd (h.trans hl) hlength⟩, fun _ => ?_⟩
      refine ⟨_, _, rfl, ?_⟩
      exact readAs_forget (List.mem_append_right _ (List.mem_singleton_self _))

theorem resolve_first (s : BinlogState) (catalog : TableName → Except CoreError TableSchema)
    (hinfo : info.columns ≠ []) :
    (∃ e, firstAnswer s catalog info.table = .error e ∧
      resolve s.schemas (catalog info.table) info [] = .error e) ∨
    ∃ a drift after, firstAnswer s catalog info.table = .ok a ∧
      resolve s.schemas (catalog info.table) info [] = .ok (a.columnNames, a, drift, after) := by
  rw [firstAnswer]
  cases hkept : s.schemas.entries info.table with
  | some a =>
    obtain ⟨drift, after, h, -⟩ := resolve_ok hinfo (.inl hkept)
    exact .inr ⟨a, drift, after, rfl, h⟩
  | none =>
    cases hcatalog : catalog info.table with
    | error e => exact .inl ⟨e, rfl, resolve_error hkept rfl⟩
    | ok a =>
      obtain ⟨drift, after, h, -⟩ := resolve_ok hinfo (.inr ⟨hkept, rfl⟩)
      exact .inr ⟨a, drift, after, rfl, h⟩

/-- **A table map**: it is taken, and rows are read as they were written or left out with a
report, exactly where the answers can be told from the layout. -/
theorem takeTableMap_readAs (src : BinlogSource) (s : BinlogState) (reads : BinlogReads)
    (tableId : ℕ) (hconfigured : src.tables info.table = true) (hinfo : info.columns ≠ [])
    (hl : l.columns.length = info.columns.length) :
    (∃ sent next, src.takeTableMap s reads tableId info [] = (sent, .ok next) ∧
      ReadAs sent next tableId info l) ↔
    Answered l (firstAnswer s reads.catalog info.table) (reads.catalogAgain info.table) := by
  rw [takeTableMap, if_pos hconfigured, Answered]
  rcases resolve_first s reads.catalog hinfo with ⟨e, hfirst, hresolve⟩ |
    ⟨a, drift, after, hfirst, hresolve⟩
  · rw [hfirst, hresolve]
    constructor
    · rintro ⟨sent, next, h, -⟩
      cases (Prod.mk.inj h).2
    · rintro ⟨a, h, -⟩
      cases h
  · rw [hfirst, hresolve]
    dsimp only
    rw [TableSchema.columnNames, List.length_map]
    by_cases hlength : a.columns.length = info.columns.length
    · rw [if_pos hlength]
      constructor
      · rintro ⟨sent, next, h, hread⟩
        obtain ⟨-, hnext⟩ := Prod.mk.inj h
        obtain rfl := Except.ok.inj hnext
        obtain rfl := (readAs_register hl hlength).mp hread
        exact ⟨a, rfl, fun _ => rfl, fun h => absurd rfl h⟩
      · rintro ⟨_, h, hsame, -⟩
        obtain rfl := Except.ok.inj h
        exact ⟨_, _, rfl, (readAs_register hl hlength).mpr (hsame (hlength.trans hl.symm))⟩
    · rw [if_neg hlength]
      have hother : a.columns.length ≠ l.columns.length := fun h => hlength (h.trans hl)
      have hagain := takeTableMapAgain_readAs src { s with schemas := after } reads tableId
        a.columns.length (drift.toList.map (.schemaDrift info.table)) hinfo hl
      constructor
      · rintro ⟨sent, next, h, hread⟩
        obtain ⟨rfl, hnext⟩ := Prod.mk.inj h
        exact ⟨a, rfl, fun h => absurd h hother,
          fun _ => hagain.mp ⟨_, next, Prod.ext rfl hnext, hread⟩⟩
      · rintro ⟨_, h, -, hsecond⟩
        obtain rfl := Except.ok.inj h
        obtain ⟨sent, next, htake, hread⟩ := hagain.mpr (hsecond hother)
        exact ⟨_, _, by rw [htake], hread⟩

/-! ## What comes between a table map and its rows -/

theorem step_tableMap {turn : BinlogEvent × BinlogReads} {names : List String}
    (h : turn.1.body = .tableMap tableId info names) :
    src.step s turn =
      src.takeTableMap { s with currentPos := endPos s.currentPos turn.1 } turn.2 tableId info
        names := by
  rw [step, h]

theorem step_rows {turn : BinlogEvent × BinlogReads} {kind : RowsKind} {raw : List RawRow}
    (h : turn.1.body = .rows tableId kind raw) :
    src.step s turn =
      src.takeRows { s with currentPos := endPos s.currentPos turn.1 } turn.2.flush tableId kind
        raw := by
  rw [step, h]

/-- What comes between leaves the table registered, or left out. -/
theorem run_registered {between : List Reading} {rows : Reading}
    (hrefers : RefersTo tableId between rows) {s later : BinlogState} {more : List ChangeEvent}
    (h : Emission.run src.step s (between.map (src.turn layout)) = (more, .ok later)) :
    later.registered tableId = s.registered tableId := by
  refine Emission.run_keeps (fun later => later.registered tableId = s.registered tableId) ?_ rfl h
  intro m hm now sent next hnow hstep
  obtain ⟨r, hr, rfl⟩ := List.mem_map.mp hm
  have hbetween := hrefers.2 r hr
  rw [← hnow]
  cases hbody : r.event.body with
  | heartbeat | formatDescription | other =>
    rw [turn, step, hbody] at hstep
    obtain rfl := Except.ok.inj (Prod.mk.inj hstep).2
    rfl
  | rotate | query | xid =>
    rw [hbody] at hbetween
    exact hbetween.elim
  | tableMap other info names =>
    rw [hbody] at hbetween
    rw [step_tableMap hbody] at hstep
    obtain ⟨schemas, registration, rfl⟩ := takeTableMap_ok hstep
    exact Function.update_of_ne (Ne.symm hbetween) _ _
  | rows other kind raw =>
    rw [step_rows hbody] at hstep
    obtain ⟨pending, rfl⟩ := takeRows_ok hstep
    rfl
  | partialUpdateRows =>
    rw [turn, step, hbody] at hstep
    cases (Prod.mk.inj hstep).2

/-- What is known of the table map of a row event. -/
theorem Meets.isWritten {file : String} {pos : ℕ} {log : List Reading} (hlog : Replayed layout log)
    {map rows : Reading} {between : List Reading}
    (h : src.Meets layout file pos log s map between rows tableId info l) :
    map.event.body = .tableMap tableId info [] ∧ info.columns ≠ [] ∧
      l.columns.length = info.columns.length := by
  obtain ⟨before, after, sent, hsplit, -⟩ := h.reached
  obtain ⟨names, hbody⟩ := h.isMap
  have hmem : map ∈ log := by
    rw [hsplit]
    exact List.mem_append_right _ List.mem_cons_self
  obtain ⟨rfl, written, hwritten, hcolumns, hlength⟩ := hlog.maps map hmem tableId info names hbody
  have htogether :=
    hlog.together before map between rows after hsplit tableId info [] hbody h.refers
  have hsame := h.written
  rw [htogether, hwritten] at hsame
  obtain rfl := Option.some.inj hsame
  refine ⟨hbody, ?_, hlength⟩
  intro hnil
  rw [hnil] at hlength
  exact hcolumns (List.eq_nil_of_length_eq_zero hlength)

end BinlogSource

open BinlogSource

/-- **Rows are read under the layout they were written with**, or left out with a report,
exactly where, at the table map of each row event, what the source takes for the layout can
be told from another one by the number of its columns. -/
theorem readAsWritten_iff (src : BinlogSource) (layout : ℕ → TableName → Option TableSchema)
    (file : String) (pos : ℕ) (log : List Reading) (hlog : Replayed layout log) :
    src.ReadAsWritten layout file pos log ↔
      ∀ s map between rows tableId info l,
        src.Meets layout file pos log s map between rows tableId info l →
          Answered l (firstAnswer s (src.turn layout map).2.catalog info.table)
            ((src.turn layout map).2.catalogAgain info.table) := by
  refine forall₄_congr fun s map between rows => forall₄_congr fun tableId info l h => ?_
  obtain ⟨hbody, hinfo, hlength⟩ := h.isWritten hlog
  have hstep : src.step s (src.turn layout map) =
      src.takeTableMap { s with currentPos := endPos s.currentPos map.event }
        (src.turn layout map).2 tableId info [] := step_tableMap hbody
  have htake := takeTableMap_readAs src { s with currentPos := endPos s.currentPos map.event }
    (src.turn layout map).2 tableId h.configured hinfo hlength
  rw [← hstep] at htake
  refine Iff.trans ?_ htake
  refine exists_congr fun sent => exists_congr fun next => and_congr_right fun hnext => ?_
  -- the rows find what the table map left
  have hframe : ∀ {more later},
      Emission.run src.step next (between.map (src.turn layout)) = (more, .ok later) →
        (ReadAs sent later tableId info l ↔ ReadAs sent next tableId info l) := by
    intro more later hrun
    rw [ReadAs, ReadAs, run_registered h.refers hrun]
  constructor
  · intro hread
    obtain ⟨more, later, hrun⟩ := h.taken sent next hnext
    exact (hframe hrun).mp (hread more later hrun)
  · intro hread more later hrun
    exact (hframe hrun).mpr hread

/-- A source of a table of people. -/
def peopleSource : BinlogSource where
  tables t := t = ("shop", "people")
  appendOnly _ := false
  watch := walConfig []
  versionBase := 0
  decode _ raw := .ok (.str (String.ofList (raw.map fun b => Char.ofNat b.toNat)))
  alphanumeric := Char.isAlphanum

/-- What the table looked like when its row was written. -/
def peopleBefore : TableSchema :=
  ⟨[⟨"id", .text⟩, ⟨"first", .text⟩, ⟨"last", .text⟩], ["id"]⟩

/-- And after two of its columns changed places. -/
def peopleAfter : TableSchema :=
  ⟨[⟨"id", .text⟩, ⟨"last", .text⟩, ⟨"first", .text⟩], ["id"]⟩

/-- A table that looks one way first, and another way from then on. -/
def changedTo (after : TableSchema) (moment : ℕ) (t : TableName) : Option TableSchema :=
  if t = ("shop", "people") then some (if moment = 0 then peopleBefore else after) else none

/-- What a flush is answered where nothing is held. -/
def nothingHeld : FlushReads where
  order := id
  perm := List.Perm.refl
  parentsThrough := fun _ _ _ => .ok []
  refetch := fun _ _ => .ok fun _ => none
  attach := fun _ _ => .ok fun _ doc => doc

/-- The table map of a row. -/
def peopleMap : Reading :=
  ⟨⟨60, 277, .tableMap 87 ⟨("shop", "people"),
    [⟨15, [255, 0], none⟩, ⟨15, [255, 0], none⟩, ⟨15, [255, 0], none⟩]⟩ []⟩, nothingHeld, 0, 1, 1⟩

/-- The row: the one of Ada. -/
def peopleRow : Reading :=
  ⟨⟨40, 317, .rows 87 .write [⟨none, some [.bytes [55], .bytes [65, 100, 97],
    .bytes [76, 111, 118, 101]]⟩]⟩, nothingHeld, 0, 1, 1⟩

/-- A row that was written before a statement which changes its table, read after it. -/
def peopleLog : List Reading :=
  [peopleMap, peopleRow, ⟨⟨31, 348, .xid⟩, nothingHeld, 0, 1, 1⟩,
    ⟨⟨90, 438, .query (some ("shop", "ALTER TABLE people MODIFY first text AFTER last"))⟩,
      nothingHeld, 1, 1, 1⟩]

theorem peopleLog_replayed (after : TableSchema) : Replayed (changedTo after) peopleLog := by
  constructor
  · decide
  · decide
  · intro r hr tableId info names hbody
    simp only [peopleLog, List.mem_cons, List.not_mem_nil, or_false] at hr
    rcases hr with rfl | rfl | rfl | rfl
    · cases hbody
      exact ⟨rfl, peopleBefore, rfl, by decide, rfl⟩
    · cases hbody
    · cases hbody
    · cases hbody
  · intro before map between rows rest hlog tableId info names hmap hrefers
    have hmapMem : map ∈ peopleLog := hlog ▸ by simp
    have hrowsMem : rows ∈ peopleLog := hlog ▸ by simp
    obtain ⟨kind, raw, hrows⟩ := hrefers.1
    simp only [peopleLog, List.mem_cons, List.not_mem_nil, or_false] at hmapMem hrowsMem
    rcases hmapMem with rfl | rfl | rfl | rfl
    · rcases hrowsMem with rfl | rfl | rfl | rfl
      · cases hrows
      · rfl
      · cases hrows
      · cases hrows
    · cases hmap
    · cases hmap
    · cases hmap

theorem peopleLog_meets (after : TableSchema) :
    peopleSource.Meets (changedTo after) "mysql-bin.000001" 157 peopleLog
      (.start "mysql-bin.000001" 157) peopleMap [] peopleRow 87
      ⟨("shop", "people"), [⟨15, [255, 0], none⟩, ⟨15, [255, 0], none⟩, ⟨15, [255, 0], none⟩]⟩
      peopleBefore := by
  refine ⟨⟨[], _, [], rfl, rfl⟩, ⟨[], rfl⟩, fun sent next _ => ⟨[], next, rfl⟩, ?_, rfl, rfl⟩
  refine ⟨⟨_, _, rfl⟩, fun r hr => ?_⟩
  cases hr

/-- Columns that changed places are read under each other's names. -/
theorem swapped_columns :
    Replayed (changedTo peopleAfter) peopleLog ∧
      (Emission.run peopleSource.step (.start "mysql-bin.000001" 157)
        (peopleLog.map (peopleSource.turn (changedTo peopleAfter)))).1 =
          [.row ⟨("shop", "people"), .insert (.str "7")
            (.obj [("first", .str "Love"), ("id", .str "7"), ("last", .str "Ada")]),
            some (peopleSource.tokenAt "mysql-bin.000001" 317)⟩,
          .commit (peopleSource.tokenAt "mysql-bin.000001" 348)] ∧
      ¬peopleSource.ReadAsWritten (changedTo peopleAfter) "mysql-bin.000001" 157 peopleLog := by
  refine ⟨peopleLog_replayed peopleAfter, by rfl, fun h => ?_⟩
  obtain ⟨sent, next, hstep, hread⟩ := h _ _ _ _ _ _ _ (peopleLog_meets peopleAfter)
  obtain ⟨-, hnext⟩ := Prod.mk.inj hstep
  obtain rfl := Except.ok.inj hnext
  rcases hread [] _ rfl with ⟨rt, hrt, hlaid⟩ | ⟨hnone, -⟩
  · obtain rfl := Option.some.inj hrt
    exact absurd hlaid.columns (by decide)
  · cases hnone

/-- The table with a column more. -/
def peopleMore : TableSchema :=
  ⟨peopleBefore.columns ++ [⟨"born", .text⟩], ["id"]⟩

theorem readAsWritten_iff_added :
    peopleSource.ReadAsWritten (changedTo peopleMore) "mysql-bin.000001" 157 peopleLog ↔
      ∀ s map between rows tableId info l,
        peopleSource.Meets (changedTo peopleMore) "mysql-bin.000001" 157 peopleLog s map between
          rows tableId info l →
        Answered l
          (firstAnswer s (peopleSource.turn (changedTo peopleMore) map).2.catalog info.table)
          ((peopleSource.turn (changedTo peopleMore) map).2.catalogAgain info.table) :=
  readAsWritten_iff peopleSource _ _ _ peopleLog (peopleLog_replayed _)

/-- A row of a table that has another column by now is left out, with a report. -/
example : (Emission.run peopleSource.step (.start "mysql-bin.000001" 157)
    (peopleLog.map (peopleSource.turn (changedTo peopleMore)))).1 =
    [.schemaDrift ("shop", "people") "binlog reports 3 columns, the catalog had 4",
      .commit (peopleSource.tokenAt "mysql-bin.000001" 348)] := by rfl

end MySql

end Pg2osync
