import Pg2osync.FailedEdits

/-!
# The tables a running pipeline admits

A source streams the tables of the sections, and those that a section's rows are put together
from: its children's, the junctions on the way to them, and the aggregated ones. At the start
both kinds are written into one list. A section that joins or leaves later edits the list by
its table's name alone, and nothing in it says who needs a table.

In every run in which no section leaves with a table that another one needs, nor leaves behind
one that it alone needed, the list is what the sections call for (`reached_admits`).
-/

namespace Pg2osync

open Dictionary

/-- The source is MySQL's. -/
def AppConfig.isMysql (cfg : AppConfig) : Bool :=
  cfg.source.flavor = "mysql"

/-- The decoder is told the keys: of PostgreSQL's log. -/
def AppConfig.tellsKeys (cfg : AppConfig) : Bool :=
  !cfg.isMysql && cfg.source.mode ≠ "poll"

namespace Config

/-! ## What the start admits -/

/-- The junction table of a child, as its source reads it: MySQL takes one that both columns are
known of. -/
def ChildJoin.junction (mysql : Bool) (child : ChildJoin) : Option String :=
  if mysql && child.throughKey.isNone then none else child.through

/-- The tables that a section's rows are put together from. -/
def TableSync.watches (mysql : Bool) (tbl : TableSync) : List String :=
  (tbl.children.flatMap fun child => child.table :: (child.junction mysql).toList) ++
    tbl.aggregates.map AggregateJoin.table

/-- A value at the end of a list, unless it is there. -/
def pushNew {α : Type} [DecidableEq α] (list : List α) (x : α) : List α :=
  if x ∈ list then list else list ++ [x]

/-- `run_postgres`: the sections' tables, and then those they watch, by the names the file has. -/
def admittedPostgres (cfg : AppConfig) : List TableName :=
  ((cfg.sync.values.flatMap (TableSync.watches false)).foldl pushNew
    (cfg.sync.values.map TableSync.table)).map splitQualified

/-- `mysql_config_for`. -/
def admittedMysql (cfg : AppConfig) : List TableName :=
  ((cfg.sync.values.flatMap (TableSync.watches true)).map splitQualified).foldl pushNew
    (cfg.sync.values.map fun tbl => splitQualified tbl.table)

/-- `key_columns_for`: what the catalogue has as the key, of a section that has one. -/
def keyColumnsFor (catalogue : TableName → List String) (cfg : AppConfig) :
    TableName → Option (List String) :=
  cfg.sync.values.foldl (fun out tbl => Function.update out (splitQualified tbl.table)
    (some (if tbl.appendOnly then [] else catalogue (splitQualified tbl.table)))) fun _ => none

/-- `table_set`, with `append_only_tables`. -/
def tableSet (cfg : AppConfig) (admitted : List TableName)
    (keyColumns : TableName → Option (List String)) : TableSet where
  tables := admitted
  keyColumns := keyColumns
  appendOnly table :=
    cfg.sync.values.any fun tbl => tbl.appendOnly && splitQualified tbl.table = table

/-- The tables a pipeline starts with. -/
def startTables (catalogue : TableName → List String) (cfg : AppConfig) : TableSet :=
  if cfg.isMysql then tableSet cfg (admittedMysql cfg) fun _ => none
  else if cfg.source.mode = "poll" then tableSet cfg (admittedPostgres cfg) fun _ => none
  else tableSet cfg (admittedPostgres cfg) (keyColumnsFor catalogue cfg)

/-! ## What the sections call for -/

/-- The tables a section needs. -/
def TableSync.needs (mysql : Bool) (tbl : TableSync) : List TableName :=
  splitQualified tbl.table :: (tbl.watches mysql).map splitQualified

/-- Some section needs a table. -/
def Needed (mysql : Bool) (sync : Dictionary String TableSync) (table : TableName) : Prop :=
  ∃ key tbl, sync.get? key = some tbl ∧ table ∈ tbl.needs mysql

/-- The key a section's rows are filed under, as the decoder is told it. -/
def TableSync.keyIn (keyed : Bool) (catalogue : TableName → List String) (tbl : TableSync) :
    List String :=
  if keyed && !tbl.appendOnly then catalogue (splitQualified tbl.table) else []

/-- The admitted tables are what the sections call for, and each section's table goes by the
section's own key and flag. -/
structure Admits (started : AppConfig) (catalogue : TableName → List String)
    (sync : Dictionary String TableSync) (set : TableSet) : Prop where
  /-- the tables are those some section needs -/
  tables : ∀ table, table ∈ set.tables ↔ Needed started.isMysql sync table
  /-- the keys are the sections' own -/
  keys : ∀ key tbl, sync.get? key = some tbl →
    (set.keyColumns (splitQualified tbl.table)).getD [] = tbl.keyIn started.tellsKeys catalogue
  /-- the flags are the sections' own -/
  flags : ∀ table, set.appendOnly table = true ↔
    ∃ key tbl, sync.get? key = some tbl ∧ splitQualified tbl.table = table ∧ tbl.appendOnly = true

/-- Sections of one table agree on whether it has a key. -/
def Agree (sync : Dictionary String TableSync) : Prop :=
  ∀ key tbl key' tbl', sync.get? key = some tbl → sync.get? key' = some tbl' →
    splitQualified tbl.table = splitQualified tbl'.table → tbl.appendOnly = tbl'.appendOnly

theorem mem_values {sync : Dictionary String TableSync} {tbl : TableSync} :
    tbl ∈ sync.values ↔ ∃ key, sync.get? key = some tbl := by
  rw [values, List.mem_map]
  constructor
  · rintro ⟨⟨key, value⟩, hmem, rfl⟩
    exact ⟨key, mem_entries_iff.mp hmem⟩
  · rintro ⟨key, hget⟩
    exact ⟨(key, tbl), mem_entries_iff.mpr hget, rfl⟩

theorem mem_foldl_pushNew {α : Type} [DecidableEq α] {list more : List α} {x : α} :
    x ∈ more.foldl pushNew list ↔ x ∈ list ∨ x ∈ more := by
  induction more generalizing list with
  | nil => simp
  | cons y more ih =>
    rw [List.foldl_cons, ih, pushNew]
    split
    · next hmem =>
      rw [List.mem_cons, ← or_assoc, or_congr_left]
      exact ⟨.inl, fun h => h.elim id fun heq => heq ▸ hmem⟩
    · simp [or_assoc]

variable {table : TableName} {mysql : Bool}

theorem needed_iff {sync : Dictionary String TableSync} :
    Needed mysql sync table ↔ (∃ tbl ∈ sync.values, splitQualified tbl.table = table) ∨
      ∃ name ∈ sync.values.flatMap (TableSync.watches mysql), splitQualified name = table := by
  simp only [Needed, TableSync.needs, List.mem_cons, List.mem_map, List.mem_flatMap, mem_values]
  constructor
  · rintro ⟨key, tbl, hget, rfl | ⟨name, hname, rfl⟩⟩
    · exact .inl ⟨tbl, ⟨key, hget⟩, rfl⟩
    · exact .inr ⟨name, ⟨tbl, ⟨key, hget⟩, hname⟩, rfl⟩
  · rintro (⟨tbl, ⟨key, hget⟩, rfl⟩ | ⟨name, ⟨tbl, ⟨key, hget⟩, hname⟩, rfl⟩)
    · exact ⟨key, tbl, hget, .inl rfl⟩
    · exact ⟨key, tbl, hget, .inr ⟨name, hname, rfl⟩⟩

theorem mem_admittedPostgres {cfg : AppConfig} :
    table ∈ admittedPostgres cfg ↔ Needed false cfg.sync table := by
  rw [admittedPostgres, List.mem_map, needed_iff]
  simp only [mem_foldl_pushNew, or_and_right, exists_or]
  refine or_congr_left ?_
  simp only [List.mem_map]
  constructor
  · rintro ⟨_, ⟨tbl, htbl, rfl⟩, heq⟩
    exact ⟨tbl, htbl, heq⟩
  · rintro ⟨tbl, htbl, heq⟩
    exact ⟨_, ⟨tbl, htbl, rfl⟩, heq⟩

theorem mem_admittedMysql {cfg : AppConfig} :
    table ∈ admittedMysql cfg ↔ Needed true cfg.sync table := by
  rw [admittedMysql, mem_foldl_pushNew, needed_iff, List.mem_map, List.mem_map]

/-- The last section of a table tells its key. -/
theorem foldl_update_eq {β : Type} {value : TableSync → β} {x : β} {sections : List TableSync}
    {out : TableName → β}
    (hvalue : ∀ tbl ∈ sections, splitQualified tbl.table = table → value tbl = x)
    (hsome : out table = x ∨ ∃ tbl ∈ sections, splitQualified tbl.table = table) :
    sections.foldl (fun out tbl => Function.update out (splitQualified tbl.table) (value tbl)) out
      table = x := by
  induction sections generalizing out with
  | nil =>
    refine hsome.elim id ?_
    rintro ⟨tbl, hmem, -⟩
    cases hmem
  | cons tbl sections ih =>
    refine ih (fun tbl' hmem => hvalue tbl' (List.mem_cons_of_mem _ hmem)) ?_
    dsimp only
    by_cases heq : splitQualified tbl.table = table
    · left
      rw [← heq, Function.update_self]
      exact hvalue tbl List.mem_cons_self heq
    · rw [Function.update_of_ne (Ne.symm heq)]
      refine hsome.imp_right ?_
      rintro ⟨tbl', hmem, htable⟩
      rcases List.mem_cons.mp hmem with rfl | hmem
      · exact absurd htable heq
      · exact ⟨tbl', hmem, htable⟩

/-- The start admits what the sections call for. -/
theorem admits_startTables {started : AppConfig} (catalogue : TableName → List String)
    (hagree : Agree started.sync) :
    Admits started catalogue started.sync (startTables catalogue started) := by
  have hflags : ∀ table, (started.sync.values.any fun tbl =>
      tbl.appendOnly && splitQualified tbl.table = table) = true ↔
      ∃ key tbl, started.sync.get? key = some tbl ∧ splitQualified tbl.table = table ∧
        tbl.appendOnly = true := by
    intro table
    simp only [List.any_eq_true, mem_values, Bool.and_eq_true, decide_eq_true_eq]
    constructor
    · rintro ⟨tbl, ⟨key, hget⟩, happend, htable⟩
      exact ⟨key, tbl, hget, htable, happend⟩
    · rintro ⟨key, tbl, hget, htable, happend⟩
      exact ⟨tbl, ⟨key, hget⟩, happend, htable⟩
  rw [startTables]
  cases hmysql : started.isMysql with
  | true =>
    rw [if_pos rfl]
    refine ⟨fun table => ?_, fun key tbl hget => ?_, hflags⟩
    · rw [hmysql]
      exact mem_admittedMysql
    · have hkeyed : started.tellsKeys = false := by simp [AppConfig.tellsKeys, hmysql]
      rw [TableSync.keyIn, hkeyed]
      rfl
  | false =>
    rw [if_neg (by decide)]
    by_cases hpoll : started.source.mode = "poll"
    · rw [if_pos hpoll]
      refine ⟨fun table => ?_, fun key tbl hget => ?_, hflags⟩
      · rw [hmysql]
        exact mem_admittedPostgres
      · have hkeyed : started.tellsKeys = false := by simp [AppConfig.tellsKeys, hpoll]
        rw [TableSync.keyIn, hkeyed]
        rfl
    · rw [if_neg hpoll]
      refine ⟨fun table => ?_, fun key tbl hget => ?_, hflags⟩
      · rw [hmysql]
        exact mem_admittedPostgres
      · have hkeyed : started.tellsKeys = true := by simp [AppConfig.tellsKeys, hmysql, hpoll]
        have htold : keyColumnsFor catalogue started (splitQualified tbl.table) =
            some (if tbl.appendOnly then [] else catalogue (splitQualified tbl.table)) := by
          refine foldl_update_eq (fun tbl' hmem htable => ?_) (.inr
            ⟨tbl, mem_values.mpr ⟨key, hget⟩, rfl⟩)
          obtain ⟨key', hget'⟩ := mem_values.mp hmem
          rw [hagree key' tbl' key tbl hget' hget htable, htable]
        rw [TableSync.keyIn, hkeyed, tableSet]
        dsimp only
        rw [htold]
        cases tbl.appendOnly <;> rfl

/-! ## A section that joins or leaves -/

variable {started : AppConfig} {catalogue : TableName → List String}
  {sync : Dictionary String TableSync} {set : TableSet} {key : String} {tbl : TableSync}

theorem needed_insert (hnew : sync.get? key = none) :
    Needed mysql (sync.insert key tbl) table ↔
      Needed mysql sync table ∨ table ∈ tbl.needs mysql := by
  simp only [Needed, get?_insert]
  constructor
  · rintro ⟨key', tbl', hget, hneeds⟩
    split at hget
    · cases hget
      exact .inr hneeds
    · exact .inl ⟨key', tbl', hget, hneeds⟩
  · rintro (⟨key', tbl', hget, hneeds⟩ | hneeds)
    · refine ⟨key', tbl', ?_, hneeds⟩
      rw [if_neg]
      · exact hget
      · rintro rfl
        cases hget.symm.trans hnew
    · exact ⟨key, tbl, if_pos rfl, hneeds⟩

/-- A section that joins with one table, which the other sections of it know alike. -/
theorem Admits.add (h : Admits started catalogue sync set) (hnew : sync.get? key = none)
    (hone : tbl.watches started.isMysql = [])
    (hagree : ∀ key' tbl', sync.get? key' = some tbl' →
      splitQualified tbl'.table = splitQualified tbl.table → tbl'.appendOnly = tbl.appendOnly)
    {keyColumns : List String} (hkey : keyColumns = tbl.keyIn started.tellsKeys catalogue) :
    Admits started catalogue (sync.insert key tbl)
      (set.add (splitQualified tbl.table) keyColumns tbl.appendOnly) := by
  refine ⟨fun table => ?_, fun key' tbl' hget => ?_, fun table => ?_⟩
  · rw [needed_insert hnew, TableSync.needs, hone, List.map_nil, List.mem_singleton, ← h.tables,
      TableSet.add]
    dsimp only
    split
    · next hmem =>
      rw [List.contains_iff_mem] at hmem
      exact ⟨.inl, fun hor => hor.elim id fun heq => heq ▸ hmem⟩
    · rw [List.mem_append, List.mem_singleton]
  · rw [get?_insert] at hget
    rw [TableSet.add]
    dsimp only
    split at hget
    · cases hget
      rw [if_pos rfl]
      exact hkey
    · split
      · next htable =>
        rw [Option.getD_some, hkey, TableSync.keyIn, TableSync.keyIn, hagree key' tbl' hget htable,
          htable]
      · exact h.keys key' tbl' hget
  · rw [TableSet.add]
    dsimp only
    by_cases htable : table = splitQualified tbl.table
    · rw [if_pos htable]
      constructor
      · intro happend
        exact ⟨key, tbl, by rw [get?_insert, if_pos rfl], htable.symm, happend⟩
      · rintro ⟨key', tbl', hget, htable', happend⟩
        rw [get?_insert] at hget
        split at hget
        · cases hget
          exact happend
        · rw [← hagree key' tbl' hget (htable'.trans htable)]
          exact happend
    · rw [if_neg htable, h.flags]
      refine exists₂_congr fun key' tbl' => ?_
      rw [get?_insert]
      constructor
      · rintro ⟨hget, hrest⟩
        refine ⟨?_, hrest⟩
        rw [if_neg]
        · exact hget
        · rintro rfl
          cases hget.symm.trans hnew
      · rintro ⟨hget, htable', happend⟩
        split at hget
        · cases hget
          exact absurd htable'.symm htable
        · exact ⟨hget, htable', happend⟩

/-- A section that leaves with a table nobody else needs, and needed no other that nobody
does. -/
theorem Admits.remove (h : Admits started catalogue sync set) (hold : sync.get? key = some tbl)
    (hown : ¬ Needed started.isMysql (sync.erase key) (splitQualified tbl.table))
    (hleft : ∀ table ∈ tbl.needs started.isMysql, table = splitQualified tbl.table ∨
      Needed started.isMysql (sync.erase key) table) :
    Admits started catalogue (sync.erase key) (set.remove (splitQualified tbl.table)) := by
  have hget : ∀ key' tbl', (sync.erase key).get? key' = some tbl' ↔
      key' ≠ key ∧ sync.get? key' = some tbl' := by
    intro key' tbl'
    rw [get?_erase]
    by_cases heq : key' = key
    · simp [heq]
    · simp [heq, Ne.symm heq]
  have hother : ∀ key' tbl', (sync.erase key).get? key' = some tbl' →
      splitQualified tbl'.table ≠ splitQualified tbl.table := by
    intro key' tbl' hget' heq
    exact hown ⟨key', tbl', hget', heq ▸ List.mem_cons_self⟩
  refine ⟨fun table => ?_, fun key' tbl' hget' => ?_, fun table => ?_⟩
  · rw [TableSet.remove]
    simp only [List.mem_filter, decide_eq_true_eq, h.tables, ne_eq]
    constructor
    · rintro ⟨⟨key', tbl', hget', hneeds⟩, hne⟩
      by_cases heq : key' = key
      · subst heq
        cases hget'.symm.trans hold
        exact (hleft table hneeds).resolve_left hne
      · exact ⟨key', tbl', (hget key' tbl').mpr ⟨heq, hget'⟩, hneeds⟩
    · rintro ⟨key', tbl', hget', hneeds⟩
      refine ⟨⟨key', tbl', ((hget key' tbl').mp hget').2, hneeds⟩, ?_⟩
      rintro rfl
      exact hown ⟨key', tbl', hget', hneeds⟩
  · rw [TableSet.remove]
    dsimp only
    rw [if_neg (hother key' tbl' hget')]
    exact h.keys key' tbl' ((hget key' tbl').mp hget').2
  · rw [TableSet.remove]
    dsimp only
    by_cases htable : table = splitQualified tbl.table
    · rw [if_pos htable]
      simp only [Bool.false_eq_true, false_iff, not_exists, not_and]
      intro key' tbl' hget' htable'
      exact absurd (htable'.trans htable) (hother key' tbl' hget')
    · rw [if_neg htable, h.flags]
      refine exists₂_congr fun key' tbl' => ?_
      rw [hget]
      constructor
      · rintro ⟨hget', htable', happend⟩
        refine ⟨⟨?_, hget'⟩, htable', happend⟩
        rintro rfl
        cases hget'.symm.trans hold
        exact htable htable'.symm
      · rintro ⟨⟨-, hget'⟩, hrest⟩
        exact ⟨hget', hrest⟩

/-! ## One turn -/

/-- An edit leaves the other sections' tables alone: a section that joins knows its table as
others know it, and one that leaves has a table nobody else needs, and watches none that nobody
else does. -/
def SparesOthers (mysql : Bool) (new : AppConfig) (sync : Dictionary String TableSync) :
    SectionEdit → Prop
  | .add key => ∀ tbl key' tbl', new.sync.get? key = some tbl → sync.get? key' = some tbl' →
      splitQualified tbl'.table = splitQualified tbl.table → tbl'.appendOnly = tbl.appendOnly
  | .remove key table _ => ¬ Needed mysql (sync.erase key) (splitQualified table) ∧
      ∀ tbl, sync.get? key = some tbl → ∀ watched ∈ tbl.needs mysql,
        watched = splitQualified table ∨ Needed mysql (sync.erase key) watched

/-- What the catalogue answers of a section that joins is the key it has. -/
def Catalogued (started : AppConfig) (catalogue : TableName → List String) (new : AppConfig)
    (a : Answers) : SectionEdit → Prop
  | .add key => ∀ tbl keyColumns, new.sync.get? key = some tbl → a.keyColumns = .ok keyColumns →
      keyColumns = tbl.keyIn started.tellsKeys catalogue
  | .remove _ _ _ => True

/-- What a plan edits: a section that runs, or one that has only its own table. -/
def Planned (new : AppConfig) (sync : Dictionary String TableSync) : SectionEdit → Prop
  | .add key => ∃ tbl, sync.get? key = none ∧ new.sync.get? key = some tbl ∧
      joiningTakesARestart key tbl new = none
  | .remove key table _ => ∃ tbl, sync.get? key = some tbl ∧ tbl.table = table

/-- A section that may join without a restart watches nothing. -/
theorem watches_of_joining {new : AppConfig} (h : joiningTakesARestart key tbl new = none) :
    tbl.watches mysql = [] := by
  simp only [joiningTakesARestart] at h
  split_ifs at h with hpoll hchildren hjoin hfan haggregates htemplated
  rw [TableSync.watches, not_not.mp hchildren, not_not.mp haggregates]
  rfl

/-- What a source admits for a section that joins. -/
theorem before_add {handle : Sections} (hhandle : Config.sections started = some handle)
    {file : AppConfig} {a : Answers} {set' : TableSet}
    (h : handle.before (.add key) file a set = .ok set') :
    ∃ tbl keyColumns, file.sync.get? key = some tbl ∧
      set' = set.add (splitQualified tbl.table) keyColumns tbl.appendOnly ∧
      (started.tellsKeys = false ∧ keyColumns = [] ∨ a.keyColumns = .ok keyColumns) := by
  rw [Config.sections] at hhandle
  split at hhandle
  · next hflavor =>
    cases hhandle
    simp only [mysqlSections, admission, get?_onlySection] at h
    split at h
    · cases h
    · next tbl htbl =>
      obtain ⟨keyColumns, hbefore, rfl⟩ := Except.map_eq_ok h
      refine ⟨tbl, keyColumns, htbl, rfl, .inl ⟨?_, ?_⟩⟩
      · simp [AppConfig.tellsKeys, AppConfig.isMysql, hflavor]
      · obtain ⟨⟨⟩, -, hbefore⟩ := Except.bind_eq_ok hbefore
        obtain ⟨⟨⟩, -, hbefore⟩ := Except.bind_eq_ok hbefore
        obtain ⟨_, -, hbefore⟩ := Except.bind_eq_ok hbefore
        obtain ⟨⟨⟩, -, hbefore⟩ := Except.bind_eq_ok hbefore
        cases hbefore
        rfl
  · split at hhandle
    · cases hhandle
    · cases hhandle
      simp only [postgresSections, admission, get?_onlySection] at h
      split at h
      · cases h
      · next tbl htbl =>
        obtain ⟨keyColumns, hbefore, rfl⟩ := Except.map_eq_ok h
        refine ⟨tbl, keyColumns, htbl, rfl, .inr ?_⟩
        obtain ⟨⟨⟩, -, hbefore⟩ := Except.bind_eq_ok hbefore
        obtain ⟨⟨⟩, -, hbefore⟩ := Except.bind_eq_ok hbefore
        obtain ⟨told, htold, hbefore⟩ := Except.bind_eq_ok hbefore
        obtain ⟨⟨⟩, -, hbefore⟩ := Except.bind_eq_ok hbefore
        obtain ⟨_, -, hbefore⟩ := Except.bind_eq_ok hbefore
        obtain ⟨⟨⟩, -, hbefore⟩ := Except.bind_eq_ok hbefore
        cases hbefore
        exact htold

/-- Both sources drop the table of a section that leaves. -/
theorem before_remove {handle : Sections} (hhandle : Config.sections started = some handle)
    (table index : String) (file : AppConfig) (a : Answers) :
    handle.before (.remove key table index) file a set =
      .ok (set.remove (splitQualified table)) := by
  rw [Config.sections] at hhandle
  split at hhandle
  · cases hhandle
    rfl
  · split at hhandle
    · cases hhandle
    · cases hhandle
      rfl

variable {r : Rendering} {handle : Sections} {answers : SectionEdit → Answers} {new : AppConfig}
  {s : Running} {edit : SectionEdit}

/-- An edit that takes has edited the sections and the tables. -/
theorem applyEdit_took (hearly : FailsEarly r handle answers new s edit)
    (htook : (applyEdit r handle answers new s edit).2 = none) :
    (applyEdit r handle answers new s edit).1.current.sync = edit.edit new s.current.sync ∧
      handle.before edit (handedOver new s edit) (answers edit) s.live.tables =
        .ok (applyEdit r handle answers new s edit).1.live.tables := by
  rw [FailsEarly] at hearly
  rcases hbefore : handle.before edit (handedOver new s edit) (answers edit) s.live.tables with
    e | set
  · rw [applyEdit_before hbefore] at htook
    cases htook
  · rcases hrules : ruleSet r.interpret r.contentId (handedOver new s edit) with e | rules
    · rw [applyEdit_adopt hbefore hrules] at htook
      cases htook
    · simp only [hbefore, hrules] at hearly
      obtain ⟨indices, hindices⟩ := indexNames_of_ruleSet hrules
      rw [applyEdit_adopted hbefore hrules hindices, hearly]
      exact ⟨rfl, rfl⟩

/-- A turn that spares the others leaves the tables what the sections call for. -/
theorem Admits.applyEdit (hhandle : Config.sections started = some handle)
    (h : Admits started catalogue s.current.sync s.live.tables)
    (hearly : FailsEarly r handle answers new s edit)
    (hplanned : Planned new s.current.sync edit)
    (hcatalogued : Catalogued started catalogue new (answers edit) edit)
    (hspares : (Config.applyEdit r handle answers new s edit).2 = none →
      SparesOthers started.isMysql new s.current.sync edit) :
    Admits started catalogue (Config.applyEdit r handle answers new s edit).1.current.sync
      (Config.applyEdit r handle answers new s edit).1.live.tables := by
  rcases hfail : (Config.applyEdit r handle answers new s edit).2 with - | refusal
  · obtain ⟨hsync, hbefore⟩ := applyEdit_took hearly hfail
    have hothers := hspares hfail
    rw [hsync]
    cases edit with
    | add key =>
      obtain ⟨tbl, hnone, hnew, hjoin⟩ := hplanned
      obtain ⟨tbl', keyColumns, hget, hset, htold⟩ := before_add hhandle hbefore
      have hsame : tbl' = tbl := by
        rw [handedOver] at hget
        simp only [SectionEdit.edit, hnew, get?_insert, if_true] at hget
        exact (Option.some.inj hget).symm
      subst hsame
      rw [hset]
      simp only [SectionEdit.edit, hnew]
      refine h.add hnone (watches_of_joining hjoin)
        (fun key' tbl'' hget' htable => hothers tbl' key' tbl'' hnew hget' htable) ?_
      rcases htold with ⟨hkeyed, rfl⟩ | htold
      · rw [TableSync.keyIn, hkeyed]
        rfl
      · exact hcatalogued tbl' keyColumns hnew htold
    | remove key table index =>
      obtain ⟨tbl, hold, rfl⟩ := hplanned
      rw [before_remove hhandle] at hbefore
      rw [← Except.ok.inj hbefore]
      exact h.remove hold hothers.1 (hothers.2 tbl hold)
  · rw [applyEdit_of_failed hearly hfail]
    exact h

/-! ## Every run -/

variable {t : Running × SectionEdit}

/-- No other edit of a plan touches the section of a turn. -/
theorem get?_turns {edits : List SectionEdit} (hnodup : (edits.map SectionEdit.key).Nodup)
    (ht : t ∈ turns r handle answers new edits s) :
    t.1.current.sync.get? t.2.key = s.current.sync.get? t.2.key := by
  induction edits generalizing s with
  | nil => cases ht
  | cons edit edits ih =>
    rw [List.map_cons, List.nodup_cons] at hnodup
    rcases List.mem_cons.mp ht with rfl | ht
    · rfl
    · have hne : edit.key ≠ t.2.key := fun heq =>
        hnodup.1 (heq ▸ List.mem_map_of_mem (mem_turns ht))
      exact (ih hnodup.2 ht).trans (get?_applyEdit_of_ne hne)

/-- The edit of a turn is planned for the sections that run then. -/
theorem planned_of_turn {handle : Option Sections} {req : Request} (hload : req.loaded = .ok new)
    (ht : t ∈ reloadTurns r handle req s) : Planned new t.1.current.sync t.2 := by
  have hplan := mem_reloadTurns hload ht
  have hsame : t.1.current.sync.get? t.2.key = s.current.sync.get? t.2.key := by
    obtain ⟨hot, hhot⟩ := swapHot_eq req new s
    rcases handle with - | handle
    · simp only [reloadTurns, hload] at ht
      cases ht
    · simp only [reloadTurns, hload] at ht
      split at ht
      · rw [get?_turns (nodup_sections _ _) ht, hhot]
      · cases ht
  rcases mem_sections.mp hplan with
    ⟨key, tbl, hold, -, -, hedit⟩ | ⟨key, tbl, hold, hnew, hjoin, hedit⟩
  · rw [hedit] at hsame ⊢
    exact ⟨tbl, hsame.trans hold, rfl⟩
  · rw [hedit] at hsame ⊢
    exact ⟨tbl, hsame.trans hold, hnew, hjoin⟩

/-- Every edit of a reload takes or fails early; the catalogue has the key of each table; and
what takes spares the other sections. -/
def ReloadSpares (r : Rendering) (started : AppConfig) (catalogue : TableName → List String)
    (req : Request) (s : Running) : Prop :=
  AllFailEarly r (Config.sections started) req s ∧
    ∀ new handle, req.loaded = .ok new → Config.sections started = some handle →
      ∀ t ∈ reloadTurns r (Config.sections started) req s,
        Catalogued started catalogue new (req.answers t.2) t.2 ∧
          ((applyEdit r handle req.answers new t.1 t.2).2 = none →
            SparesOthers started.isMysql new t.1.current.sync t.2)

/-- **In every run whose edits spare the other sections, the admitted tables are what the
sections call for,** between reloads and at every turn of one. -/
theorem reached_admits {r : Rendering} {started : AppConfig} {catalogue : TableName → List String}
    (hagree : Agree started.sync) {start s : Running}
    (hstart : launch r started (startTables catalogue started) = .ok start)
    (hs : Reached r (Config.sections started) (ReloadSpares r started catalogue) start s) :
    Admits started catalogue s.current.sync s.live.tables ∧
      ∀ req, ReloadSpares r started catalogue req s →
        ∀ t ∈ reloadTurns r (Config.sections started) req s,
          Admits started catalogue t.1.current.sync t.1.live.tables := by
  have hreload : ∀ {s : Running} {req : Request},
      Admits started catalogue s.current.sync s.live.tables →
      ReloadSpares r started catalogue req s →
      (∀ t ∈ reloadTurns r (Config.sections started) req s,
        Admits started catalogue t.1.current.sync t.1.live.tables) ∧
        Admits started catalogue (reload r (Config.sections started) req s).current.sync
          (reload r (Config.sections started) req s).live.tables := by
    intro s req hadmits hreq
    apply reload_induction (P := fun s => Admits started catalogue s.current.sync s.live.tables)
    · intro s hot h
      exact h
    · intro s hot h
      exact h
    · intro new handle hload hhandle t ht h
      obtain ⟨hcatalogued, hspares⟩ := hreq.2 new handle hload hhandle t ht
      exact h.applyEdit hhandle (hreq.1 new handle hload hhandle t ht)
        (planned_of_turn hload ht) hcatalogued hspares
    · exact hadmits
  have hadmits : Admits started catalogue s.current.sync s.live.tables := by
    induction hs with
    | start =>
      rw [launch] at hstart
      obtain ⟨rules, -, hstart⟩ := Except.bind_eq_ok hstart
      obtain ⟨indices, -, hstart⟩ := Except.bind_eq_ok hstart
      cases hstart
      exact admits_startTables catalogue hagree
    | reload _ hreq ih => exact (hreload ih hreq).2
  exact ⟨hadmits, fun req hreq => (hreload hadmits hreq).1⟩

/-! ### A table of two roles -/

/-- Orders are put together from their lines. -/
def ordersWithLines (sections : List String) : AppConfig :=
  { slotted "a" [] with
    sync := Dictionary.ofList (sections.map fun key => (key,
      if key = "orders" then
        { table := "public.orders", children := [
            { table := "public.lines", field := "lines", foreignKey := "order_id" }] }
      else { table := "public." ++ key })) }

/-- Every table has the same key. -/
def keyedById : TableName → List String := fun _ => ["id"]

/-- A plan of one edit has one turn, with the sections that run. -/
theorem reloadTurns_single {handle : Option Sections} {req : Request} (hload : req.loaded = .ok new)
    (hplan : (classify s.current new).sections = [edit]) (ht : t ∈ reloadTurns r handle req s) :
    t.1.current = s.current ∧ t.2 = edit := by
  refine ⟨?_, ?_⟩
  · obtain ⟨hot, hhot⟩ := swapHot_eq req new s
    rcases handle with - | handle
    · simp only [reloadTurns, hload] at ht
      cases ht
    · simp only [reloadTurns, hload, hplan, turns] at ht
      split at ht
      · rw [List.mem_singleton.mp ht, hhot]
      · cases ht
  · have hedit := mem_reloadTurns hload ht
    rw [hplan] at hedit
    exact List.mem_singleton.mp hedit

/-- The users leave, and the lines stay: the orders still need them. -/
theorem usersLeave_admits : ∃ start,
    launch plain (ordersWithLines ["lines", "orders", "users"])
      (startTables keyedById (ordersWithLines ["lines", "orders", "users"])) = .ok start ∧
    Admits (ordersWithLines ["lines", "orders", "users"]) keyedById
      (reload plain (Config.sections (ordersWithLines ["lines", "orders", "users"]))
        (rereads (ordersWithLines ["lines", "orders"])) start).current.sync
      (reload plain (Config.sections (ordersWithLines ["lines", "orders", "users"]))
        (rereads (ordersWithLines ["lines", "orders"])) start).live.tables := by
  have hhandle : Config.sections (ordersWithLines ["lines", "orders", "users"]) =
      some postgresSections := rfl
  have hagree : Agree (ordersWithLines ["lines", "orders", "users"]).sync := by
    intro key tbl key' tbl' hget hget' _
    have hnone : ∀ tbl ∈ (ordersWithLines ["lines", "orders", "users"]).sync.values,
        tbl.appendOnly = false := by decide +kernel
    rw [hnone tbl (mem_values.mpr ⟨key, hget⟩), hnone tbl' (mem_values.mpr ⟨key', hget'⟩)]
  have hplan : (classify (ordersWithLines ["lines", "orders", "users"])
      (ordersWithLines ["lines", "orders"])).sections =
      [.remove "users" "public.users" "users"] := by
    decide +kernel
  have hspares : ∀ s : Running, s.current = ordersWithLines ["lines", "orders", "users"] →
      ReloadSpares plain (ordersWithLines ["lines", "orders", "users"]) keyedById
        (rereads (ordersWithLines ["lines", "orders"])) s := by
    rintro s hs
    rw [← hs] at hplan
    refine ⟨fun new handle hload hsome t ht => ?_, fun new handle hload hsome t ht => ?_⟩
    · obtain ⟨hcurrent, hedit⟩ := reloadTurns_single rfl hplan ht
      rw [hhandle] at hsome
      obtain rfl := Option.some.inj hsome
      obtain rfl := Except.ok.inj hload
      have hrules : (ruleSet plain.interpret plain.contentId (handedOver
          (ordersWithLines ["lines", "orders"]) t.1
            (.remove "users" "public.users" "users"))).isOk = true := by
        rw [handedOver, hcurrent, hs]
        decide +kernel
      rw [FailsEarly, hedit]
      simp only [before_remove hhandle]
      split
      · next hfailed =>
        rw [hfailed] at hrules
        cases hrules
      · rfl
    · obtain ⟨hcurrent, hedit⟩ := reloadTurns_single rfl hplan ht
      rw [hedit, hcurrent, hs]
      refine ⟨trivial, fun _ => ⟨?_, fun tbl hget watched hwatched => ?_⟩⟩
      · rw [needed_iff]
        decide +kernel
      · have husers : (ordersWithLines ["lines", "orders", "users"]).sync.get? "users" =
            some { table := "public.users" } := by
          decide +kernel
        obtain rfl := Option.some.inj (hget.symm.trans husers)
        exact .inl (List.mem_singleton.mp hwatched)
  exact ⟨_, rfl, (reached_admits hagree rfl (.reload .start (hspares _ rfl))).1⟩

/-- The lines leave as a section of their own, and with them what the orders are put together
from. -/
theorem linesLeave_not_admits : ∃ start,
    launch plain (ordersWithLines ["lines", "orders", "users"])
      (startTables keyedById (ordersWithLines ["lines", "orders", "users"])) = .ok start ∧
    let after := reload plain (Config.sections (ordersWithLines ["lines", "orders", "users"]))
      (rereads (ordersWithLines ["orders", "users"])) start
    after.current.sync.contains "lines" = false ∧
    Needed false after.current.sync ("public", "lines") ∧
    ("public", "lines") ∉ after.live.tables.tables ∧
    ¬ Admits (ordersWithLines ["lines", "orders", "users"]) keyedById after.current.sync
      after.live.tables := by
  refine ⟨_, rfl, by decide +kernel, needed_iff.mpr (by decide +kernel), by decide +kernel, ?_⟩
  intro hadmits
  have hneeded := (hadmits.tables ("public", "lines")).mpr (needed_iff.mpr (by decide +kernel))
  exact absurd hneeded (by decide +kernel)

end Config

end Pg2osync
