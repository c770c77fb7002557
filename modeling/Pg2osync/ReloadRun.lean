import Pg2osync.Reload
import Pg2osync.RuleSet

/-!
# Reloads of a running pipeline

What a pipeline runs by is held in two places. `Live` is what the streaming attempt
reads and the next attempt is built from: the configuration, the rules, the admitted
tables, the indices. The task that watches for reloads keeps a configuration of its
own, `current`, against which it compares the file, and advances it by what took.

A section joins or leaves in several steps, each of which may fail. What the outside
answers to each of them is given with the request; the steps before a table is
admitted leave no trace in the process, and those after it are not taken back.
-/

namespace Pg2osync

namespace Config

/-! ## Admitted tables -/

/-- The tables one source streams. -/
structure TableSet : Type where
  /-- the tables, in configuration order -/
  tables : List TableName
  /-- each table's key columns as the catalogue has them -/
  keyColumns : TableName → Option (List String)
  /-- the tables declared append-only -/
  appendOnly : TableName → Bool

namespace TableSet

/-- `SharedTables::add`. -/
def add (set : TableSet) (table : TableName) (keyColumns : List String) (appendOnly : Bool) :
    TableSet where
  tables := if set.tables.contains table then set.tables else set.tables ++ [table]
  keyColumns other := if other = table then some keyColumns else set.keyColumns other
  appendOnly other := if other = table then appendOnly else set.appendOnly other

/-- `SharedTables::remove`. -/
def remove (set : TableSet) (table : TableName) : TableSet where
  tables := set.tables.filter fun other => other ≠ table
  keyColumns other := if other = table then none else set.keyColumns other
  appendOnly other := if other = table then false else set.appendOnly other

end TableSet

/-! ## What a pipeline runs by -/

/-- `Live`: what the attempt that is streaming reads, and the next one is built from. -/
structure Live : Type where
  cfg : AppConfig
  rules : RuleSet
  tables : TableSet
  /-- the indices refreshed before a position is answered for -/
  indices : List String

/-- What the outside answers to the steps of one edit. -/
structure Answers : Type where
  /-- the connection to the source -/
  connect : Except String Unit
  /-- PostgreSQL: the publication takes the table, and the stream passes that point -/
  publication : Except String Unit
  /-- PostgreSQL: the key columns the catalogue has -/
  keyColumns : Except String (List String)
  /-- the checks a start makes of the table -/
  checked : Except String Unit
  /-- the target's index is ready -/
  ready : Except String Unit
  /-- whether an attempt is streaming -/
  attempt : Bool
  /-- the table's rows are read -/
  read : Except String Unit

/-- What the reload task works on. -/
structure Running : Type where
  /-- what the file is compared with -/
  current : AppConfig
  live : Live
  /-- the settings that batches and retries read -/
  hot : Hot
  /-- the edits that took, in order, with the file of each; the process keeps no such
  record -/
  taken : List (AppConfig × SectionEdit)

/-- What a rule set is built with: the transforms' operations, and the id of a row
without a key. -/
structure Rendering : Type where
  interpret : TransformOp → Except String (Json → Applied)
  contentId : Json → String

/-- `Live::adopt`: rules, indices and configuration, in this order. -/
def Live.adopt (r : Rendering) (live : Live) (file : AppConfig) : Live × Except String Unit :=
  match ruleSet r.interpret r.contentId file with
  | .error e => (live, .error e)
  | .ok rules =>
    match indexNames file.sync with
    | .error e => ({ live with rules }, .error e)
    | .ok indices => ({ live with rules, indices, cfg := file }, .ok ())

/-- `only_section`. -/
def onlySection (file : AppConfig) (key : String) : AppConfig :=
  { file with sync := file.sync.retain fun k => k = key }

/-- What `add_table_postgres` does before the table is admitted. -/
def beforePostgres (a : Answers) (key : String) (file : AppConfig) :
    Except String (List String) := do
  a.connect
  a.publication
  let keyColumns ← a.keyColumns
  a.checked
  let _ ← indexSpecs (onlySection file key).sync
  a.ready
  return keyColumns

/-- What `add_table_mysql` does before the table is admitted. -/
def beforeMysql (a : Answers) (key : String) (file : AppConfig) :
    Except String (List String) := do
  a.connect
  a.checked
  let _ ← indexSpecs (onlySection file key).sync
  a.ready
  return []

/-- How a section is put on or off a running pipeline: what is done before its
configuration is adopted, the admission of its table last, and what is done after. -/
structure Sections : Type where
  before : SectionEdit → AppConfig → Answers → TableSet → Except String TableSet
  after : SectionEdit → Answers → Except String Unit

/-- The admission of a new section's table. -/
def admission (before : Answers → String → AppConfig → Except String (List String)) (a : Answers)
    (key : String) (file : AppConfig) (tables : TableSet) : Except String TableSet :=
  match (onlySection file key).sync.get? key with
  | none => .error "the section is not in the file being applied"
  | some tbl => (before a key file).map fun keyColumns =>
    tables.add (splitQualified tbl.table) keyColumns tbl.appendOnly

/-- The rows of a new section's table, read down the channel of the attempt. -/
def readRows (a : Answers) : Except String Unit :=
  if a.attempt then a.read
  else .error "no streaming attempt is running to read the table with"

/-- `add_table_postgres` and `remove_table_postgres`. A publication that keeps a table
that left is only warned of. -/
def postgresSections : Sections where
  before
    | .add key, file, a, tables => admission beforePostgres a key file tables
    | .remove _ table _, _, _, tables => .ok (tables.remove (splitQualified table))
  after
    | .add _, a => readRows a
    | .remove _ _ _, a => a.connect

/-- `add_table_mysql`, and what `mysql_sections` does to remove one. -/
def mysqlSections : Sections where
  before
    | .add key, file, a, tables => admission beforeMysql a key file tables
    | .remove _ table _, _, _, tables => .ok (tables.remove (splitQualified table))
  after
    | .add _, a => readRows a
    | .remove _ _ _, _ => .ok ()

/-- The handle of `run_mysql` and `run_postgres`: none while a source polls. -/
def sections (started : AppConfig) : Option Sections :=
  if started.source.flavor = "mysql" then some mysqlSections
  else if started.source.mode = "poll" then none
  else some postgresSections

/-- `Live::new`, and the reload task beside it. -/
def launch (r : Rendering) (started : AppConfig) (tables : TableSet) : Except String Running := do
  let rules ← ruleSet r.interpret r.contentId started
  let indices ← indexNames started.sync
  return ⟨started, ⟨started, rules, tables, indices⟩, Hot.of started, []⟩

/-! ## A reload -/

/-- A request to read the file again. -/
structure Request : Type where
  /-- what the file loads and validates as -/
  loaded : Except String AppConfig
  /-- whether the log filter could be swapped -/
  logSwap : Except String Unit
  /-- what the outside answers to each edit -/
  answers : SectionEdit → Answers

/-- What one turn of `apply_sections` hands over: the file with this one edit applied to
the sections that run, and nothing else. -/
def handedOver (new : AppConfig) (s : Running) (edit : SectionEdit) : AppConfig :=
  { new with sync := edit.edit new s.current.sync }

/-- What a section's edit does to a running pipeline. -/
def Sections.apply (handle : Sections) (r : Rendering) (edit : SectionEdit) (file : AppConfig)
    (a : Answers) (live : Live) : Live × Except String Unit :=
  match handle.before edit file a live.tables with
  | .error e => (live, .error e)
  | .ok tables =>
    match Live.adopt r { live with tables } file with
    | (live, .error e) => (live, .error e)
    | (live, .ok ()) => (live, handle.after edit a)

section

variable (r : Rendering) (handle : Option Sections)

/-- One turn of `apply_sections`, with the refusal of an edit that did not take. -/
def applyEdit (handle : Sections) (answers : SectionEdit → Answers) (new : AppConfig)
    (s : Running) (edit : SectionEdit) : Running × Option Refusal :=
  match handle.apply r edit (handedOver new s edit) (answers edit) s.live with
  | (live, .ok ()) =>
    ({ s with
        current := { s.current with sync := (handedOver new s edit).sync }
        live
        taken := s.taken ++ [(new, edit)] }, none)
  | (live, .error e) =>
    ({ s with live }, some ⟨[.entry edit.key], "[sync." ++ edit.key ++ "] " ++ e⟩)

/-- The turns of `apply_sections`: each edit with the state it finds. -/
def turns (handle : Sections) (answers : SectionEdit → Answers) (new : AppConfig) :
    List SectionEdit → Running → List (Running × SectionEdit)
  | [], _ => []
  | edit :: edits, s =>
    (s, edit) :: turns handle answers new edits (applyEdit r handle answers new s edit).1

/-- `apply_sections`: the state after all the turns. -/
def applySections (handle : Sections) (answers : SectionEdit → Answers) (new : AppConfig)
    (edits : List SectionEdit) (s : Running) : Running :=
  edits.foldl (fun s edit => (applyEdit r handle answers new s edit).1) s

/-- The settings `apply` swaps before it looks at the sections: all of them, or all but
the log filter where that fails. -/
def swapHot (req : Request) (new : AppConfig) (s : Running) : Running × Bool :=
  let plan := classify s.current new
  let before := Hot.of s.current
  if plan.hot = before then (s, true)
  else if plan.hot.logFilter ≠ before.logFilter ∧ req.logSwap ≠ .ok () then
    ({ s with hot := { plan.hot with logFilter := s.hot.logFilter } }, false)
  else ({ s with hot := plan.hot }, true)

/-- The turns of one `apply`, none where the file is not read or the log filter fails. -/
def reloadTurns (req : Request) (s : Running) : List (Running × SectionEdit) :=
  match req.loaded, handle with
  | .ok new, some handle =>
    if (swapHot req new s).2 then
      turns r handle req.answers new (classify s.current new).sections (swapHot req new s).1
    else []
  | _, _ => []

/-- `apply`: read the file, decide what it may change, change it. -/
def reload (req : Request) (s : Running) : Running :=
  match req.loaded with
  | .error _ => s
  | .ok new =>
    let plan := classify s.current new
    let (s, swapped) := swapHot req new s
    if swapped then
      let s := match handle with
        | none => s
        | some handle => applySections r handle req.answers new plan.sections s
      { s with current := plan.hot.advance s.current }
    else s

/-- The states a pipeline is in between reloads, where every request is `allowed` in the
state it comes in. -/
inductive Reached (allowed : Request → Running → Prop) (start : Running) : Running → Prop where
  | start : Reached allowed start start
  | reload {s : Running} {req : Request} (hs : Reached allowed start s) (hreq : allowed req s) :
      Reached allowed start (reload r handle req s)

end

/-- The sections a process started with, and the edits that took since. -/
def sectionsTaken (started : AppConfig) (taken : List (AppConfig × SectionEdit)) :
    Dictionary String TableSync :=
  taken.foldl (fun sync t => t.2.edit t.1 sync) started.sync

theorem sectionsTaken_append (started : AppConfig) (taken : List (AppConfig × SectionEdit))
    (new : AppConfig) (edit : SectionEdit) :
    sectionsTaken started (taken ++ [(new, edit)]) =
      edit.edit new (sectionsTaken started taken) := by
  rw [sectionsTaken, List.foldl_append]
  rfl

/-! ## What one turn does -/

theorem foldlM_map_ok {α β σ : Type} {f : α → Except String β} (g : σ → α → β → σ)
    {list : List α} (h : ∀ x ∈ list, ∃ y, f x = .ok y) (init : σ) :
    ∃ result, list.foldlM (fun acc x => (f x).map (g acc x)) init = .ok result := by
  induction list generalizing init with
  | nil => exact ⟨init, rfl⟩
  | cons x list ih =>
    obtain ⟨y, hy⟩ := h x List.mem_cons_self
    rw [List.foldlM_cons, hy]
    exact ih (fun x hx => h x (List.mem_cons_of_mem _ hx)) (g init x y)

/-- Where the rules can be built, so can the list of indices. -/
theorem indexNames_of_ruleSet {r : Rendering} {file : AppConfig} {rules : RuleSet}
    (h : ruleSet r.interpret r.contentId file = .ok rules) :
    ∃ indices, indexNames file.sync = .ok indices := by
  rw [ruleSet] at h
  obtain ⟨mapping, hmapping, -⟩ := Except.bind_eq_ok h
  rw [tableMapping] at hmapping
  obtain ⟨targets, htargets, -⟩ := Except.map_eq_ok hmapping
  have htarget : ∀ e ∈ file.sync.entries, ∃ target,
      orBail (at_ e.1 "") (TableSync.indexTarget e.2 e.1 (pkColumnsFor e.2)) = .ok target := by
    intro e he
    obtain ⟨pair, -, hpair⟩ := exists_of_mapM htargets he
    obtain ⟨target, htarget, -⟩ := Except.map_eq_ok hpair
    exact ⟨target, htarget⟩
  have hspecs : ∃ specs, indexSpecs file.sync = .ok specs := foldlM_map_ok _ htarget []
  obtain ⟨specs, hspecs⟩ := hspecs
  exact ⟨specs.map IndexSpec.name, by rw [indexNames, hspecs]; rfl⟩

variable {r : Rendering} {handle : Sections} {answers : SectionEdit → Answers} {new : AppConfig}
  {s : Running} {edit : SectionEdit}

/-- An edit that fails before its table is admitted changes nothing. -/
theorem applyEdit_before {e : String}
    (h : handle.before edit (handedOver new s edit) (answers edit) s.live.tables = .error e) :
    applyEdit r handle answers new s edit =
      (s, some ⟨[.entry edit.key], "[sync." ++ edit.key ++ "] " ++ e⟩) := by
  simp only [applyEdit, Sections.apply, h]

/-- Where the rules cannot be built, only the admitted tables change. -/
theorem applyEdit_adopt {tables : TableSet} {e : String}
    (h : handle.before edit (handedOver new s edit) (answers edit) s.live.tables = .ok tables)
    (hrules : ruleSet r.interpret r.contentId (handedOver new s edit) = .error e) :
    applyEdit r handle answers new s edit =
      ({ s with live := { s.live with tables } },
        some ⟨[.entry edit.key], "[sync." ++ edit.key ++ "] " ++ e⟩) := by
  simp only [applyEdit, Sections.apply, h, Live.adopt, hrules]

/-- An edit whose rules can be built is adopted, and takes unless a later step fails. -/
theorem applyEdit_adopted {tables : TableSet} {rules : RuleSet} {indices : List String}
    (h : handle.before edit (handedOver new s edit) (answers edit) s.live.tables = .ok tables)
    (hrules : ruleSet r.interpret r.contentId (handedOver new s edit) = .ok rules)
    (hindices : indexNames (handedOver new s edit).sync = .ok indices) :
    applyEdit r handle answers new s edit =
      match handle.after edit (answers edit) with
      | .error e => ({ s with live := ⟨handedOver new s edit, rules, tables, indices⟩ },
          some ⟨[.entry edit.key], "[sync." ++ edit.key ++ "] " ++ e⟩)
      | .ok () => ({ s with
          current := { s.current with sync := (handedOver new s edit).sync }
          live := ⟨handedOver new s edit, rules, tables, indices⟩
          taken := s.taken ++ [(new, edit)] }, none) := by
  simp only [applyEdit, Sections.apply, h, Live.adopt, hrules, hindices]
  rcases handle.after edit (answers edit) with e | ⟨⟩
  · rfl
  · rfl

/-! ## What holds over a reload -/

theorem turns_induction {P : Running → Prop} {edits : List SectionEdit}
    (hedit : ∀ t ∈ turns r handle answers new edits s, P t.1 →
      P (applyEdit r handle answers new t.1 t.2).1) (hs : P s) :
    (∀ t ∈ turns r handle answers new edits s, P t.1) ∧
      P (applySections r handle answers new edits s) := by
  induction edits generalizing s with
  | nil => exact ⟨fun _ ht => absurd ht List.not_mem_nil, hs⟩
  | cons edit edits ih =>
    have hnext : P (applyEdit r handle answers new s edit).1 := hedit _ List.mem_cons_self hs
    obtain ⟨hturns, hlast⟩ := ih (fun t ht => hedit t (List.mem_cons_of_mem _ ht)) hnext
    refine ⟨fun t ht => ?_, hlast⟩
    rcases List.mem_cons.mp ht with rfl | ht
    · exact hs
    · exact hturns t ht

/-- A swap of settings touches neither the configurations nor what is live. -/
theorem swapHot_eq (req : Request) (new : AppConfig) (s : Running) :
    ∃ hot, (swapHot req new s).1 = { s with hot } := by
  simp only [swapHot]
  split
  · exact ⟨s.hot, rfl⟩
  · split
    · exact ⟨_, rfl⟩
    · exact ⟨_, rfl⟩

/-- What the settings do not matter to, and every turn keeps, holds at every turn of a
reload and after it. -/
theorem reload_induction {handle : Option Sections} {req : Request} {P : Running → Prop}
    (hswap : ∀ s hot, P s → P { s with hot })
    (hadvance : ∀ s (hot : Hot), P s → P { s with current := hot.advance s.current })
    (hedit : ∀ new sections, req.loaded = .ok new → handle = some sections →
      ∀ t ∈ reloadTurns r handle req s, P t.1 →
        P (applyEdit r sections req.answers new t.1 t.2).1)
    (hs : P s) :
    (∀ t ∈ reloadTurns r handle req s, P t.1) ∧ P (reload r handle req s) := by
  rcases hload : req.loaded with e | new
  · simp [reloadTurns, reload, hload, hs]
  obtain ⟨hot, hhot⟩ := swapHot_eq req new s
  have hswapped : P (swapHot req new s).1 := hhot ▸ hswap s hot hs
  rcases handle with _ | sections
  · simp only [reloadTurns, reload, hload]
    split
    · exact ⟨fun _ ht => absurd ht List.not_mem_nil, hadvance _ _ hswapped⟩
    · exact ⟨fun _ ht => absurd ht List.not_mem_nil, hswapped⟩
  · have hturn := hedit new sections hload rfl
    simp only [reloadTurns, reload, hload] at hturn ⊢
    split
    · next hok =>
      simp only [hok, if_true] at hturn
      obtain ⟨hturns, hlast⟩ := turns_induction hturn hswapped
      exact ⟨hturns, hadvance _ _ hlast⟩
    · exact ⟨fun _ ht => absurd ht List.not_mem_nil, hswapped⟩

theorem mem_turns {edits : List SectionEdit} {t : Running × SectionEdit}
    (ht : t ∈ turns r handle answers new edits s) : t.2 ∈ edits := by
  induction edits generalizing s with
  | nil => cases ht
  | cons edit edits ih =>
    rcases List.mem_cons.mp ht with rfl | ht
    · exact List.mem_cons_self
    · exact List.mem_cons_of_mem _ (ih ht)

/-- The turns of a reload are those of its plan. -/
theorem mem_reloadTurns {handle : Option Sections} {req : Request} {new : AppConfig}
    (hload : req.loaded = .ok new) {t : Running × SectionEdit}
    (ht : t ∈ reloadTurns r handle req s) : t.2 ∈ (classify s.current new).sections := by
  rcases handle with _ | sections
  · simp only [reloadTurns, hload] at ht
    cases ht
  · simp only [reloadTurns, hload] at ht
    split at ht
    · exact mem_turns ht
    · cases ht

end Config

end Pg2osync
