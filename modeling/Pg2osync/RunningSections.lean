import Pg2osync.IndexClaims
import Pg2osync.RefusedSettings
import Pg2osync.ReloadCompleteness
import Pg2osync.Workspace

/-!
# The sections that run after reloads

Startup refuses files whose sections would write over each other. A reload validates the
new file alone, and then runs a mixture: the sections of the file that were taken, and
those that stay as they were because their change was refused or failed, beside what the
other files run. Nothing looks at the mixture again.

Every file has a reload task of its own, and one signal wakes them all, so their edits
come in any order (`WorkspaceReached`). The sections are valid in every run in which
those that enter agree with the others (`reached_valid`). What leaves needs no
condition: where a parent of a join would leave its children, the rules cannot be built
and the edit fails.
-/

namespace Pg2osync

namespace Config

/-! ## What the rules show of the sections -/

/-- A join that names a parent has a column that holds it. -/
def Grounded (tbl : TableSync) : Prop :=
  ∀ join, tbl.join = some join → join.parent.isSome → (join.parentColumn tbl.fanOut).isSome

theorem refuse_ok {when_ : Bool} {message : String} (h : refuse when_ message = .ok ()) :
    when_ = false := by
  rw [refuse] at h
  split at h
  · cases h
  · next hwhen => simpa using hwhen

variable {tbl : TableSync} {key : String}

theorem grounded_of_checkJoin {target : TargetConfig}
    (h : checkSome tbl.join (checkJoin target key tbl) = .ok ()) : Grounded tbl := by
  intro join hjoin hparent
  rw [hjoin, checkSome, checkJoin] at h
  obtain ⟨⟨⟩, -, h⟩ := Except.bind_eq_ok h
  obtain ⟨⟨⟩, -, h⟩ := Except.bind_eq_ok h
  obtain ⟨⟨⟩, -, h⟩ := Except.bind_eq_ok h
  obtain ⟨⟨⟩, helement, -⟩ := Except.bind_eq_ok h
  have helement := refuse_ok helement
  obtain ⟨column, hcolumn⟩ := Option.isSome_iff_exists.mp hparent
  rw [JoinSpec.parentColumn, hcolumn, Option.bind_some]
  split
  · next heq =>
    have hjoinElement : join.isElementParent = true := by
      rw [JoinSpec.isElementParent, hcolumn, heq]
      exact decide_eq_true rfl
    rw [hjoinElement, Bool.true_and, Option.isNone_eq_false_iff] at helement
    rwa [Option.isSome_map]
  · rfl

variable {logFilter : String → Except String Unit}

theorem grounded_of_validate {cfg : AppConfig} (h : validate logFilter cfg = .ok ())
    (hget : cfg.sync.get? key = some tbl) : Grounded tbl := by
  rw [validate] at h
  obtain ⟨⟨⟩, -, h⟩ := Except.bind_eq_ok h
  obtain ⟨⟨⟩, -, h⟩ := Except.bind_eq_ok h
  obtain ⟨⟨⟩, -, h⟩ := Except.bind_eq_ok h
  obtain ⟨⟨⟩, -, h⟩ := Except.bind_eq_ok h
  obtain ⟨⟨⟩, hsections, h⟩ := Except.bind_eq_ok h
  have hsection := checkEach_ok.mp hsections (key, tbl) (Dictionary.mem_entries_iff.mpr hget)
  rw [checkSection] at hsection
  obtain ⟨⟨⟩, -, hsection⟩ := Except.bind_eq_ok hsection
  split at hsection
  · cases hsection
  next target htarget =>
  rcases target with name | ⟨spec, template⟩
  all_goals
    obtain ⟨⟨⟩, -, hsection⟩ := Except.bind_eq_ok hsection
    obtain ⟨⟨⟩, hcheck, -⟩ := Except.bind_eq_ok hsection
    exact grounded_of_checkJoin hcheck

section

variable {interpret : TransformOp → Except String (Json → Applied)} {contentId : Json → String}
  {cfg : AppConfig} {set : RuleSet}

/-- Where the rules can be built, every section has a target. -/
theorem targets_of_ruleSet (h : ruleSet interpret contentId cfg = .ok set)
    (hget : cfg.sync.get? key = some tbl) : ∃ target, tbl.indexTarget key [] = .ok target := by
  rw [ruleSet] at h
  obtain ⟨mapping, hmapping, -⟩ := Except.bind_eq_ok h
  rw [tableMapping] at hmapping
  obtain ⟨targets, htargets, -⟩ := Except.map_eq_ok hmapping
  obtain ⟨pair, -, hpair⟩ :=
    exists_of_mapM htargets (Dictionary.mem_entries_iff.mpr hget)
  obtain ⟨target, htarget, -⟩ := Except.map_eq_ok hpair
  obtain ⟨base, hbase, -⟩ := indexTarget_pk (orBail_ok htarget)
  exact ⟨base, hbase⟩

theorem parentOf_some {sync : Dictionary String TableSync} {index parentKey : String}
    {parent : TableSync} {join : JoinSpec}
    (h : parentOf sync index = some (parentKey, parent, join)) :
    sync.get? parentKey = some parent ∧ parent.indexName parentKey = index ∧
      parent.join = some join ∧ join.parent = none := by
  rw [parentOf] at h
  obtain ⟨⟨key, tbl⟩, hmem, hfound⟩ := List.exists_of_findSome?_eq_some h
  have hget := Dictionary.mem_entries_iff.mp hmem
  simp only at hfound
  split at hfound
  · next other hjoin =>
    rw [Option.ite_none_right_eq_some] at hfound
    obtain ⟨⟨hname, hnone⟩, heq⟩ := hfound
    cases heq
    exact ⟨hget, hname, hjoin, hnone⟩
  · cases hfound

/-- Where the rules can be built, every child of a join has its parent. -/
theorem ownParents_of_ruleSet (h : ruleSet interpret contentId cfg = .ok set)
    (hgrounded : ∀ key tbl, cfg.sync.get? key = some tbl → Grounded tbl) :
    OwnParents cfg.sync := by
  intro key s hget join column hjoin hparent
  rw [ruleSet] at h
  obtain ⟨_, -, h⟩ := Except.bind_eq_ok h
  obtain ⟨_, -, h⟩ := Except.bind_eq_ok h
  obtain ⟨_, -, h⟩ := Except.bind_eq_ok h
  obtain ⟨_, -, h⟩ := Except.bind_eq_ok h
  obtain ⟨_, -, h⟩ := Except.bind_eq_ok h
  obtain ⟨_, -, h⟩ := Except.bind_eq_ok h
  obtain ⟨_, -, h⟩ := Except.bind_eq_ok h
  obtain ⟨_, -, h⟩ := Except.bind_eq_ok h
  obtain ⟨joins, hjoins, -⟩ := Except.bind_eq_ok h
  rw [collect] at hjoins
  obtain ⟨rules, hrules, -⟩ := Except.map_eq_ok hjoins
  obtain ⟨rule, -, hrule⟩ := exists_of_mapM hrules (Dictionary.mem_entries_iff.mpr hget)
  obtain ⟨value, hvalue, -⟩ := Except.map_eq_ok hrule
  have hcolumn := hgrounded key s hget join hjoin (by rw [hparent]; rfl)
  obtain ⟨field, hfield⟩ := Option.isSome_iff_exists.mp hcolumn
  simp only [joinRule, hjoin, hfield] at hvalue
  split at hvalue
  · cases hvalue
  · next parentKey parent parentJoin hfound =>
    obtain ⟨hp, hname, hpjoin, hnone⟩ := parentOf_some hfound
    exact ⟨parentKey, parent, hp, hname, parentJoin, hpjoin, hnone⟩

end

/-! ## The reload tasks -/

/-- A file that is being applied. -/
structure Applying : Type where
  new : AppConfig
  answers : SectionEdit → Answers
  /-- the edits still to make -/
  edits : List SectionEdit
  /-- the settings the plan swapped -/
  hot : Hot

/-- The reload task of one file. -/
structure Task : Type where
  s : Running
  /-- none between reloads -/
  applying : Option Applying

/-- A request wakes the task: the file is read, and its settings are swapped. -/
def Task.wake (handle : Option Sections) (req : Request) (t : Task) : Task :=
  match req.loaded with
  | .error _ => t
  | .ok new =>
    let plan := classify t.s.current new
    let (s, swapped) := swapHot req new t.s
    if swapped then
      ⟨s, some ⟨new, req.answers, if handle.isSome then plan.sections else [], plan.hot⟩⟩
    else ⟨s, none⟩

/-- The next edit, or the end of the reload after the last one. -/
def Task.turn (r : Rendering) (handle : Option Sections) (t : Task) : Task :=
  match t.applying with
  | none => t
  | some a =>
    match a.edits, handle with
    | edit :: edits, some handle =>
      ⟨(applyEdit r handle a.answers a.new t.s edit).1, some { a with edits }⟩
    | _, _ => ⟨{ t.s with current := a.hot.advance t.s.current }, none⟩

theorem turn_edits (r : Rendering) (handle : Sections) (s : Running) (a : Applying) :
    (Task.turn r (some handle))^[a.edits.length + 1] ⟨s, some a⟩ =
      ⟨{ applySections r handle a.answers a.new a.edits s with
          current := a.hot.advance (applySections r handle a.answers a.new a.edits s).current },
        none⟩ := by
  obtain ⟨new, answers, edits, hot⟩ := a
  induction edits generalizing s with
  | nil => rfl
  | cons edit edits ih =>
    rw [Function.iterate_succ_apply]
    exact ih (applyEdit r handle answers new s edit).1

/-- A task left alone makes the reload. -/
theorem turns_reload (r : Rendering) (handle : Option Sections) (req : Request) (s : Running) :
    ∃ n, (Task.turn r handle)^[n] (Task.wake handle req ⟨s, none⟩) =
      ⟨reload r handle req s, none⟩ := by
  rw [Task.wake, reload]
  rcases req.loaded with e | new
  · exact ⟨0, rfl⟩
  rcases hswap : swapHot req new s with ⟨s', swapped⟩
  rcases swapped with _ | _
  · exact ⟨0, by simp only [hswap]; rfl⟩
  · rcases handle with _ | handle
    · exact ⟨1, by simp only [hswap]; rfl⟩
    · exact ⟨_, by simp only [hswap]; exact turn_edits r handle s' _⟩

/-- The sections that run, by file. -/
def syncs (run : String → Task) (file : String) : Dictionary String TableSync :=
  (run file).s.live.cfg.sync

/-- An edit that comes next fails before it is adopted, or the sections that enter with
it agree with those that run. -/
def NextEnters (r : Rendering) (handle : Option Sections) (files : List String)
    (run : String → Task) (file : String) : Prop :=
  ∀ a edit edits sections, (run file).applying = some a → a.edits = edit :: edits →
    handle = some sections →
    (∃ e, sections.before edit (handedOver a.new (run file).s edit) (a.answers edit)
      (run file).s.live.tables = .error e) ∨
    (∃ e, ruleSet r.interpret r.contentId (handedOver a.new (run file).s edit) = .error e) ∨
    Enters files (syncs run) file (handedOver a.new (run file).s edit).sync

/-- What the tasks of several files reach, in any order of their turns, where each turn
is `allowed`. A file is read only if it is valid by itself. -/
inductive WorkspaceReached (r : Rendering) (logFilter : String → Except String Unit)
    (files : List String) (handle : String → Option Sections)
    (allowed : (String → Task) → String → Prop) (start : String → Task) :
    (String → Task) → Prop where
  | start : WorkspaceReached r logFilter files handle allowed start start
  | wake {run : String → Task} {file : String} {req : Request}
      (hrun : WorkspaceReached r logFilter files handle allowed start run) (hfile : file ∈ files)
      (hidle : (run file).applying = none)
      (hvalid : ∀ new, req.loaded = .ok new → validate logFilter new = .ok ()) :
      WorkspaceReached r logFilter files handle allowed start
        (Function.update run file ((run file).wake (handle file) req))
  | turn {run : String → Task} {file : String}
      (hrun : WorkspaceReached r logFilter files handle allowed start run) (hfile : file ∈ files)
      (hturn : allowed run file) :
      WorkspaceReached r logFilter files handle allowed start
        (Function.update run file ((run file).turn r (handle file)))

/-- What startup accepts of the files of a directory. -/
structure Accepted (logFilter : String → Except String Unit) (alphanumeric : Char → Bool)
    (names : String → String) (files : List String) (started : String → AppConfig) : Prop where
  each : ∀ file ∈ files, validate logFilter (started file) = .ok ()
  across : validateAcross alphanumeric (files.map fun file => ⟨names file, file, started file⟩) =
    .ok ()

/-! ## What every task keeps -/

/-- Every section of a configuration is grounded. -/
def AllGrounded (sync : Dictionary String TableSync) : Prop :=
  ∀ key tbl, sync.get? key = some tbl → Grounded tbl

/-- The rules of a task are those of its sections, all of them from valid files. -/
structure Task.Sound (r : Rendering) (t : Task) : Prop where
  rules : ruleSet r.interpret r.contentId t.s.live.cfg = .ok t.s.live.rules
  live : AllGrounded t.s.live.cfg.sync
  current : AllGrounded t.s.current.sync
  new : ∀ a, t.applying = some a → AllGrounded a.new.sync

theorem allGrounded_edit {new : AppConfig} {sync : Dictionary String TableSync}
    (hnew : AllGrounded new.sync) (hsync : AllGrounded sync) (edit : SectionEdit) :
    AllGrounded (edit.edit new sync) := by
  intro key tbl hget
  by_cases hkey : edit.key = key
  · cases edit with
    | add key' =>
      obtain rfl : key' = key := hkey
      rw [SectionEdit.edit] at hget
      rcases hadd : new.sync.get? key' with _ | added
      · simp only [hadd] at hget
        exact hsync key' tbl hget
      · simp only [hadd, Dictionary.get?_insert, if_true] at hget
        exact hnew key' tbl (hadd.trans hget)
    | remove key' table index =>
      obtain rfl : key' = key := hkey
      simp only [SectionEdit.edit, Dictionary.get?_erase, if_true] at hget
      cases hget
  · rw [get?_edit_of_ne hkey] at hget
    exact hsync key tbl hget

/-- An edit is not adopted, and then what runs keeps its configuration; or its rules can
be built, and then the handed-over file runs, whether or not the edit takes. -/
theorem applyEdit_cases (r : Rendering) (sections : Sections) (answers : SectionEdit → Answers)
    (new : AppConfig) (s : Running) (edit : SectionEdit) :
    (((∃ e, sections.before edit (handedOver new s edit) (answers edit) s.live.tables =
          .error e) ∨ ∃ e, ruleSet r.interpret r.contentId (handedOver new s edit) = .error e) ∧
      ∃ tables, (applyEdit r sections answers new s edit).1 =
        { s with live := { s.live with tables } }) ∨
    ∃ rules tables, sections.before edit (handedOver new s edit) (answers edit) s.live.tables =
        .ok tables ∧
      ruleSet r.interpret r.contentId (handedOver new s edit) = .ok rules ∧
      (applyEdit r sections answers new s edit).1.live.cfg = handedOver new s edit ∧
      (applyEdit r sections answers new s edit).1.live.rules = rules ∧
      ((applyEdit r sections answers new s edit).1.current.sync = s.current.sync ∨
        (applyEdit r sections answers new s edit).1.current.sync =
          (handedOver new s edit).sync) := by
  rcases hbefore : sections.before edit (handedOver new s edit) (answers edit) s.live.tables with
    e | tables
  · rw [applyEdit_before hbefore]
    exact .inl ⟨.inl ⟨e, rfl⟩, s.live.tables, rfl⟩
  rcases hrules : ruleSet r.interpret r.contentId (handedOver new s edit) with e | rules
  · rw [applyEdit_adopt hbefore hrules]
    exact .inl ⟨.inr ⟨e, rfl⟩, tables, rfl⟩
  obtain ⟨indices, hindices⟩ := indexNames_of_ruleSet hrules
  rw [applyEdit_adopted hbefore hrules hindices]
  refine .inr ⟨rules, tables, rfl, rfl, ?_⟩
  rcases sections.after edit (answers edit) with e | ⟨⟩
  · exact ⟨rfl, rfl, .inl rfl⟩
  · exact ⟨rfl, rfl, .inr rfl⟩

variable {r : Rendering} {t : Task}

theorem sound_launch {started : AppConfig} {tables : TableSet}
    (hstart : launch r started tables = .ok t.s) (hidle : t.applying = none)
    (hvalid : validate logFilter started = .ok ()) : t.Sound r ∧ t.s.live.cfg = started := by
  have hgrounded : AllGrounded started.sync := fun _ _ => grounded_of_validate hvalid
  rw [launch] at hstart
  obtain ⟨rules, hrules, hstart⟩ := Except.bind_eq_ok hstart
  obtain ⟨indices, -, hstart⟩ := Except.bind_eq_ok hstart
  have hs : t.s = ⟨started, ⟨started, rules, tables, indices⟩, Hot.of started, []⟩ :=
    (Except.ok.inj hstart).symm
  refine ⟨⟨?_, ?_, ?_, fun a ha => ?_⟩, ?_⟩
  · rw [hs]
    exact hrules
  · rw [hs]
    exact hgrounded
  · rw [hs]
    exact hgrounded
  · rw [hidle] at ha
    cases ha
  · rw [hs]

/-- A task that wakes runs what it ran. -/
theorem Task.Sound.wake (h : t.Sound r) {req : Request} (handle : Option Sections)
    (hvalid : ∀ new, req.loaded = .ok new → validate logFilter new = .ok ()) :
    (t.wake handle req).Sound r ∧ (t.wake handle req).s.live = t.s.live := by
  rw [Task.wake]
  rcases hload : req.loaded with e | new
  · exact ⟨h, rfl⟩
  obtain ⟨hot, hhot⟩ := swapHot_eq req new t.s
  rcases hswap : swapHot req new t.s with ⟨s, swapped⟩
  obtain rfl : s = { t.s with hot } := by rw [← hhot, hswap]
  simp only [hswap]
  split
  · refine ⟨⟨h.rules, h.live, h.current, fun a ha => ?_⟩, rfl⟩
    obtain rfl := Option.some.inj ha
    exact fun _ _ => grounded_of_validate (hvalid new hload)
  · exact ⟨⟨h.rules, h.live, h.current, fun a ha => (by cases ha)⟩, rfl⟩

/-- A turn leaves what runs as it is, or an edit is adopted whose rules can be built. -/
theorem Task.Sound.turn (h : t.Sound r) (handle : Option Sections) :
    (t.turn r handle).Sound r ∧
    ((t.turn r handle).s.live.cfg = t.s.live.cfg ∨
      ∃ a edit edits sections, t.applying = some a ∧ a.edits = edit :: edits ∧
        handle = some sections ∧
        (∃ tables, sections.before edit (handedOver a.new t.s edit) (a.answers edit)
          t.s.live.tables = .ok tables) ∧
        (∃ rules, ruleSet r.interpret r.contentId (handedOver a.new t.s edit) = .ok rules) ∧
        (t.turn r handle).s.live.cfg = handedOver a.new t.s edit) := by
  rw [Task.turn]
  split
  · exact ⟨h, .inl rfl⟩
  next a happlying =>
  have hnew := h.new a happlying
  split
  · next edit edits sections hedits =>
    have hedited := allGrounded_edit hnew h.current edit
    rcases applyEdit_cases r sections a.answers a.new t.s edit with
      ⟨-, tables, hkept⟩ | ⟨rules, tables, hbefore, hrules, hcfg, hset, hcurrent⟩
    · rw [hkept]
      refine ⟨⟨h.rules, h.live, h.current, fun b hb => ?_⟩, .inl rfl⟩
      obtain rfl := Option.some.inj hb
      exact hnew
    · refine ⟨⟨?_, ?_, ?_, fun b hb => ?_⟩, .inr ⟨a, edit, edits, sections, happlying, hedits, rfl,
        ⟨tables, hbefore⟩, ⟨rules, hrules⟩, hcfg⟩⟩
      · rw [hcfg, hset]
        exact hrules
      · rw [hcfg]
        exact hedited
      · rcases hcurrent with hcurrent | hcurrent
        · rw [hcurrent]
          exact h.current
        · rw [hcurrent]
          exact hedited
      · obtain rfl := Option.some.inj hb
        exact hnew
  · exact ⟨⟨h.rules, h.live, h.current, fun b hb => (by cases hb)⟩, .inl rfl⟩

/-! ## What the sections of a run are -/

theorem validate_junctions {cfg : AppConfig} (h : validate logFilter cfg = .ok ()) :
    checkJunctions [] (allChildren cfg.sync) = .ok () := by
  rw [validate] at h
  obtain ⟨⟨⟩, -, h⟩ := Except.bind_eq_ok h
  obtain ⟨⟨⟩, -, h⟩ := Except.bind_eq_ok h
  obtain ⟨⟨⟩, -, h⟩ := Except.bind_eq_ok h
  obtain ⟨⟨⟩, -, h⟩ := Except.bind_eq_ok h
  obtain ⟨⟨⟩, -, h⟩ := Except.bind_eq_ok h
  obtain ⟨⟨⟩, hjunctions, -⟩ := Except.bind_eq_ok h
  exact hjunctions

theorem validateAcross_overlap {alphanumeric : Char → Bool} {sources : List SourceFile}
    (h : validateAcross alphanumeric sources = .ok ()) :
    checkIndexOverlap (sources.flatMap fun source =>
      source.cfg.sync.entries.map fun e => (.inFile source.file e.1, e.2)) = .ok () := by
  rw [validateAcross] at h
  split at h
  · cases h
  simp only at h
  split at h
  · cases h
  · exact h

theorem syncs_update (run : String → Task) (file : String) (t : Task) :
    syncs (Function.update run file t) =
      Function.update (syncs run) file t.s.live.cfg.sync := by
  funext other
  rw [syncs, Function.update_apply, Function.update_apply]
  split
  · rfl
  · rfl

/-- In every run whose entering sections agree with those that run, the sections of all
the files are valid at every moment. -/
theorem reached_valid {logFilter : String → Except String Unit} {alphanumeric : Char → Bool}
    {names : String → String} {files : List String} {started : String → AppConfig}
    {tables : String → TableSet} {start run : String → Task} (hfiles : files.Nodup)
    (haccepted : Accepted logFilter alphanumeric names files started)
    (htables : ∀ file ∈ files, OwnTables (started file).sync)
    (hlaunch : ∀ file ∈ files, launch r (started file) (tables file) = .ok (start file).s ∧
      (start file).applying = none)
    (hrun : WorkspaceReached r logFilter files (fun file => sections (started file))
      (fun run file => NextEnters r (sections (started file)) files run file) start run) :
    Valid files (syncs run) := by
  have hsound : (∀ file ∈ files, (run file).Sound r) ∧ Valid files (syncs run) := by
    induction hrun with
    | start =>
      have hstart : ∀ file ∈ files, (start file).Sound r ∧
          (start file).s.live.cfg = started file := fun file hfile =>
        sound_launch (hlaunch file hfile).1 (hlaunch file hfile).2 (haccepted.each file hfile)
      have hsync : ∀ file ∈ files, syncs start file = (started file).sync := fun file hfile => by
        rw [syncs, (hstart file hfile).2]
      refine ⟨fun file hfile => (hstart file hfile).1, ?_, ?_, ?_⟩
      · have hsections : sectionsOf files (syncs start) =
            (files.map fun file => SourceFile.mk (names file) file (started file)).flatMap
              fun source => source.cfg.sync.entries.map fun e =>
                (.inFile source.file e.1, e.2) := by
          rw [sectionsOf, List.flatMap_map]
          exact List.flatMap_congr fun file hfile => by rw [hsync file hfile]
        rw [hsections]
        exact validateAcross_overlap haccepted.across
      · intro file hfile
        rw [hsync file hfile]
        exact validate_junctions (haccepted.each file hfile)
      · intro file hfile
        rw [hsync file hfile]
        exact htables file hfile
    | @wake run file req _ hfile _ hvalid ih =>
      obtain ⟨hsound, hlive⟩ := (ih.1 file hfile).wake (sections (started file)) hvalid
      refine ⟨fun other hother => ?_, ?_⟩
      · by_cases heq : other = file
        · rw [heq, Function.update_self]
          exact hsound
        · rw [Function.update_of_ne heq]
          exact ih.1 other hother
      · rw [syncs_update, hlive]
        exact (Function.update_eq_self file (syncs run)).symm ▸ ih.2
    | @turn run file _ hfile hturn ih =>
      obtain ⟨hsound, hcases⟩ := (ih.1 file hfile).turn (sections (started file))
      refine ⟨fun other hother => ?_, ?_⟩
      · by_cases heq : other = file
        · rw [heq, Function.update_self]
          exact hsound
        · rw [Function.update_of_ne heq]
          exact ih.1 other hother
      · rw [syncs_update]
        rcases hcases with hkept | ⟨a, edit, edits, handle, happlying, hedits, hhandle,
          ⟨tables, hbefore⟩, ⟨rules, hrules⟩, hcfg⟩
        · rw [hkept]
          exact (Function.update_eq_self file (syncs run)).symm ▸ ih.2
        · have hgrounded : AllGrounded (handedOver a.new (run file).s edit).sync :=
            hcfg ▸ hsound.live
          have henters : Enters files (syncs run) file
              (handedOver a.new (run file).s edit).sync := by
            rcases hturn a edit edits handle happlying hedits hhandle with ⟨e, he⟩ | ⟨e, he⟩ | h
            · rw [hbefore] at he
              cases he
            · rw [hrules] at he
              cases he
            · exact h
          rw [hcfg]
          refine (valid_update hfiles ih.2 (fun other hother => ?_) hfile
            (ownParents_of_ruleSet hrules hgrounded)
            fun key tbl => targets_of_ruleSet hrules).mpr henters
          exact ownParents_of_ruleSet (ih.1 other hother).rules (ih.1 other hother).live
  exact hsound.2

/-! ### Sections kept beside sections added -/

/-- A file of sections, each of the table it is named after, with their indices. -/
def indexing (slot : String) (indices : List (String × String)) : AppConfig where
  source := { slotName := slot }
  target := { url := "http://localhost:9200" }
  sync := Dictionary.ofList (indices.map fun s =>
    (s.1, { table := "public." ++ s.1, index := some s.2 }))

theorem valid_singleton {file : String} {sync : String → Dictionary String TableSync} :
    Valid [file] sync ↔ checkIndexOverlap (sectionsOf [file] sync) = .ok () ∧
      checkJunctions [] (allChildren (sync file)) = .ok () ∧ OwnTables (sync file) := by
  constructor
  · intro h
    have hfile := List.mem_singleton_self file
    exact ⟨h.overlap, h.junctions file hfile, h.tables file hfile⟩
  · rintro ⟨hoverlap, hjunctions, htables⟩
    refine ⟨hoverlap, fun other hother => ?_, fun other hother => ?_⟩
    · rw [List.mem_singleton.mp hother]
      exact hjunctions
    · rw [List.mem_singleton.mp hother]
      exact htables

/-- The one file of a directory is read, and its first edit is made. -/
def oneEdit (started new : AppConfig) (start : String → Task) : String → Task :=
  let woken := Function.update start "a.toml"
    ((start "a.toml").wake (sections started) (rereads new))
  Function.update woken "a.toml" ((woken "a.toml").turn plain (sections started))

theorem oneEdit_valid : ∃ start,
    launch plain (indexing "a" [("users", "people")]) noTables = .ok start ∧
    Valid ["a.toml"] (syncs (oneEdit (indexing "a" [("users", "people")])
      (indexing "a" [("orders", "orders"), ("users", "people")]) fun _ => ⟨start, none⟩)) := by
  refine ⟨_, rfl, ?_⟩
  have hnew : validate (fun _ => .ok ())
      (indexing "a" [("orders", "orders"), ("users", "people")]) = .ok () := by
    decide +kernel
  have haccepted : Accepted (fun _ => .ok ()) Char.isAlphanum id ["a.toml"]
      fun _ => indexing "a" [("users", "people")] := by
    refine ⟨fun _ _ => by decide +kernel, by decide +kernel⟩
  refine reached_valid (List.nodup_singleton _) haccepted (fun _ _ => by decide +kernel)
    (fun _ _ => ⟨rfl, rfl⟩) (.turn (.wake .start (List.mem_singleton_self _) rfl ?_)
      (List.mem_singleton_self _) ?_)
  · intro new hnew'
    cases hnew'
    exact hnew
  · intro a edit edits handle ha hedits _
    obtain rfl := Option.some.inj ha
    have hedit : some (.add "orders") = some edit := by
      rw [← List.head?_cons (a := edit) (l := edits), ← hedits]
      decide +kernel
    obtain rfl := Option.some.inj hedit
    obtain ⟨before, hbefore⟩ : ∃ set, ruleSet plain.interpret plain.contentId
        (indexing "a" [("users", "people")]) = .ok set := ⟨_, rfl⟩
    obtain ⟨after, hafter⟩ : ∃ set, ruleSet plain.interpret plain.contentId
        (indexing "a" [("orders", "orders"), ("users", "people")]) = .ok set := ⟨_, rfl⟩
    refine .inr (.inr ((valid_update (List.nodup_singleton _) ?_ ?_ (List.mem_singleton_self _)
      (ownParents_of_ruleSet hafter fun _ _ => grounded_of_validate hnew)
      fun _ _ => targets_of_ruleSet hafter).mp ?_))
    · exact valid_singleton.mpr ⟨by decide +kernel, by decide +kernel, by decide +kernel⟩
    · intro file hfile
      obtain rfl := List.mem_singleton.mp hfile
      exact ownParents_of_ruleSet hbefore fun _ _ =>
        grounded_of_validate (haccepted.each "a.toml" (List.mem_singleton_self _))
    · exact valid_singleton.mpr ⟨by decide +kernel, by decide +kernel, by decide +kernel⟩

/-- A section keeps its index because the change was refused, and the one that takes the
index in the file is added beside it. -/
theorem oneEdit_overlap : validate (fun _ => .ok ())
      (indexing "a" [("orders", "people"), ("users", "users")]) = .ok () ∧
    ∃ start, launch plain (indexing "a" [("users", "people")]) noTables = .ok start ∧
      let run := oneEdit (indexing "a" [("users", "people")])
        (indexing "a" [("orders", "people"), ("users", "users")]) fun _ => ⟨start, none⟩
      WorkspaceReached plain (fun _ => .ok ()) ["a.toml"]
        (fun _ => sections (indexing "a" [("users", "people")])) (fun _ _ => True)
        (fun _ => ⟨start, none⟩) run ∧
      checkIndexOverlap (sectionsOf ["a.toml"] (syncs run)) ≠ .ok () := by
  have hnew : validate (fun _ => .ok ())
      (indexing "a" [("orders", "people"), ("users", "users")]) = .ok () := by
    decide +kernel
  refine ⟨hnew, _, rfl, ?_, by decide +kernel⟩
  refine .turn (.wake .start (List.mem_singleton_self _) rfl fun new hnew' => ?_)
    (List.mem_singleton_self _) trivial
  cases hnew'
  exact hnew

end Config

end Pg2osync
