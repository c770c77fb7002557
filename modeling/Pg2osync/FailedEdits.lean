import Pg2osync.RefusedSettings
import Pg2osync.ReloadCompleteness

/-!
# What a failed edit leaves behind

A section that could not join or leave is refused, and the next reload is to find the
pipeline as it was. The steps before its table is admitted touch nothing that another
step reads. The admission itself, the rules, the indices and the configuration are not
taken back when a later step fails, and the reload task, which is not told of them,
goes on as if nothing had happened.

In every run whose edits fail early or not at all, the five places describe the same
sections throughout, a failed edit changes none of them, and the next reload of the
file tries it again (`reached_inStep`).
-/

namespace Pg2osync

namespace Config

/-! ## What a run should be in step with -/

/-- What an edit makes of the admitted tables. -/
def SectionEdit.admits (new : AppConfig) (tables : List TableName) : SectionEdit → List TableName
  | .add key => match new.sync.get? key with
    | some tbl =>
      if tables.contains (splitQualified tbl.table) then tables
      else tables ++ [splitQualified tbl.table]
    | none => tables
  | .remove _ table _ => tables.filter fun other => other ≠ splitQualified table

/-- The tables a process started with, and the edits that took since. -/
def tablesTaken (tables : List TableName) (taken : List (AppConfig × SectionEdit)) :
    List TableName :=
  taken.foldl (fun tables t => t.2.admits t.1 tables) tables

/-- All that a pipeline runs by describes the same sections: those it started with, and
the edits that took since. -/
structure InStep (r : Rendering) (started : AppConfig) (tables : TableSet) (s : Running) :
    Prop where
  current : s.current.sync = sectionsTaken started s.taken
  cfg : s.live.cfg.sync = sectionsTaken started s.taken
  rules : ruleSet r.interpret r.contentId s.live.cfg = .ok s.live.rules
  indices : indexNames s.live.cfg.sync = .ok s.live.indices
  admitted : s.live.tables.tables = tablesTaken tables.tables s.taken

/-- An edit that fails does so before its table is admitted or dropped; or else where
the rules cannot be built, and then the admitted tables are what they were. -/
def FailsEarly (r : Rendering) (sections : Sections) (answers : SectionEdit → Answers)
    (new : AppConfig) (s : Running) (edit : SectionEdit) : Prop :=
  match sections.before edit (handedOver new s edit) (answers edit) s.live.tables with
  | .error _ => True
  | .ok tables =>
    match ruleSet r.interpret r.contentId (handedOver new s edit) with
    | .error _ => tables = s.live.tables
    | .ok _ => sections.after edit (answers edit) = .ok ()

/-- Every edit of a reload takes, or fails early. -/
def AllFailEarly (r : Rendering) (handle : Option Sections) (req : Request) (s : Running) :
    Prop :=
  ∀ new sections, req.loaded = .ok new → handle = some sections →
    ∀ t ∈ reloadTurns r handle req s, FailsEarly r sections req.answers new t.1 t.2

/-- What both sources admit. -/
def Sections.Faithful (sections : Sections) : Prop :=
  ∀ edit file a set set', sections.before edit file a set = .ok set' →
    set'.tables = edit.admits file set.tables

theorem get?_onlySection (file : AppConfig) (key : String) :
    (onlySection file key).sync.get? key = file.sync.get? key := by
  rw [onlySection, Dictionary.get?_retain]
  exact if_pos (decide_eq_true rfl)

variable {key : String}

theorem admission_ok {before : Answers → String → AppConfig → Except String (List String)}
    {a : Answers} {file : AppConfig} {set set' : TableSet}
    (h : admission before a key file set = .ok set') :
    set'.tables = (SectionEdit.add key).admits file set.tables := by
  rw [admission, get?_onlySection] at h
  rw [SectionEdit.admits]
  split at h
  · cases h
  · next tbl htbl =>
    obtain ⟨keyColumns, -, rfl⟩ := Except.map_eq_ok h
    simp only [htbl]
    rfl

theorem sections_faithful {started : AppConfig} {handle : Sections}
    (h : sections started = some handle) : handle.Faithful := by
  intro edit file a set set' hbefore
  rw [sections] at h
  split at h
  · obtain rfl := Option.some.inj h
    cases edit with
    | add key => exact admission_ok hbefore
    | remove key table index =>
      obtain rfl := Except.ok.inj hbefore
      rfl
  · split at h
    · cases h
    · obtain rfl := Option.some.inj h
      cases edit with
      | add key => exact admission_ok hbefore
      | remove key table index =>
        obtain rfl := Except.ok.inj hbefore
        rfl

/-! ## One turn -/

variable {r : Rendering} {started : AppConfig} {tables : TableSet} {sections : Sections}
  {answers : SectionEdit → Answers} {new : AppConfig} {s : Running} {edit : SectionEdit}

/-- A failed edit leaves the pipeline as it was. -/
theorem applyEdit_of_failed (hearly : FailsEarly r sections answers new s edit)
    {refusal : Refusal} (hfail : (applyEdit r sections answers new s edit).2 = some refusal) :
    (applyEdit r sections answers new s edit).1 = s := by
  rw [FailsEarly] at hearly
  rcases hbefore : sections.before edit (handedOver new s edit) (answers edit) s.live.tables with
    e | set
  · rw [applyEdit_before hbefore]
  simp only [hbefore] at hearly
  rcases hrules : ruleSet r.interpret r.contentId (handedOver new s edit) with e | rules
  · simp only [hrules] at hearly
    rw [applyEdit_adopt hbefore hrules, hearly]
  · simp only [hrules] at hearly
    obtain ⟨indices, hindices⟩ := indexNames_of_ruleSet hrules
    rw [applyEdit_adopted hbefore hrules hindices, hearly] at hfail
    cases hfail

/-- The handed-over file admits what the file does. -/
theorem admits_handedOver (hnew : ∀ key, edit = .add key → ∃ tbl, new.sync.get? key = some tbl)
    (names : List TableName) :
    edit.admits (handedOver new s edit) names = edit.admits new names := by
  cases edit with
  | remove key table index => rfl
  | add key =>
    obtain ⟨tbl, htbl⟩ := hnew key rfl
    simp only [SectionEdit.admits, handedOver, SectionEdit.edit, htbl, Dictionary.get?_insert,
      if_true]

theorem InStep.applyEdit (h : InStep r started tables s) (hfaithful : sections.Faithful)
    (hearly : FailsEarly r sections answers new s edit)
    (hnew : ∀ key, edit = .add key → ∃ tbl, new.sync.get? key = some tbl) :
    InStep r started tables (Config.applyEdit r sections answers new s edit).1 := by
  rcases hfail : (Config.applyEdit r sections answers new s edit).2 with _ | refusal
  · rw [FailsEarly] at hearly
    rcases hbefore : sections.before edit (handedOver new s edit) (answers edit)
      s.live.tables with e | set
    · rw [applyEdit_before hbefore] at hfail
      cases hfail
    rcases hrules : ruleSet r.interpret r.contentId (handedOver new s edit) with e | rules
    · rw [applyEdit_adopt hbefore hrules] at hfail
      cases hfail
    simp only [hbefore, hrules] at hearly
    obtain ⟨indices, hindices⟩ := indexNames_of_ruleSet hrules
    rw [applyEdit_adopted hbefore hrules hindices, hearly]
    have hsync : (handedOver new s edit).sync =
        sectionsTaken started (s.taken ++ [(new, edit)]) := by
      rw [sectionsTaken_append, ← h.current]
      rfl
    refine ⟨hsync, hsync, hrules, hindices, ?_⟩
    change set.tables = tablesTaken tables.tables (s.taken ++ [(new, edit)])
    rw [hfaithful _ _ _ _ _ hbefore, admits_handedOver hnew, h.admitted, tablesTaken, tablesTaken,
      List.foldl_append]
    rfl
  · rw [applyEdit_of_failed hearly hfail]
    exact h

/-! ## The next reload -/

/-- A plan edits each section once. -/
theorem nodup_sections (old new : AppConfig) :
    ((classify old new).sections.map SectionEdit.key).Nodup := by
  have hremoved : ((if new.source.mode = "poll" then [] else (leaving old new).map fun e =>
      SectionEdit.remove e.1 e.2.table (e.2.indexName e.1)).map SectionEdit.key).Nodup := by
    split
    · exact List.nodup_nil
    · rw [List.map_map]
      exact (Dictionary.nodup_keys old.sync).sublist (List.filter_sublist.map Prod.fst)
  have hadded : ∀ entries : List (String × TableSync), (entries.map Prod.fst).Nodup →
      ((entries.flatMap fun e => (arrival old new e).2).map SectionEdit.key).Sublist
        (entries.map Prod.fst) := by
    intro entries hnodup
    induction entries with
    | nil => exact List.Sublist.refl _
    | cons e entries ih =>
      rw [List.flatMap_cons, List.map_append, List.map_cons]
      have hrest := ih (List.nodup_cons.mp hnodup).2
      have hone : ((arrival old new e).2).map SectionEdit.key = [] ∨
          ((arrival old new e).2).map SectionEdit.key = [e.1] := by
        rw [arrival]
        split
        · split
          · exact .inl rfl
          · exact .inr rfl
        · exact .inl rfl
      rcases hone with hone | hone
      · rw [hone]
        exact hrest.cons _
      · rw [hone]
        exact hrest.cons_cons _
  have hkeys := Dictionary.nodup_keys new.sync
  simp only [classify, List.map_append]
  refine List.nodup_append.mpr ⟨hremoved, hkeys.sublist (hadded _ hkeys), ?_⟩
  intro key hremove other hadd heq
  subst heq
  obtain ⟨value, hvalue⟩ := Dictionary.mem_keys_iff.mp ((hadded _ hkeys).subset hadd)
  split at hremove
  · cases hremove
  · rw [List.map_map] at hremove
    obtain ⟨e, he, rfl⟩ := List.mem_map.mp hremove
    cases (mem_leaving.mp he).2.symm.trans hvalue

theorem get?_applyEdit_of_ne (hkey : edit.key ≠ key) :
    (applyEdit r sections answers new s edit).1.current.sync.get? key =
      s.current.sync.get? key := by
  rw [Config.applyEdit]
  split
  · exact get?_edit_of_ne hkey _
  · rfl

theorem get?_applySections_of_not_mem {edits : List SectionEdit}
    (hkey : key ∉ edits.map SectionEdit.key) :
    (applySections r sections answers new edits s).current.sync.get? key =
      s.current.sync.get? key := by
  induction edits generalizing s with
  | nil => rfl
  | cons edit edits ih =>
    rw [List.map_cons, List.mem_cons, not_or] at hkey
    exact (ih hkey.2).trans (get?_applyEdit_of_ne fun heq => hkey.1 heq.symm)

/-- The section of a failed edit is, after all the turns, what it was before them. -/
theorem get?_applySections_of_failed {edits : List SectionEdit}
    (hnodup : (edits.map SectionEdit.key).Nodup) {t : Running × SectionEdit}
    (ht : t ∈ turns r sections answers new edits s)
    (hkept : (applyEdit r sections answers new t.1 t.2).1 = t.1) :
    (applySections r sections answers new edits s).current.sync.get? t.2.key =
      s.current.sync.get? t.2.key := by
  induction edits generalizing s with
  | nil => cases ht
  | cons edit edits ih =>
    rw [List.map_cons, List.nodup_cons] at hnodup
    rcases List.mem_cons.mp ht with rfl | ht
    · rw [applySections, List.foldl_cons]
      simp only [hkept]
      exact get?_applySections_of_not_mem hnodup.1
    · have hne : edit.key ≠ t.2.key := fun heq =>
        hnodup.1 (heq ▸ List.mem_map_of_mem (mem_turns ht))
      exact (ih hnodup.2 ht).trans (get?_applyEdit_of_ne hne)

/-- What a plan does with a section depends on whether it runs, and on the file. -/
theorem mem_sections_of_get? {old old' new : AppConfig} {edit : SectionEdit}
    (h : edit ∈ (classify old new).sections)
    (hget : old'.sync.get? edit.key = old.sync.get? edit.key) :
    edit ∈ (classify old' new).sections := by
  rw [mem_sections] at h ⊢
  rcases h with ⟨key, t, hold, hnew, hpoll, rfl⟩ | ⟨key, t, hold, hnew, hjoin, rfl⟩
  · exact .inl ⟨key, t, hget.trans hold, hnew, hpoll, rfl⟩
  · exact .inr ⟨key, t, hget.trans hold, hnew, hjoin, rfl⟩

/-- A failed edit of a reload is planned again by the next reload of the file. -/
theorem retried {handle : Option Sections} {req : Request} (hload : req.loaded = .ok new)
    (hhandle : handle = some sections) {t : Running × SectionEdit}
    (ht : t ∈ reloadTurns r handle req s)
    (hkept : (applyEdit r sections req.answers new t.1 t.2).1 = t.1) :
    t.2 ∈ (classify (reload r handle req s).current new).sections := by
  subst hhandle
  have hplan := mem_reloadTurns hload ht
  obtain ⟨hot, hhot⟩ := swapHot_eq req new s
  simp only [reloadTurns, hload] at ht
  simp only [reload, hload]
  split at ht
  · next hok =>
    rw [if_pos hok]
    refine mem_sections_of_get? hplan ?_
    have hget := get?_applySections_of_failed (nodup_sections _ _) ht hkept
    rw [hhot] at hget
    rw [hhot]
    exact hget
  · cases ht

/-- In every run whose edits fail early or not at all, everything describes the same
sections, between reloads and at every turn of one; a failed edit changes nothing, and
the next reload of the file tries it again. -/
theorem reached_inStep {start : Running} (hstart : launch r started tables = .ok start)
    (hs : Reached r (Config.sections started) (AllFailEarly r (Config.sections started)) start s) :
    InStep r started tables s ∧
      ∀ req new sections, AllFailEarly r (Config.sections started) req s →
        req.loaded = .ok new → Config.sections started = some sections →
        ∀ t ∈ reloadTurns r (Config.sections started) req s,
          InStep r started tables t.1 ∧
          ∀ refusal, (applyEdit r sections req.answers new t.1 t.2).2 = some refusal →
            (applyEdit r sections req.answers new t.1 t.2).1 = t.1 ∧
            t.2 ∈ (classify (reload r (Config.sections started) req s).current new).sections := by
  have hreload : ∀ {s : Running} {req : Request}, InStep r started tables s →
      AllFailEarly r (Config.sections started) req s →
      (∀ t ∈ reloadTurns r (Config.sections started) req s, InStep r started tables t.1) ∧
        InStep r started tables (reload r (Config.sections started) req s) := by
    intro s req hstep hearly
    apply reload_induction
    · intro s hot h
      exact ⟨h.current, h.cfg, h.rules, h.indices, h.admitted⟩
    · intro s hot h
      exact ⟨h.current, h.cfg, h.rules, h.indices, h.admitted⟩
    · intro new sections hload hhandle t ht h
      refine h.applyEdit (sections_faithful hhandle) (hearly new sections hload hhandle t ht) ?_
      intro key hkey
      rcases mem_sections.mp (mem_reloadTurns hload ht) with
        ⟨other, tbl, -, -, -, hremove⟩ | ⟨other, tbl, -, hnew, -, hadd⟩
      · rw [hkey] at hremove
        cases hremove
      · rw [hkey] at hadd
        obtain rfl := SectionEdit.add.inj hadd
        exact ⟨tbl, hnew⟩
    · exact hstep
  have hstep : InStep r started tables s := by
    induction hs with
    | start =>
      rw [launch] at hstart
      obtain ⟨rules, hrules, hstart⟩ := Except.bind_eq_ok hstart
      obtain ⟨indices, hindices, hstart⟩ := Except.bind_eq_ok hstart
      cases hstart
      exact ⟨rfl, rfl, hrules, hindices, rfl⟩
    | reload _ hreq ih => exact (hreload ih hreq).2
  refine ⟨hstep, fun req new sections hearly hload hhandle t ht => ?_⟩
  refine ⟨(hreload hstep hearly).1 t ht, fun refusal hfail => ?_⟩
  have hkept := applyEdit_of_failed (hearly new sections hload hhandle t ht) hfail
  exact ⟨hkept, retried hload hhandle ht hkept⟩

/-! ### A section that nothing can read -/

/-- The source cannot be reached. -/
def unreachable : Answers := { willing with connect := .error "cannot connect" }

/-- Every step succeeds, but no attempt is streaming. -/
def betweenAttempts : Answers := { willing with attempt := false }

theorem unreachable_inStep : ∃ start,
    launch plain (slotted "a" ["users"]) noTables = .ok start ∧
    InStep plain (slotted "a" ["users"]) noTables
      (reload plain (Config.sections (slotted "a" ["users"]))
        ⟨.ok (slotted "a" ["orders", "users"]), .ok (), fun _ => unreachable⟩ start) := by
  have hhandle : Config.sections (slotted "a" ["users"]) = some postgresSections := rfl
  have hplan : (classify (slotted "a" ["users"]) (slotted "a" ["orders", "users"])).sections =
      [.add "orders"] := by
    decide +kernel
  have hearly : ∀ s : Running, s.current = slotted "a" ["users"] →
      AllFailEarly plain (Config.sections (slotted "a" ["users"]))
        ⟨.ok (slotted "a" ["orders", "users"]), .ok (), fun _ => unreachable⟩ s := by
    intro s hs new handle hload hsome t ht
    rw [hhandle] at hsome
    obtain rfl := Option.some.inj hsome
    have hedit := mem_reloadTurns rfl ht
    rw [hs, hplan] at hedit
    rw [FailsEarly, List.mem_singleton.mp hedit]
    simp only [postgresSections, admission]
    rcases (onlySection (handedOver new t.1 (.add "orders")) "orders").sync.get? "orders" with
      _ | tbl
    · trivial
    · trivial
  exact ⟨_, rfl, (reached_inStep rfl (.reload .start (hearly _ rfl))).1⟩

/-- A section added while no attempt streams is refused, and yet it is admitted and the
next attempt is built with it. The file without it takes nothing back. -/
theorem betweenAttempts_stays : ∃ start,
    launch plain (slotted "a" ["users"]) noTables = .ok start ∧
    let refused := reload plain (Config.sections (slotted "a" ["users"]))
      ⟨.ok (slotted "a" ["orders", "users"]), .ok (), fun _ => betweenAttempts⟩ start
    let removed := reload plain (Config.sections (slotted "a" ["users"]))
      (rereads (slotted "a" ["users"])) refused
    refused.current.sync.contains "orders" = false ∧
    refused.live.cfg.sync.contains "orders" = true ∧
    removed.live.cfg.sync.contains "orders" = true ∧
    ("public", "orders") ∈ removed.live.tables.tables ∧
    ¬ InStep plain (slotted "a" ["users"]) noTables refused := by
  refine ⟨_, rfl, by decide +kernel, by decide +kernel, by decide +kernel, by decide +kernel, ?_⟩
  intro h
  exact absurd (h.cfg.trans h.current.symm) (by decide +kernel)

end Config

end Pg2osync
