import Pg2osync.ReloadRun

/-!
# Whether a refused setting takes effect

A reload refuses every setting outside `Hot`, and the running value is kept. What an
attempt is built from is `Live`, and `Live` is replaced by the file that carries a
section's edit: the sections of it are the ones that run, and everything else is the
file's. A section whose rows could not be read stays there too.

So the running values hold in every run in which each edit fails before it is adopted,
or takes, and then comes in a file that leaves the refused settings alone
(`reached_keepsSettings`).
-/

namespace Pg2osync

namespace Config

/-- The settings a reload never changes. -/
def cold (cfg : AppConfig) : SourceConfig × TargetConfig × MetricsConfig × ApiConfig × ℕ ×
    RejectionPolicy × ℕ :=
  (cfg.source, cfg.target, cfg.metrics, cfg.api, cfg.engine.writeConcurrency,
    cfg.engine.onPermanentRejection, cfg.engine.maxRejects)

/-- What attempts are built from differs from the start only in settings that are
swapped, and in the sections whose edits took. -/
structure KeepsSettings (r : Rendering) (started : AppConfig) (s : Running) : Prop where
  settings : cold s.live.cfg = cold started
  sync : s.live.cfg.sync = sectionsTaken started s.taken
  rules : ruleSet r.interpret r.contentId s.live.cfg = .ok s.live.rules
  indices : indexNames s.live.cfg.sync = .ok s.live.indices

/-- Every edit of a reload fails before it is adopted, or takes, and then its file has
the refused settings as they run. -/
def LeavesSettings (r : Rendering) (handle : Option Sections) (req : Request) (s : Running) :
    Prop :=
  ∀ new sections, req.loaded = .ok new → handle = some sections →
    ∀ t ∈ reloadTurns r handle req s,
      (∃ e, sections.before t.2 (handedOver new t.1 t.2) (req.answers t.2) t.1.live.tables =
        .error e) ∨
      (∃ e, ruleSet r.interpret r.contentId (handedOver new t.1 t.2) = .error e) ∨
      (cold new = cold s.current ∧ sections.after t.2 (req.answers t.2) = .ok ())

/-- What carries the argument: the reload task's own configuration, too, is the start's
but for what took. -/
structure Carried (r : Rendering) (started : AppConfig) (s : Running) : Prop where
  keeps : KeepsSettings r started s
  current : cold s.current = cold started
  sync : s.current.sync = sectionsTaken started s.taken

theorem carried_launch {r : Rendering} {started : AppConfig} {tables : TableSet} {start : Running}
    (h : launch r started tables = .ok start) : Carried r started start := by
  rw [launch] at h
  obtain ⟨rules, hrules, h⟩ := Except.bind_eq_ok h
  obtain ⟨indices, hindices, h⟩ := Except.bind_eq_ok h
  cases h
  exact ⟨⟨rfl, rfl, hrules, hindices⟩, rfl, rfl⟩

theorem Carried.applyEdit {r : Rendering} {started : AppConfig} {s : Running}
    (h : Carried r started s) {sections : Sections} {answers : SectionEdit → Answers}
    {new : AppConfig} {edit : SectionEdit}
    (hedit : (∃ e, sections.before edit (handedOver new s edit) (answers edit) s.live.tables =
        .error e) ∨
      (∃ e, ruleSet r.interpret r.contentId (handedOver new s edit) = .error e) ∨
      (cold new = cold started ∧ sections.after edit (answers edit) = .ok ())) :
    Carried r started (Config.applyEdit r sections answers new s edit).1 := by
  rcases hbefore : sections.before edit (handedOver new s edit) (answers edit) s.live.tables with
    e | tables
  · rw [applyEdit_before hbefore]
    exact h
  rcases hrules : ruleSet r.interpret r.contentId (handedOver new s edit) with e | rules
  · rw [applyEdit_adopt hbefore hrules]
    exact ⟨⟨h.keeps.settings, h.keeps.sync, h.keeps.rules, h.keeps.indices⟩, h.current, h.sync⟩
  obtain ⟨indices, hindices⟩ := indexNames_of_ruleSet hrules
  obtain ⟨hcold, hafter⟩ : cold new = cold started ∧
      sections.after edit (answers edit) = .ok () := by
    rcases hedit with ⟨e, he⟩ | ⟨e, he⟩ | hedit
    · rw [hbefore] at he
      cases he
    · rw [hrules] at he
      cases he
    · exact hedit
  rw [applyEdit_adopted hbefore hrules hindices, hafter]
  have hsync : (handedOver new s edit).sync = sectionsTaken started (s.taken ++ [(new, edit)]) := by
    rw [sectionsTaken_append, ← h.sync]
    rfl
  exact ⟨⟨hcold, hsync, hrules, hindices⟩, h.current, hsync⟩

/-- In every run whose edits leave the refused settings alone, what the pipeline and the
next attempt are built from keeps them, between reloads and at every turn of one. -/
theorem reached_keepsSettings {r : Rendering} {started : AppConfig} {tables : TableSet}
    {start s : Running} (hstart : launch r started tables = .ok start)
    (hs : Reached r (sections started) (LeavesSettings r (sections started)) start s) :
    KeepsSettings r started s ∧
      ∀ req, LeavesSettings r (sections started) req s →
        ∀ t ∈ reloadTurns r (sections started) req s, KeepsSettings r started t.1 := by
  have hreload : ∀ {s : Running} {req : Request}, Carried r started s →
      LeavesSettings r (sections started) req s →
      (∀ t ∈ reloadTurns r (sections started) req s, Carried r started t.1) ∧
        Carried r started (reload r (sections started) req s) := by
    intro s req hcarried hleaves
    apply reload_induction
    case hswap | hadvance =>
      intro s hot h
      exact ⟨⟨h.keeps.settings, h.keeps.sync, h.keeps.rules, h.keeps.indices⟩, h.current, h.sync⟩
    · intro new handle hload hhandle t ht h
      apply h.applyEdit
      rw [← hcarried.current]
      exact hleaves new handle hload hhandle t ht
    · exact hcarried
  have hcarried : Carried r started s := by
    induction hs with
    | start => exact carried_launch hstart
    | reload _ hreq ih => exact (hreload ih hreq).2
  refine ⟨hcarried.keeps, fun req hleaves t ht => ?_⟩
  exact ((hreload hcarried hleaves).1 t ht).keeps

/-! ### A file that moves the slot -/

/-- A rendering without transforms. -/
def plain : Rendering := ⟨fun _ => .error "", Json.render⟩

/-- No table is admitted yet. -/
def noTables : TableSet := ⟨[], fun _ => none, fun _ => false⟩

/-- A file of plain sections, with a slot. -/
def slotted (slot : String) (tables : List String) : AppConfig where
  source := { slotName := slot }
  target := { url := "http://localhost:9200" }
  sync := Dictionary.ofList (tables.map fun t => (t, { table := "public." ++ t }))

/-- Every step of an edit succeeds. -/
def willing : Answers := ⟨.ok (), .ok (), .ok ["id"], .ok (), .ok (), true, .ok ()⟩

/-- A request to read a file, to which nothing outside objects. -/
def rereads (new : AppConfig) : Request := ⟨.ok new, .ok (), fun _ => willing⟩

theorem slotted_keeps : ∃ start, launch plain (slotted "a" ["users"]) noTables = .ok start ∧
    KeepsSettings plain (slotted "a" ["users"])
      (reload plain (sections (slotted "a" ["users"]))
        (rereads (slotted "a" ["orders", "users"])) start) := by
  have hhandle : sections (slotted "a" ["users"]) = some postgresSections := rfl
  have hleaves : ∀ s : Running, s.current = slotted "a" ["users"] →
      LeavesSettings plain (sections (slotted "a" ["users"]))
        (rereads (slotted "a" ["orders", "users"])) s := by
    intro s hs new handle hload hsome t _
    rw [hhandle] at hsome
    obtain rfl := Option.some.inj hsome
    obtain rfl := Except.ok.inj hload
    refine .inr (.inr ⟨by rw [hs]; decide, ?_⟩)
    rcases t.2 with key | ⟨key, table, index⟩
    · rfl
    · rfl
  exact ⟨_, rfl, (reached_keepsSettings rfl (.reload .start (hleaves _ rfl))).1⟩

/-- The slot is refused by name, and the next attempt is built with it all the same. -/
theorem slotted_moved :
    (classify (slotted "a" ["users"]) (slotted "b" ["orders", "users"])).refusals.map
      Refusal.settings = [[.source "slot_name"]] ∧
    ∃ start, launch plain (slotted "a" ["users"]) noTables = .ok start ∧
      ¬ KeepsSettings plain (slotted "a" ["users"])
        (reload plain (sections (slotted "a" ["users"]))
          (rereads (slotted "b" ["orders", "users"])) start) := by
  refine ⟨by decide +kernel, _, rfl, fun h => ?_⟩
  exact absurd h.settings (by decide +kernel)

end Config

end Pg2osync
