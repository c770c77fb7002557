import Pg2osync.Reload

/-!
# What a reload leaves unsaid

A reload is complete when every setting in which the file differs from the running
configuration is either in effect afterwards or named in a refusal, so that a reload
without a refusal leaves the process as the file describes it. The name of a source is
left out: a running pipeline never reads it.

The lists of fields lack one, `[target] url_env`. And a change of what a row is filed
as is told without the changes of shape beside it. The result is exact
(`complete_iff`).
-/

namespace Pg2osync

namespace Config

open Dictionary

open FieldOf (ofGet print)

/-! ## Every field -/

/-- All the fields of `[source]`. -/
def allSource : List (FieldOf SourceConfig) :=
  ofGet "name" (·.name) :: sourceFields.map PrintedField.toFieldOf

/-- All the fields of `[target]`. -/
def allTarget : List (FieldOf TargetConfig) :=
  ofGet "url_env" (·.urlEnv) :: targetFields.map PrintedField.toFieldOf

/-- The fields of `[engine]` that are swapped. -/
def hotFields : List (FieldOf EngineConfig) :=
  [ofGet "batch_size" (·.batchSize), ofGet "batch_max_bytes" (·.batchMaxBytes),
    ofGet "txn_buffer_cap_mb" (·.txnBufferCapMb), ofGet "retry_max" (·.retryMax),
    ofGet "retry_backoff_ms" (·.retryBackoffMs),
    ofGet "retry_max_elapsed_ms" (·.retryMaxElapsedMs),
    ofGet "checkpoint_interval_ms" (·.checkpointIntervalMs),
    ofGet "load_max_rows_per_sec" (·.loadMaxRowsPerSec)]

/-- All the fields of `[engine]`. -/
def allEngine : List (FieldOf EngineConfig) :=
  hotFields ++ engineFields.map PrintedField.toFieldOf

/-- The fields of a section whose change means that its rows are filed anew. -/
def filingFields : List (FieldOf TableSync) :=
  identityFields.map PrintedField.toFieldOf ++ structuralFields

/-- All the fields of a section. -/
def allTable : List (FieldOf TableSync) :=
  filingFields ++ pollFields.map PrintedField.toFieldOf ++ reshapeFields

/-- Two records disagree on a field of the name. -/
def DiffersIn {σ : Type} (fields : List (FieldOf σ)) (name : String) (a b : σ) : Prop :=
  ∃ f ∈ fields, f.name = name ∧ f.same a b = false

/-- Two configurations differ in a setting. -/
def Differs (a b : AppConfig) : Setting → Prop
  | .source name => DiffersIn allSource name a.source b.source
  | .target name => DiffersIn allTarget name a.target b.target
  | .metrics name => DiffersIn (metricsFields.map PrintedField.toFieldOf) name a.metrics b.metrics
  | .api name => DiffersIn (apiFields.map PrintedField.toFieldOf) name a.api b.api
  | .engine name => DiffersIn allEngine name a.engine b.engine
  | .log name => DiffersIn [ofGet "filter" (·.filter)] name a.log b.log
  | .entry key => a.sync.contains key ≠ b.sync.contains key
  | .field key name => ∃ s t, a.sync.get? key = some s ∧ b.sync.get? key = some t ∧
      DiffersIn allTable name s t

variable {σ : Type}

theorem same_of_not_differsIn {fields : List (FieldOf σ)} {a b : σ}
    (h : ∀ name, ¬ DiffersIn fields name a b) : ∀ f ∈ fields, f.same a b = true := by
  intro f hf
  by_contra hsame
  exact h f.name ⟨f, hf, rfl, by simpa using hsame⟩

theorem target_eq_of_same {a b : TargetConfig} (h : ∀ f ∈ allTarget, f.same a b = true) :
    a = b := by
  cases a
  cases b
  simpa [allTarget, targetFields, and_assoc, and_comm, and_left_comm] using h

theorem metrics_eq_of_same {a b : MetricsConfig}
    (h : ∀ f ∈ metricsFields.map PrintedField.toFieldOf, f.same a b = true) : a = b := by
  cases a
  cases b
  simpa [metricsFields] using h

theorem api_eq_of_same {a b : ApiConfig}
    (h : ∀ f ∈ apiFields.map PrintedField.toFieldOf, f.same a b = true) : a = b := by
  cases a
  cases b
  simpa [apiFields] using h

theorem engine_eq_of_same {a b : EngineConfig} (h : ∀ f ∈ allEngine, f.same a b = true) :
    a = b := by
  cases a
  cases b
  simp only [allEngine, hotFields, engineFields, List.map_cons, List.map_nil, List.cons_append,
    List.nil_append, List.forall_mem_cons, FieldOf.ofGet_same, FieldOf.print_same,
    decide_eq_true_eq] at h
  simp_all

theorem source_eq_of_same {a b : SourceConfig}
    (h : ∀ f ∈ sourceFields.map PrintedField.toFieldOf, f.same a b = true) :
    a = { b with name := a.name } := by
  cases a
  cases b
  simpa [sourceFields, and_assoc, and_comm, and_left_comm] using h

theorem table_eq_of_same {a b : TableSync} (h : ∀ f ∈ allTable, f.same a b = true) : a = b := by
  cases a
  cases b
  simp only [allTable, filingFields, identityFields, structuralFields, pollFields, reshapeFields,
    List.map_cons, List.map_nil, List.cons_append, List.nil_append, List.forall_mem_cons,
    FieldOf.ofGet_same, FieldOf.print_same, decide_eq_true_eq] at h
  simp_all

theorem eq_of_not_differs {a b : AppConfig}
    (h : ∀ s, s ≠ .source "name" → ¬ Differs a b s) :
    a = { b with source := { b.source with name := a.source.name } } := by
  have hsource : a.source = { b.source with name := a.source.name } := by
    apply source_eq_of_same
    intro f hf
    by_contra hsame
    have hname : f.name ≠ "name" := by
      have hnames : "name" ∉ (sourceFields.map PrintedField.toFieldOf).map FieldOf.name := by
        decide
      intro heq
      exact hnames (List.mem_map.mpr ⟨f, hf, heq⟩)
    exact h (.source f.name) (fun heq => hname (Setting.source.inj heq))
      ⟨f, List.mem_cons_of_mem _ hf, rfl, by simpa using hsame⟩
  have htarget : a.target = b.target :=
    target_eq_of_same (same_of_not_differsIn fun name => h (.target name) (by simp))
  have hmetrics : a.metrics = b.metrics :=
    metrics_eq_of_same (same_of_not_differsIn fun name => h (.metrics name) (by simp))
  have hapi : a.api = b.api :=
    api_eq_of_same (same_of_not_differsIn fun name => h (.api name) (by simp))
  have hengine : a.engine = b.engine :=
    engine_eq_of_same (same_of_not_differsIn fun name => h (.engine name) (by simp))
  have hlog : a.log = b.log := by
    have hfilter := same_of_not_differsIn (fun name => h (.log name) (by simp))
      (ofGet "filter" LogConfig.filter) List.mem_cons_self
    exact congrArg LogConfig.mk (by simpa using hfilter)
  have hsync : a.sync = b.sync := by
    apply ext_get?
    intro key
    have hentry : a.sync.contains key = b.sync.contains key := by
      by_contra hne
      exact h (.entry key) (by simp) hne
    rw [contains, contains] at hentry
    rcases ha : a.sync.get? key with _ | s
    · rw [ha] at hentry
      exact (Option.isSome_eq_false_iff.mp hentry.symm |> Option.isNone_iff_eq_none.mp).symm
    · rw [ha] at hentry
      obtain ⟨t, ht⟩ := Option.isSome_iff_exists.mp hentry.symm
      rw [ht, table_eq_of_same (same_of_not_differsIn fun name hd =>
        h (.field key name) (by simp) ⟨s, t, ha, ht, hd⟩)]
  cases a with | mk source target sync engine metrics api log
  cases b with | mk source' target' sync' engine' metrics' api' log'
  simp only at hsource htarget hmetrics hapi hengine hlog hsync
  rw [hsource, htarget, hmetrics, hapi, hengine, hlog, hsync]

/-! ## What is in effect afterwards -/

/-- The file, with the retries at least one. -/
def clamped (new : AppConfig) : AppConfig :=
  { new with engine := { new.engine with
      retryMax := max new.engine.retryMax 1
      retryBackoffMs := max new.engine.retryBackoffMs 1 } }

/-- The configuration that runs after a reload. -/
def reloaded (old new : AppConfig) : AppConfig :=
  (classify old new).advance new old

/-- An edit leaves the other sections as they are. -/
theorem get?_edit_of_ne {new : AppConfig} {edit : SectionEdit} {key : String}
    (hkey : edit.key ≠ key) (sync : Dictionary String TableSync) :
    (edit.edit new sync).get? key = sync.get? key := by
  cases edit with
  | add other =>
    rw [SectionEdit.edit]
    split
    · rw [get?_insert]
      exact if_neg hkey
    · rfl
  | remove other table index =>
    rw [SectionEdit.edit, get?_erase]
    exact if_neg hkey

/-- Where every edit of a key leaves one result, so do they all together. -/
theorem get?_foldl_edit (new : AppConfig) (edits : List SectionEdit) (key : String)
    (result : Option TableSync)
    (h : ∀ edit ∈ edits, edit.key = key → ∀ sync, (edit.edit new sync).get? key = result)
    (sync : Dictionary String TableSync) :
    (edits.foldl (SectionEdit.edit new) sync).get? key =
      if key ∈ edits.map SectionEdit.key then result else sync.get? key := by
  induction edits generalizing sync with
  | nil => simp
  | cons edit edits ih =>
    have hrest := ih (fun e he => h e (List.mem_cons_of_mem _ he))
    simp only [List.foldl_cons, hrest, List.map_cons, List.mem_cons]
    by_cases hkey : edit.key = key
    · have hedit : (SectionEdit.edit new sync edit).get? key = result :=
        h edit List.mem_cons_self hkey sync
      rw [hedit]
      simp [hkey]
    · rw [get?_edit_of_ne hkey]
      simp [Ne.symm hkey]

theorem contains_eq_false {sync : Dictionary String TableSync} {key : String} :
    sync.contains key = false ↔ sync.get? key = none := by
  rw [contains, Option.isSome_eq_false_iff, Option.isNone_iff_eq_none]

variable {old new : AppConfig}

theorem mem_leaving {e : String × TableSync} :
    e ∈ leaving old new ↔ old.sync.get? e.1 = some e.2 ∧ new.sync.get? e.1 = none := by
  rw [leaving, List.mem_filter, Bool.not_eq_true', contains_eq_false, ← Prod.eta e,
    mem_entries_iff]

theorem mem_map_leaving {α : Type} {f : String × TableSync → α} {x : α} :
    x ∈ (leaving old new).map f ↔
      ∃ key s, old.sync.get? key = some s ∧ new.sync.get? key = none ∧ x = f (key, s) := by
  simp only [List.mem_map, mem_leaving, Prod.exists, and_assoc, @eq_comm _ x]

/-- The edits of a plan: what leaves, and the plain sections that join. -/
theorem mem_sections {edit : SectionEdit} :
    edit ∈ (classify old new).sections ↔
      (∃ key s, old.sync.get? key = some s ∧ new.sync.get? key = none ∧
        new.source.mode ≠ "poll" ∧ edit = .remove key s.table (s.indexName key)) ∨
      ∃ key t, old.sync.get? key = none ∧ new.sync.get? key = some t ∧
        joiningTakesARestart key t new = none ∧ edit = .add key := by
  simp only [classify, List.mem_append, List.mem_flatMap]
  apply or_congr
  · split
    · next hpoll => simp [hpoll]
    · next hpoll => simp [mem_map_leaving, hpoll]
  · constructor
    · rintro ⟨⟨key, t⟩, ht, hedit⟩
      rw [mem_entries_iff] at ht
      rw [arrival] at hedit
      split at hedit
      · next hold =>
        split at hedit
        · cases hedit
        · next hjoin => exact ⟨key, t, hold, ht, hjoin, List.mem_singleton.mp hedit⟩
      · cases hedit
    · rintro ⟨key, t, hold, hnew, hjoin, rfl⟩
      refine ⟨(key, t), mem_entries_iff.mpr hnew, ?_⟩
      simp only [arrival, hold, hjoin]
      exact List.mem_singleton_self _

/-- The refusals of a plan: the lists of fields, and one case for each section. -/
theorem mem_refusals {r : Refusal} :
    r ∈ (classify old new).refusals ↔
      r ∈ refuseChanged .source "source" whySource sourceFields old.source new.source ∨
      r ∈ refuseChanged .target "target" whyTarget targetFields old.target new.target ∨
      r ∈ refuseChanged .metrics "metrics" whyListener metricsFields old.metrics new.metrics ∨
      r ∈ refuseChanged .api "api" whyListener apiFields old.api new.api ∨
      r ∈ refuseChanged .engine "engine" whyEngine engineFields old.engine new.engine ∨
      (∃ key s, old.sync.get? key = some s ∧ new.sync.get? key = none ∧
        new.source.mode = "poll" ∧ r = removalRefused (key, s)) ∨
      (∃ key t, old.sync.get? key = none ∧ new.sync.get? key = some t ∧
        joiningTakesARestart key t new = some r) ∨
      ∃ key s t, old.sync.get? key = some s ∧ new.sync.get? key = some t ∧
        r ∈ sectionRefusals key s t := by
  have harrival : (r ∈ new.sync.entries.flatMap fun e => (arrival old new e).1) ↔
      (∃ key t, old.sync.get? key = none ∧ new.sync.get? key = some t ∧
        joiningTakesARestart key t new = some r) ∨
      ∃ key s t, old.sync.get? key = some s ∧ new.sync.get? key = some t ∧
        r ∈ sectionRefusals key s t := by
    rw [List.mem_flatMap]
    constructor
    · rintro ⟨⟨key, t⟩, ht, hr⟩
      rw [mem_entries_iff] at ht
      rw [arrival] at hr
      split at hr
      · next hold =>
        split at hr
        · next refusal hjoin =>
          exact .inl ⟨key, t, hold, ht, hjoin.trans (congrArg some (List.mem_singleton.mp hr).symm)⟩
        · cases hr
      · next s hold => exact .inr ⟨key, s, t, hold, ht, hr⟩
    · rintro (⟨key, t, hold, hnew, hjoin⟩ | ⟨key, s, t, hold, hnew, hr⟩)
      · refine ⟨(key, t), mem_entries_iff.mpr hnew, ?_⟩
        simp only [arrival, hold, hjoin]
        exact List.mem_singleton_self _
      · refine ⟨(key, t), mem_entries_iff.mpr hnew, ?_⟩
        simpa only [arrival, hold] using hr
  have hleaving : (r ∈ if new.source.mode = "poll" then (leaving old new).map removalRefused
      else []) ↔ ∃ key s, old.sync.get? key = some s ∧ new.sync.get? key = none ∧
        new.source.mode = "poll" ∧ r = removalRefused (key, s) := by
    split
    · next hpoll => simp [mem_map_leaving, hpoll]
    · next hpoll => simp [hpoll]
  simp only [classify, List.mem_append, harrival, hleaving, or_assoc]

/-! ## What a refusal names -/

theorem settings_of_refuseChanged {names : String → Setting} {table why : String}
    {fields : List (PrintedField σ)} {old new : σ} {r : Refusal}
    (h : r ∈ refuseChanged names table why fields old new) :
    ∃ f ∈ fields, r.settings = [names f.name] := by
  obtain ⟨f, hf, rfl⟩ := List.mem_map.mp h
  exact ⟨f, (List.mem_filter.mp hf).1, rfl⟩

variable {name : String}

theorem refuseChanged_of_differsIn {names : String → Setting} {table why : String}
    {fields : List (PrintedField σ)} {old new : σ}
    (h : DiffersIn (fields.map PrintedField.toFieldOf) name old new) :
    ∃ r ∈ refuseChanged names table why fields old new, names name ∈ r.settings := by
  obtain ⟨g, hg, rfl, hsame⟩ := h
  obtain ⟨f, hf, rfl⟩ := List.mem_map.mp hg
  exact ⟨_, List.mem_map.mpr ⟨f, List.mem_filter.mpr ⟨hf, by simp [hsame]⟩, rfl⟩,
    List.mem_singleton_self _⟩

theorem mem_namesChanged {fields : List (FieldOf σ)} {old new : σ} :
    name ∈ namesChanged fields old new ↔ DiffersIn fields name old new := by
  rw [namesChanged, List.mem_map]
  constructor
  · rintro ⟨f, hf, hname⟩
    obtain ⟨hmem, hsame⟩ := List.mem_filter.mp hf
    exact ⟨f, hmem, hname, by simpa using hsame⟩
  · rintro ⟨f, hf, hname, hsame⟩
    exact ⟨f, List.mem_filter.mpr ⟨hf, by simp [hsame]⟩, hname⟩

/-- What a row is filed as changed. -/
def Refiled (s t : TableSync) : Prop := ∃ name, DiffersIn filingFields name s t

/-- The shape of the documents changed. -/
def Reshaped (s t : TableSync) : Prop := ∃ name, DiffersIn reshapeFields name s t

theorem filingRefusals_of_differsIn (key : String) {s t : TableSync}
    (h : DiffersIn filingFields name s t) :
    ∃ r ∈ filingRefusals key s t, .field key name ∈ r.settings := by
  obtain ⟨f, hf, hname, hsame⟩ := h
  rcases List.mem_append.mp hf with hf | hf
  · obtain ⟨r, hr, hnamed⟩ := refuseChanged_of_differsIn ⟨f, hf, hname, hsame⟩
    exact ⟨r, List.mem_append_left _ hr, hnamed⟩
  · refine ⟨_, List.mem_append_right _ (List.mem_map.mpr ⟨name, ?_, rfl⟩),
      List.mem_singleton_self _⟩
    exact mem_namesChanged.mpr ⟨f, hf, hname, hsame⟩

theorem filingRefusals_eq_nil {key : String} {s t : TableSync} (h : ¬ Refiled s t) :
    filingRefusals key s t = [] := by
  have hidentity : identityFields.filter (fun f => !f.same s t) = [] := by
    rw [List.filter_eq_nil_iff]
    intro f hf hsame
    exact h ⟨f.name, f.toFieldOf, List.mem_append_left _ (List.mem_map_of_mem hf), rfl,
      by simpa using hsame⟩
  have hstructural : structuralFields.filter (fun f => !f.same s t) = [] := by
    rw [List.filter_eq_nil_iff]
    intro f hf hsame
    exact h ⟨f.name, f, List.mem_append_right _ hf, rfl, by simpa using hsame⟩
  rw [filingRefusals, refuseChanged, hidentity, namesChanged, hstructural]
  rfl

/-- A section's refusals name every field that differs, unless a change of identity
hides one of shape. -/
theorem sectionRefusals_of_differsIn (key : String) {s t : TableSync}
    (h : DiffersIn allTable name s t) (hapart : ¬ (Refiled s t ∧ Reshaped s t)) :
    ∃ r ∈ sectionRefusals key s t, .field key name ∈ r.settings := by
  obtain ⟨f, hf, hname, hsame⟩ := h
  rw [sectionRefusals]
  rcases List.mem_append.mp hf with hf | hf
  · rcases List.mem_append.mp hf with hf | hf
    · obtain ⟨r, hr, hnamed⟩ := filingRefusals_of_differsIn key ⟨f, hf, hname, hsame⟩
      rw [if_pos (List.ne_nil_of_mem hr)]
      exact ⟨r, List.mem_append_left _ hr, hnamed⟩
    · obtain ⟨r, hr, hnamed⟩ := refuseChanged_of_differsIn ⟨f, hf, hname, hsame⟩
      refine ⟨r, ?_, hnamed⟩
      split
      · exact List.mem_append_right _ hr
      · exact List.mem_append_right _ hr
  · have hreshaped : Reshaped s t := ⟨name, f, hf, hname, hsame⟩
    have hmem : name ∈ namesChanged reshapeFields s t :=
      mem_namesChanged.mpr ⟨f, hf, hname, hsame⟩
    rw [filingRefusals_eq_nil fun hfiled => hapart ⟨hfiled, hreshaped⟩]
    have hrefusal : ∃ r ∈ reshapeRefusals key s t, .field key name ∈ r.settings := by
      rw [reshapeRefusals, if_neg (List.ne_nil_of_mem hmem)]
      exact ⟨_, List.mem_singleton_self _, List.mem_map.mpr ⟨name, hmem, rfl⟩⟩
    obtain ⟨r, hr, hnamed⟩ := hrefusal
    exact ⟨r, List.mem_append_left _ hr, hnamed⟩

theorem settings_of_filingRefusals {key : String} {s t : TableSync} {r : Refusal}
    (h : r ∈ filingRefusals key s t) :
    ∃ name ∈ filingFields.map FieldOf.name, r.settings = [.field key name] := by
  rcases List.mem_append.mp h with h | h
  · obtain ⟨f, hf, hsettings⟩ := settings_of_refuseChanged h
    refine ⟨f.name, List.mem_map.mpr ⟨f.toFieldOf, ?_, rfl⟩, hsettings⟩
    exact List.mem_append_left _ (List.mem_map_of_mem hf)
  · obtain ⟨name, hname, rfl⟩ := List.mem_map.mp h
    obtain ⟨f, hf, hfname, -⟩ := mem_namesChanged.mp hname
    exact ⟨name, List.mem_map.mpr ⟨f, List.mem_append_right _ hf, hfname⟩, rfl⟩

/-- Where identity changed, no refusal of the section names a field of the shape. -/
theorem not_named_of_refiled {key name : String} {s t : TableSync} (hfiled : Refiled s t)
    (hname : name ∈ reshapeFields.map FieldOf.name) {r : Refusal}
    (hr : r ∈ sectionRefusals key s t) : .field key name ∉ r.settings := by
  have hfiling : ∀ name ∈ reshapeFields.map FieldOf.name,
      name ∉ filingFields.map FieldOf.name ∧
        name ∉ pollFields.map fun f : PrintedField TableSync => f.name := by
    decide
  obtain ⟨other, hother⟩ := hfiled
  obtain ⟨r', hr', -⟩ := filingRefusals_of_differsIn key hother
  rw [sectionRefusals, if_pos (List.ne_nil_of_mem hr')] at hr
  intro hnamed
  rcases List.mem_append.mp hr with hr | hr
  · obtain ⟨n, hn, hsettings⟩ := settings_of_filingRefusals hr
    rw [hsettings, List.mem_singleton] at hnamed
    exact (hfiling name hname).1 ((Setting.field.inj hnamed).2 ▸ hn)
  · obtain ⟨f, hf, hsettings⟩ := settings_of_refuseChanged hr
    rw [hsettings, List.mem_singleton] at hnamed
    exact (hfiling name hname).2 ((Setting.field.inj hnamed).2 ▸ List.mem_map_of_mem hf)

/-! ## When a reload is complete -/

/-- A reload leaves nothing unsaid. -/
structure Complete (old new : AppConfig) : Prop where
  /-- without a refusal the process is as the file says, the source's name apart -/
  yields : (classify old new).refusals = [] → reloaded old new =
    { clamped new with source := { new.source with name := old.source.name } }
  /-- every setting that differs is in effect or named -/
  accounted : ∀ s, Differs old new s → s ≠ .source "name" →
    ¬ Differs (reloaded old new) (clamped new) s ∨
      ∃ r ∈ (classify old new).refusals, s ∈ r.settings

theorem get?_reloaded_of_some {key : String} {s : TableSync} (h : old.sync.get? key = some s) :
    (reloaded old new).sync.get? key =
      if new.sync.get? key = none ∧ new.source.mode ≠ "poll" then none else some s := by
  have hfold := get?_foldl_edit new (classify old new).sections key none (fun edit hedit hkey sync => ?_) old.sync
  · change ((classify old new).sections.foldl (SectionEdit.edit new) old.sync).get? key = _
    rw [hfold, h]
    refine if_congr ?_ rfl rfl
    rw [List.mem_map]
    constructor
    · rintro ⟨edit, hedit, rfl⟩
      rcases mem_sections.mp hedit with ⟨key, t, -, hnew, hpoll, rfl⟩ | ⟨key, t, hold, -, -, rfl⟩
      · exact ⟨hnew, hpoll⟩
      · cases h.symm.trans hold
    · rintro ⟨hnew, hpoll⟩
      exact ⟨_, mem_sections.mpr (.inl ⟨key, s, h, hnew, hpoll, rfl⟩), rfl⟩
  · rcases mem_sections.mp hedit with ⟨other, t, -, -, -, rfl⟩ | ⟨other, t, hold, -, -, rfl⟩
    · rw [SectionEdit.edit, get?_erase]
      exact if_pos hkey
    · rw [← hkey] at h
      cases h.symm.trans hold

theorem get?_reloaded_of_none {key : String} (h : old.sync.get? key = none) :
    (reloaded old new).sync.get? key =
      (new.sync.get? key).bind fun t =>
        if joiningTakesARestart key t new = none then some t else none := by
  have hfold := get?_foldl_edit new (classify old new).sections key
    (new.sync.get? key) (fun edit hedit hkey sync => ?_) old.sync
  · change ((classify old new).sections.foldl (SectionEdit.edit new) old.sync).get? key = _
    rw [hfold, h]
    have hadded : key ∈ (classify old new).sections.map SectionEdit.key ↔
        ∃ t, new.sync.get? key = some t ∧ joiningTakesARestart key t new = none := by
      rw [List.mem_map]
      constructor
      · rintro ⟨edit, hedit, rfl⟩
        rcases mem_sections.mp hedit with ⟨key, s, hold, -, -, rfl⟩ | ⟨key, t, -, hnew, hjoin, rfl⟩
        · cases h.symm.trans hold
        · exact ⟨t, hnew, hjoin⟩
      · rintro ⟨t, hnew, hjoin⟩
        exact ⟨_, mem_sections.mpr (.inr ⟨key, t, h, hnew, hjoin, rfl⟩), rfl⟩
    simp only [hadded]
    rcases new.sync.get? key with _ | t
    · simp
    · simp
  · rcases mem_sections.mp hedit with ⟨other, s, hold, -, -, rfl⟩ | ⟨other, t, -, hnew, -, rfl⟩
    · rw [← hkey] at h
      cases h.symm.trans hold
    · obtain rfl : other = key := hkey
      simp only [SectionEdit.edit, hnew, get?_insert, if_true]

/-- After a reload the swapped fields of `[engine]` are the file's, and the others are
as they were. -/
theorem differsIn_engine
    (h : DiffersIn allEngine name (reloaded old new).engine (clamped new).engine) :
    DiffersIn (engineFields.map PrintedField.toFieldOf) name old.engine new.engine := by
  obtain ⟨f, hf, hname, hsame⟩ := h
  rcases List.mem_append.mp hf with hhot | hf
  · have hswapped : ∀ f ∈ hotFields,
        f.same (reloaded old new).engine (clamped new).engine = true := by
      simp only [hotFields, List.forall_mem_cons, FieldOf.ofGet_same]
      simp [reloaded, Plan.advance, Hot.advance, classify, Hot.of, EngineConfig.settings, clamped]
    rw [hswapped f hhot] at hsame
    cases hsame
  · have hkept : ∀ f ∈ engineFields,
        f.same (reloaded old new).engine (clamped new).engine = f.same old.engine new.engine := by
      simp only [engineFields, List.forall_mem_cons, FieldOf.print_same]
      simp only [List.not_mem_nil, false_imp_iff, implies_true, and_true]
      exact ⟨rfl, rfl, rfl⟩
    obtain ⟨g, hg, rfl⟩ := List.mem_map.mp hf
    exact ⟨_, hf, hname, (hkept g hg).symm.trans hsame⟩

theorem settings_of_joining {key : String} {t : TableSync} {new : AppConfig} {r : Refusal}
    (h : joiningTakesARestart key t new = some r) : r.settings = [.entry key] := by
  simp only [joiningTakesARestart] at h
  split_ifs at h
  all_goals exact (congrArg Refusal.settings (Option.some.inj h)).symm

theorem same_self {t : TableSync} : ∀ f ∈ allTable, f.same t t = true := by
  simp [allTable, filingFields, identityFields, structuralFields, pollFields, reshapeFields]

/-- What is not in effect after a reload has been refused, where the lists of fields
cover it. -/
theorem refused_of_differs (hurl : old.target.urlEnv = new.target.urlEnv)
    (hapart : ∀ key s t, old.sync.get? key = some s → new.sync.get? key = some t →
      ¬ (Refiled s t ∧ Reshaped s t)) {s : Setting} (hne : s ≠ .source "name")
    (h : Differs (reloaded old new) (clamped new) s) :
    ∃ r ∈ (classify old new).refusals, s ∈ r.settings := by
  cases s with
  | source name =>
    obtain ⟨f, hf, hname, hsame⟩ := h
    rcases List.mem_cons.mp hf with rfl | hf
    · exact absurd (congrArg Setting.source hname.symm) hne
    · obtain ⟨r, hr, hnamed⟩ := refuseChanged_of_differsIn ⟨f, hf, hname, hsame⟩
      exact ⟨r, mem_refusals.mpr (.inl hr), hnamed⟩
  | target name =>
    obtain ⟨f, hf, hname, hsame⟩ := h
    rcases List.mem_cons.mp hf with rfl | hf
    · have hsame' : decide (old.target.urlEnv = new.target.urlEnv) = false := hsame
      exact absurd hurl (by simpa using hsame')
    · obtain ⟨r, hr, hnamed⟩ := refuseChanged_of_differsIn ⟨f, hf, hname, hsame⟩
      exact ⟨r, mem_refusals.mpr (.inr (.inl hr)), hnamed⟩
  | metrics name =>
    obtain ⟨r, hr, hnamed⟩ := refuseChanged_of_differsIn h
    exact ⟨r, mem_refusals.mpr (.inr (.inr (.inl hr))), hnamed⟩
  | api name =>
    obtain ⟨r, hr, hnamed⟩ := refuseChanged_of_differsIn h
    exact ⟨r, mem_refusals.mpr (.inr (.inr (.inr (.inl hr)))), hnamed⟩
  | engine name =>
    obtain ⟨r, hr, hnamed⟩ := refuseChanged_of_differsIn (differsIn_engine h)
    exact ⟨r, mem_refusals.mpr (.inr (.inr (.inr (.inr (.inl hr))))), hnamed⟩
  | log name =>
    obtain ⟨f, hf, -, hsame⟩ := h
    rw [List.mem_singleton.mp hf, FieldOf.ofGet_same] at hsame
    simp [reloaded, Plan.advance, Hot.advance, classify, Hot.of, clamped] at hsame
  | entry key =>
    change ((reloaded old new).sync.get? key).isSome ≠ (new.sync.get? key).isSome at h
    rcases hold : old.sync.get? key with _ | s
    · rw [get?_reloaded_of_none hold] at h
      rcases hnew : new.sync.get? key with _ | t
      · rw [hnew] at h
        exact absurd rfl h
      · rcases hjoin : joiningTakesARestart key t new with _ | r
        · simp [hnew, hjoin] at h
        · refine ⟨r, mem_refusals.mpr ?_, ?_⟩
          · exact .inr (.inr (.inr (.inr (.inr (.inr (.inl ⟨key, t, hold, hnew, hjoin⟩))))))
          · rw [settings_of_joining hjoin]
            exact List.mem_singleton_self _
    · rw [get?_reloaded_of_some hold] at h
      rcases hnew : new.sync.get? key with _ | t
      · by_cases hpoll : new.source.mode = "poll"
        · refine ⟨removalRefused (key, s), mem_refusals.mpr ?_, List.mem_singleton_self _⟩
          exact .inr (.inr (.inr (.inr (.inr (.inl ⟨key, s, hold, hnew, hpoll, rfl⟩)))))
        · simp [hnew, hpoll] at h
      · simp [hnew] at h
  | field key name =>
    obtain ⟨s', t, hs', hnew, hdiffers⟩ := h
    have hnew' : new.sync.get? key = some t := hnew
    rcases hold : old.sync.get? key with _ | s
    · -- a section that joined is the file's own
      rw [get?_reloaded_of_none hold, hnew', Option.bind_some] at hs'
      split at hs'
      · obtain rfl := Option.some.inj hs'
        obtain ⟨f, hf, -, hsame⟩ := hdiffers
        rw [same_self f hf] at hsame
        cases hsame
      · cases hs'
    · rw [get?_reloaded_of_some hold, if_neg (by simp [hnew'])] at hs'
      obtain rfl := Option.some.inj hs'
      obtain ⟨r, hr, hnamed⟩ :=
        sectionRefusals_of_differsIn key hdiffers (hapart key s t hold hnew')
      refine ⟨r, mem_refusals.mpr ?_, hnamed⟩
      exact .inr (.inr (.inr (.inr (.inr (.inr (.inr ⟨key, s, t, hold, hnew', hr⟩))))))

theorem settings_of_sectionRefusals {key : String} {s t : TableSync} {r : Refusal}
    (h : r ∈ sectionRefusals key s t) {setting : Setting} (hs : setting ∈ r.settings) :
    ∃ name, setting = .field key name := by
  have hpoll : ∀ {r : Refusal}, r ∈ refuseChanged (.field key) ("sync." ++ key) whyPoll pollFields
      s t → setting ∈ r.settings → ∃ name, setting = .field key name := by
    intro r hr hs
    obtain ⟨f, -, hsettings⟩ := settings_of_refuseChanged hr
    rw [hsettings] at hs
    exact ⟨f.name, List.mem_singleton.mp hs⟩
  rw [sectionRefusals] at h
  split at h
  · rcases List.mem_append.mp h with h | h
    · obtain ⟨name, -, hsettings⟩ := settings_of_filingRefusals h
      rw [hsettings] at hs
      exact ⟨name, List.mem_singleton.mp hs⟩
    · exact hpoll h hs
  · rcases List.mem_append.mp h with h | h
    · rw [reshapeRefusals] at h
      split at h
      · cases h
      · rw [List.mem_singleton.mp h] at hs
        obtain ⟨name, -, hname⟩ := List.mem_map.mp hs
        exact ⟨name, hname.symm⟩
    · exact hpoll h hs

/-- A refusal that names a field of `[target]` names one that is compared. -/
theorem target_named {r : Refusal} (hr : r ∈ (classify old new).refusals)
    (hnamed : .target name ∈ r.settings) :
    name ∈ targetFields.map fun f : PrintedField TargetConfig => f.name := by
  rcases mem_refusals.mp hr with h | h | h | h | h | ⟨key, s, -, -, -, rfl⟩ | ⟨key, t, -, -, h⟩ |
    ⟨key, s, t, -, -, h⟩
  · obtain ⟨f, -, hsettings⟩ := settings_of_refuseChanged h
    simp [hsettings] at hnamed
  · obtain ⟨f, hf, hsettings⟩ := settings_of_refuseChanged h
    rw [hsettings, List.mem_singleton] at hnamed
    exact List.mem_map.mpr ⟨f, hf, (Setting.target.inj hnamed).symm⟩
  · obtain ⟨f, -, hsettings⟩ := settings_of_refuseChanged h
    simp [hsettings] at hnamed
  · obtain ⟨f, -, hsettings⟩ := settings_of_refuseChanged h
    simp [hsettings] at hnamed
  · obtain ⟨f, -, hsettings⟩ := settings_of_refuseChanged h
    simp [hsettings] at hnamed
  · simp [removalRefused] at hnamed
  · simp [settings_of_joining h] at hnamed
  · obtain ⟨name, hname⟩ := settings_of_sectionRefusals h hnamed
    cases hname

/-- A refusal that names a field of a section is one of the section's. -/
theorem field_named {key name : String} {r : Refusal} (hr : r ∈ (classify old new).refusals)
    (hnamed : .field key name ∈ r.settings) :
    ∃ s t, old.sync.get? key = some s ∧ new.sync.get? key = some t ∧
      r ∈ sectionRefusals key s t := by
  have hother : ∀ {σ : Type} {names : String → Setting} {table why : String}
      {fields : List (PrintedField σ)} {a b : σ}, (∀ n, names n ≠ .field key name) →
      r ∉ refuseChanged names table why fields a b := by
    intro σ names table why fields a b hne h
    obtain ⟨f, -, hsettings⟩ := settings_of_refuseChanged h
    rw [hsettings, List.mem_singleton] at hnamed
    exact hne f.name hnamed.symm
  rcases mem_refusals.mp hr with h | h | h | h | h | ⟨other, s, -, -, -, rfl⟩ |
    ⟨other, t, -, -, h⟩ | ⟨other, s, t, hold, hnew, h⟩
  · exact absurd h (hother (by simp))
  · exact absurd h (hother (by simp))
  · exact absurd h (hother (by simp))
  · exact absurd h (hother (by simp))
  · exact absurd h (hother (by simp))
  · simp [removalRefused] at hnamed
  · simp [settings_of_joining h] at hnamed
  · obtain ⟨n, hn⟩ := settings_of_sectionRefusals h hnamed
    obtain ⟨rfl, -⟩ := Setting.field.inj hn
    exact ⟨s, t, hold, hnew, h⟩

/-- A reload is complete if and only if the file agrees with the running configuration
on the variable of the target's URL, and no section changes both what its rows are filed
as and the shape of its documents. -/
theorem complete_iff (old new : AppConfig) :
    Complete old new ↔ old.target.urlEnv = new.target.urlEnv ∧
      ∀ key s t, old.sync.get? key = some s → new.sync.get? key = some t →
        ¬ (Refiled s t ∧ Reshaped s t) := by
  constructor
  · intro h
    constructor
    · by_contra hurl
      have hdiffers : Differs old new (.target "url_env") :=
        ⟨ofGet "url_env" TargetConfig.urlEnv, List.mem_cons_self, rfl, by simpa using hurl⟩
      rcases h.accounted _ hdiffers (by simp) with hdone | ⟨r, hr, hnamed⟩
      · exact hdone hdiffers
      · exact absurd (target_named hr hnamed) (by decide)
    · rintro key s t hold hnew ⟨hfiled, name, f, hf, hname, hsame⟩
      have hdiffers : DiffersIn allTable name s t :=
        ⟨f, List.mem_append_right _ hf, hname, hsame⟩
      rcases h.accounted (.field key name) ⟨s, t, hold, hnew, hdiffers⟩ (by simp) with
        hdone | ⟨r, hr, hnamed⟩
      · refine hdone ⟨s, t, ?_, hnew, hdiffers⟩
        rw [get?_reloaded_of_some hold, if_neg (by simp [hnew])]
      · obtain ⟨s', t', hold', hnew', hr⟩ := field_named hr hnamed
        obtain rfl := Option.some.inj (hold.symm.trans hold')
        obtain rfl := Option.some.inj (hnew.symm.trans hnew')
        exact not_named_of_refiled hfiled (List.mem_map.mpr ⟨f, hf, hname⟩) hr hnamed
  · rintro ⟨hurl, hapart⟩
    constructor
    · intro hnone
      have hsame : ∀ s, s ≠ .source "name" → ¬ Differs (reloaded old new) (clamped new) s := by
        intro s hne hdiffers
        obtain ⟨r, hr, -⟩ := refused_of_differs hurl hapart hne hdiffers
        rw [hnone] at hr
        cases hr
      exact eq_of_not_differs hsame
    · intro s _ hne
      by_cases hdone : Differs (reloaded old new) (clamped new) s
      · exact .inr (refused_of_differs hurl hapart hne hdone)
      · exact .inl hdone

/-- A file with one section, whose target is where a variable says. -/
def pointing (urlEnv : Option String) : AppConfig where
  target := { url := "http://localhost:9200", urlEnv }
  sync := Dictionary.ofList [("users", { table := "public.users" })]

/-- A file that moves the target is taken without a word, and the process stays where
it was. -/
theorem pointing_silent : validate (fun _ => .ok ()) (pointing none) = .ok () ∧
    validate (fun _ => .ok ()) (pointing (some "TARGET_URL")) = .ok () ∧
    (classify (pointing none) (pointing (some "TARGET_URL"))).refusals = [] ∧
    (reloaded (pointing none) (pointing (some "TARGET_URL"))).target.urlEnv = none ∧
    ¬ Complete (pointing none) (pointing (some "TARGET_URL")) := by
  refine ⟨by decide +kernel, by decide +kernel, by decide +kernel, by decide +kernel, fun h => ?_⟩
  exact absurd ((complete_iff _ _).mp h).1 (by decide)

end Config

end Pg2osync
