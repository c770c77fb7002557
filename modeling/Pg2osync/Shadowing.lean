import Mathlib.Data.List.ReduceOption
import Mathlib.Data.List.TakeWhile
import Pg2osync.RuleSet

/-!
# What a section declares, and what holds for its table

A section is `Unshadowed` when the rules the engine looks up for its table are the
ones it declares, an initial load reads the table for it, and no other section names
the table. Validation refuses no two sections of one table, and the loader files its
progress under the table's name with every unusual character replaced.

The result is exact (`unshadowed_iff`): nothing is shadowed if and only if no two
sections have one progress document. Two sections of a table always have.
-/

namespace Pg2osync

namespace Config

/-! ## Which sections a load reads -/

/-- The sections an initial load reads, in order: `finished` holds the progress
documents that say a table is done. Each table read adds its own. -/
def readSections (progressKey : String → String) :
    List String → List (String × TableSync) → List (String × TableSync)
  | _, [] => []
  | finished, e :: rest =>
    if finished.contains (progressKey e.2.table) then readSections progressKey finished rest
    else e :: readSections progressKey (progressKey e.2.table :: finished) rest

theorem length_readSections_le (progressKey : String → String) (finished : List String)
    (entries : List (String × TableSync)) :
    (readSections progressKey finished entries).length ≤ entries.length := by
  induction entries generalizing finished with
  | nil => exact Nat.le_refl _
  | cons first rest ih =>
    rw [readSections]
    split
    · exact Nat.le_succ_of_le (ih finished)
    · exact Nat.succ_le_succ (ih _)

/-- Every section is read if and only if none has a document that is finished already
or that another section has. -/
theorem readSections_eq_self {progressKey : String → String} {finished : List String}
    {entries : List (String × TableSync)} :
    readSections progressKey finished entries = entries ↔
      (entries.map fun e => progressKey e.2.table).Nodup ∧
        ∀ e ∈ entries, progressKey e.2.table ∉ finished := by
  induction entries generalizing finished with
  | nil => simp [readSections]
  | cons first rest ih =>
    rw [readSections, List.map_cons, List.nodup_cons, List.forall_mem_cons]
    by_cases hfirst : progressKey first.2.table ∈ finished
    · -- the first section is skipped, and the rest is too short to be all of them
      have hshort := length_readSections_le progressKey finished rest
      simp only [List.contains_iff_mem, hfirst, if_true, not_true, false_and, and_false, iff_false]
      intro h
      rw [h, List.length_cons] at hshort
      omega
    · simp only [List.contains_iff_mem, hfirst, if_false, List.cons.injEq, true_and, ih,
        List.mem_cons, not_or, not_false_eq_true]
      constructor
      · rintro ⟨hnodup, hrest⟩
        refine ⟨⟨fun hmem => ?_, hnodup⟩, fun e he => (hrest e he).2⟩
        obtain ⟨e, he, heq⟩ := List.mem_map.mp hmem
        exact (hrest e he).1 heq
      · rintro ⟨⟨hmem, hnodup⟩, hrest⟩
        exact ⟨hnodup, fun e he => ⟨fun heq => hmem (List.mem_map.mpr ⟨e, he, heq⟩), hrest e he⟩⟩

/-! ## Rules by table -/

theorem fromPairs_of_mem {κ α : Type} [DecidableEq κ] {pairs : List (κ × α)}
    (hfun : ∀ p ∈ pairs, ∀ q ∈ pairs, p.1 = q.1 → p = q) {key : κ} {a : α}
    (h : (key, a) ∈ pairs) : fromPairs pairs key = some a := by
  rw [fromPairs]
  rcases hfind : pairs.reverse.find? fun p => p.1 = key with _ | p
  · have := List.find?_eq_none.mp hfind (key, a) (List.mem_reverse.mpr h)
    simp at this
  · have hp : p ∈ pairs := List.mem_reverse.mp (List.mem_of_find?_eq_some hfind)
    have hkey : p.1 = key := by simpa using List.find?_some hfind
    have hsame : p = (key, a) := hfun p hp (key, a) h hkey
    exact congrArg (Option.map Prod.snd) (hfind.trans (congrArg some hsame))

theorem fromPairs_eq_none {κ α : Type} [DecidableEq κ] {pairs : List (κ × α)} {key : κ}
    (h : ∀ p ∈ pairs, p.1 ≠ key) : fromPairs pairs key = none := by
  rw [fromPairs, Option.map_eq_none_iff, List.find?_eq_none]
  intro p hp
  simpa using h p (List.mem_reverse.mp hp)

/-- Each section's table is its own. -/
def OwnTables (sync : Dictionary String TableSync) : Prop :=
  ∀ a ∈ sync.entries, ∀ b ∈ sync.entries,
    splitQualified a.2.table = splitQualified b.2.table → a = b

instance (sync : Dictionary String TableSync) : Decidable (OwnTables sync) :=
  inferInstanceAs (Decidable (∀ a ∈ sync.entries, ∀ b ∈ sync.entries,
    splitQualified a.2.table = splitQualified b.2.table → a = b))

variable {e : String × TableSync}

/-- Where each section's table is its own, a section's rule is found there. -/
theorem collect_lookup {α : Type} {rule : String → TableSync → Except String (Option α)}
    {sync : Dictionary String TableSync} {found : TableName → Option α} (hown : OwnTables sync)
    (h : collect rule sync = .ok found) (he : e ∈ sync.entries) :
    rule e.1 e.2 = .ok (found (splitQualified e.2.table)) := by
  rw [collect] at h
  obtain ⟨results, hresults, hfound⟩ := Except.map_eq_ok h
  have hfrom : ∀ p ∈ results.reduceOption, ∃ a ∈ sync.entries,
      splitQualified a.2.table = p.1 ∧ rule a.1 a.2 = .ok (some p.2) := by
    intro p hp
    obtain ⟨a, ha, hmap⟩ := exists_of_mem_mapM hresults (List.reduceOption_mem_iff.mp hp)
    obtain ⟨value, hrule, hvalue⟩ := Except.map_eq_ok hmap
    obtain ⟨value, rfl, rfl⟩ := Option.map_eq_some_iff.mp hvalue
    exact ⟨a, ha, rfl, hrule⟩
  subst hfound
  obtain ⟨pair, hpair, hmap⟩ := exists_of_mapM hresults he
  obtain ⟨value, hrule, hvalue⟩ := Except.map_eq_ok hmap
  rw [hrule]
  rcases value with _ | value
  · refine congrArg Except.ok (fromPairs_eq_none fun p hp heq => ?_).symm
    obtain ⟨a, ha, htable, hsome⟩ := hfrom p hp
    rw [hown a ha e he (htable.trans heq), hrule] at hsome
    cases hsome
  · subst hvalue
    refine congrArg Except.ok (fromPairs_of_mem (fun p hp q hq heq => ?_) ?_).symm
    · obtain ⟨a, ha, hpa, hpr⟩ := hfrom p hp
      obtain ⟨b, hb, hqb, hqr⟩ := hfrom q hq
      rw [hown a ha b hb (hpa.trans (heq.trans hqb.symm)), hqr] at hpr
      exact Prod.ext heq (Option.some.inj (Except.ok.inj hpr)).symm
    · exact List.reduceOption_mem_iff.mpr hpair

/-- What the rules hold for a section's table is what the section declares. -/
structure Declares (interpret : TransformOp → Except String (Json → Applied)) (cfg : AppConfig)
    (set : RuleSet) (key : String) (tbl : TableSync) : Prop where
  target : (tbl.indexTarget key (pkColumnsFor tbl)).toOption =
    set.mapping.targetFor (splitQualified tbl.table)
  projection : projectionRule key tbl = .ok (set.rules.projections (splitQualified tbl.table))
  transform : transformRule interpret key tbl =
    .ok (set.rules.transforms (splitQualified tbl.table))
  rename : renameRule key tbl = .ok (set.rules.renames (splitQualified tbl.table))
  flatten : flattenRule key tbl = .ok (set.rules.flattens (splitQualified tbl.table))
  constant : constantRule key tbl = .ok (set.rules.constants (splitQualified tbl.table))
  id : idRule key tbl = .ok (set.rules.idTemplates (splitQualified tbl.table))
  fanOut : fanOutRule key tbl = .ok (set.rules.fanOuts (splitQualified tbl.table))
  join : joinRule cfg.sync key tbl = .ok (set.rules.joins (splitQualified tbl.table))
  filter : (filterRule key tbl).map (Option.map Filter.isMatch) =
    .ok (set.rules.filters (splitQualified tbl.table))
  pipeline : pipelineRule key tbl = .ok (set.rules.pipelines (splitQualified tbl.table))
  routing : routingRule key tbl = .ok (set.rules.routings (splitQualified tbl.table))
  appendOnly : tbl.appendOnly = set.rules.appendOnly (splitQualified tbl.table)

/-- No section is shadowed. -/
structure Unshadowed (alphanumeric : Char → Bool)
    (interpret : TransformOp → Except String (Json → Applied)) (contentId : Json → String)
    (cfg : AppConfig) : Prop where
  /-- the engine has every section's rules -/
  rules : ∀ set, ruleSet interpret contentId cfg = .ok set →
    ∀ e ∈ cfg.sync.entries, Declares interpret cfg set e.1 e.2
  /-- an initial load reads every section's table for it -/
  load : readSections (loadProgressKey alphanumeric (streamId cfg)) [] cfg.sync.entries =
    cfg.sync.entries
  /-- no two sections name one table -/
  tables : OwnTables cfg.sync

theorem targetFor_tableMapping {sync : Dictionary String TableSync} {mapping : TableMapping}
    (hown : OwnTables sync) (h : tableMapping sync = .ok mapping) (he : e ∈ sync.entries) :
    (e.2.indexTarget e.1 (pkColumnsFor e.2)).toOption =
      mapping.targetFor (splitQualified e.2.table) := by
  rw [tableMapping] at h
  obtain ⟨targets, htargets, rfl⟩ := Except.map_eq_ok h
  have hfrom : ∀ p ∈ targets, ∃ a ∈ sync.entries,
      splitQualified a.2.table = p.1 ∧ a.2.indexTarget a.1 (pkColumnsFor a.2) = .ok p.2 := by
    intro p hp
    obtain ⟨a, ha, hmap⟩ := exists_of_mem_mapM htargets hp
    obtain ⟨target, htarget, rfl⟩ := Except.map_eq_ok hmap
    exact ⟨a, ha, rfl, orBail_ok htarget⟩
  obtain ⟨pair, hpair, hmap⟩ := exists_of_mapM htargets he
  obtain ⟨target, htarget, rfl⟩ := Except.map_eq_ok hmap
  rw [orBail_ok htarget]
  refine (fromPairs_of_mem (fun p hp q hq heq => ?_) hpair).symm
  obtain ⟨a, ha, hpa, hpr⟩ := hfrom p hp
  obtain ⟨b, hb, hqb, hqr⟩ := hfrom q hq
  rw [hown a ha b hb (hpa.trans (heq.trans hqb.symm)), hqr] at hpr
  exact Prod.ext heq (Except.ok.inj hpr).symm

theorem declares_of_ownTables {interpret : TransformOp → Except String (Json → Applied)}
    {contentId : Json → String} {cfg : AppConfig} (hown : OwnTables cfg.sync) {set : RuleSet}
    (h : ruleSet interpret contentId cfg = .ok set) (he : e ∈ cfg.sync.entries) :
    Declares interpret cfg set e.1 e.2 := by
  rw [ruleSet] at h
  obtain ⟨mapping, hmapping, h⟩ := Except.bind_eq_ok h
  obtain ⟨projections, hprojections, h⟩ := Except.bind_eq_ok h
  obtain ⟨transforms, htransforms, h⟩ := Except.bind_eq_ok h
  obtain ⟨renames, hrenames, h⟩ := Except.bind_eq_ok h
  obtain ⟨flattens, hflattens, h⟩ := Except.bind_eq_ok h
  obtain ⟨constants, hconstants, h⟩ := Except.bind_eq_ok h
  obtain ⟨idTemplates, hids, h⟩ := Except.bind_eq_ok h
  obtain ⟨fanOuts, hfanOuts, h⟩ := Except.bind_eq_ok h
  obtain ⟨joins, hjoins, h⟩ := Except.bind_eq_ok h
  obtain ⟨filters, hfilters, h⟩ := Except.bind_eq_ok h
  obtain ⟨pipelines, hpipelines, h⟩ := Except.bind_eq_ok h
  obtain ⟨routings, hroutings, h⟩ := Except.bind_eq_ok h
  obtain ⟨appendOnly, happend, h⟩ := Except.bind_eq_ok h
  cases h
  constructor
  case target => exact targetFor_tableMapping hown hmapping he
  case projection => exact collect_lookup hown hprojections he
  case transform => exact collect_lookup hown htransforms he
  case rename => exact collect_lookup hown hrenames he
  case flatten => exact collect_lookup hown hflattens he
  case constant => exact collect_lookup hown hconstants he
  case id => exact collect_lookup hown hids he
  case fanOut => exact collect_lookup hown hfanOuts he
  case join => exact collect_lookup hown hjoins he
  case filter => rw [collect_lookup hown hfilters he, Except.map]
  case pipeline => exact collect_lookup hown hpipelines he
  case routing => exact collect_lookup hown hroutings he
  case appendOnly =>
    have hrule := collect_lookup hown happend he
    rw [appendOnlyRule] at hrule
    change e.2.appendOnly = (appendOnly (splitQualified e.2.table)).isSome
    rw [← Except.ok.inj hrule]
    rcases e.2.appendOnly <;> rfl

/-! ## When nothing is shadowed -/

theorem isQualifiedTable_dot {name : String} (h : isQualifiedTable name) : '.' ∈ name.toList := by
  by_contra hdot
  rw [isQualifiedTable, List.splitOn_eq_singleton hdot] at h
  cases h

/-- A qualified name is its schema and its table. -/
theorem splitQualified_inj {a b : String} (ha : isQualifiedTable a) (hb : isQualifiedTable b)
    (h : splitQualified a = splitQualified b) : a = b := by
  have hsplit : ∀ {name : String}, isQualifiedTable name →
      name.toList = (splitQualified name).1.toList ++ '.' :: (splitQualified name).2.toList := by
    intro name hname
    have happend := List.takeWhile_append_dropWhile (p := (· ≠ '.')) (l := name.toList)
    rw [splitQualified]
    rcases hrest : name.toList.dropWhile (· ≠ '.') with _ | ⟨c, table⟩
    · have hall := List.dropWhile_eq_nil_iff.mp hrest _ (isQualifiedTable_dot hname)
      simp at hall
    · have hc := List.head_dropWhile_not (· ≠ '.') (l := name.toList) (by rw [hrest]; simp)
      simp only [hrest, List.head_cons] at hc
      obtain rfl : c = '.' := by simpa using hc
      rw [hrest] at happend
      simpa using happend.symm
  rw [← String.toList_inj, hsplit ha, hsplit hb, h]

theorem validate_qualified {logFilter : String → Except String Unit} {cfg : AppConfig}
    (h : validate logFilter cfg = .ok ()) (he : e ∈ cfg.sync.entries) :
    isQualifiedTable e.2.table := by
  rw [validate] at h
  obtain ⟨⟨⟩, -, h⟩ := Except.bind_eq_ok h
  obtain ⟨⟨⟩, -, h⟩ := Except.bind_eq_ok h
  obtain ⟨⟨⟩, -, h⟩ := Except.bind_eq_ok h
  obtain ⟨⟨⟩, -, h⟩ := Except.bind_eq_ok h
  obtain ⟨⟨⟩, hsections, h⟩ := Except.bind_eq_ok h
  have hsection := checkEach_ok.mp hsections e he
  rw [checkSection] at hsection
  obtain ⟨⟨⟩, hqualified, -⟩ := Except.bind_eq_ok hsection
  rw [refuse] at hqualified
  split at hqualified
  · cases hqualified
  · next hq => simpa using hq

/-- Of an accepted configuration no section is shadowed if and only if no two sections
have one progress document. -/
theorem unshadowed_iff (alphanumeric : Char → Bool)
    (interpret : TransformOp → Except String (Json → Applied)) (contentId : Json → String)
    {logFilter : String → Except String Unit} {cfg : AppConfig}
    (hvalid : validate logFilter cfg = .ok ()) :
    Unshadowed alphanumeric interpret contentId cfg ↔
      (cfg.sync.entries.map fun e =>
        loadProgressKey alphanumeric (streamId cfg) e.2.table).Nodup := by
  constructor
  · intro h
    exact (readSections_eq_self.mp h.load).1
  · intro hkeys
    have hown : OwnTables cfg.sync := by
      intro a ha b hb htable
      have hname : a.2.table = b.2.table :=
        splitQualified_inj (validate_qualified hvalid ha) (validate_qualified hvalid hb) htable
      exact List.inj_on_of_nodup_map hkeys ha hb
        (congrArg (loadProgressKey alphanumeric (streamId cfg)) hname)
    exact ⟨fun set hset e he => declares_of_ownTables hown hset he,
      readSections_eq_self.mpr ⟨hkeys, fun e _ => List.not_mem_nil⟩, hown⟩

/-- A configuration of the sections given, each of a table. -/
def syncing (sections : List (String × String)) : AppConfig where
  source := {}
  target := { url := "http://localhost:9200" }
  sync := Dictionary.ofList (sections.map fun s => (s.1, { table := s.2 }))

theorem syncing_unshadowed : Unshadowed Char.isAlphanum (fun _ => .error "") Json.render
    (syncing [("users", "public.users"), ("orders", "public.orders")]) := by
  have hvalid : validate (fun _ => .ok ())
      (syncing [("users", "public.users"), ("orders", "public.orders")]) = .ok () := by
    decide +kernel
  exact (unshadowed_iff _ _ _ hvalid).mpr (by decide +kernel)

/-- Two sections of one table pass. The engine has one target for it, and the load
reads it once. -/
theorem syncing_shadowed : validate (fun _ => .ok ())
      (syncing [("people", "public.users"), ("users", "public.users")]) = .ok () ∧
    ¬ Unshadowed Char.isAlphanum (fun _ => .error "") Json.render
      (syncing [("people", "public.users"), ("users", "public.users")]) := by
  have hvalid : validate (fun _ => .ok ())
      (syncing [("people", "public.users"), ("users", "public.users")]) = .ok () := by
    decide +kernel
  refine ⟨hvalid, fun h => ?_⟩
  have hload := congrArg List.length h.load
  exact absurd hload (by decide +kernel)

end Config

end Pg2osync
