import Mathlib.Logic.Function.Basic
import Pg2osync.IndexSharing
import Pg2osync.Shadowing

/-!
# The sources of one process

A directory of files is one process that streams several sources at once. Each file is
validated alone, and `validate_across` asks what two of them must not disagree about.
Together these say of the sections that run at once what `Valid` gathers: the index
overlap over all the files, and in each file the junctions and one section for a table.

An edit replaces the sections of one file. `valid_update` is exact about when the
sections are valid afterwards: the ones that enter have to agree with every other.
-/

namespace Pg2osync

open Dictionary

namespace Config

/-! ## Files -/

/-- One source of a directory. -/
structure SourceFile : Type where
  /-- what it answers to -/
  name : String
  /-- the file's name -/
  file : String
  cfg : AppConfig

/-- `checkpoint_doc_id`. -/
def checkpointDocId (alphanumeric : Char → Bool) (stream : StreamId) : String :=
  tame alphanumeric (stream.source ++ "-" ++ stream.stream)

/-- The index that holds checkpoints. -/
def metaIndex : String := ".pg2osync_meta"

/-- The first element whose key an earlier one has, with that one before it. -/
def firstTwice {α : Type} (key : α → String) : List α → List α → Option (α × α)
  | _, [] => none
  | seen, x :: rest =>
    match seen.find? fun s => key s = key x with
    | some first => some (first, x)
    | none => firstTwice key (x :: seen) rest

/-- The sections of the files, each labelled with its file. -/
def sectionsOf (files : List String) (sync : String → Dictionary String TableSync) :
    List Labelled :=
  files.flatMap fun file => (sync file).entries.map fun e => (.inFile file e.1, e.2)

/-- `validate_across`: what two files must not disagree about. -/
def validateAcross (alphanumeric : Char → Bool) (sources : List SourceFile) :
    Except String Unit :=
  match firstTwice SourceFile.name [] sources with
  | some (first, source) => .error ("two sources are called " ++ source.name.quote ++ ": " ++
      first.file ++ " and " ++ source.file ++ ". The name is how a message, a metric and a " ++
      "command line tell them apart, so set [source] name in one of them")
  | none =>
    let document (source : SourceFile) := checkpointDocId alphanumeric (streamId source.cfg)
    match firstTwice document [] sources with
    | some (first, source) =>
      let (namesIt, fix) :=
        if source.cfg.source.flavor = "mysql" then
          ("MySQL server_id " ++ toString source.cfg.source.serverId, "server_id")
        else ("replication slot " ++ source.cfg.source.slotName.quote, "slot_name")
      .error ("duplicate stream identity: " ++ first.file ++ " and " ++ source.file ++
        " both name " ++ namesIt ++ ", so both would keep their position in the one checkpoint " ++
        "document " ++ metaIndex ++ "/" ++ document source ++ " and each would resume from the " ++
        "other's. Give every source a [source] " ++ fix ++ " of its own")
    | none => checkIndexOverlap (sources.flatMap fun source =>
        source.cfg.sync.entries.map fun e => (.inFile source.file e.1, e.2))

/-! ## Junctions -/

/-- Two sections name one parent for a junction that both use. -/
def JunctionsAgree (s t : TableSync) : Prop :=
  ∀ c ∈ s.children, ∀ d ∈ t.children, ∀ through, c.through = some through →
    d.through = some through → (s.table, c.foreignKey) = (t.table, d.foreignKey)

/-- A child's junction names the parent that one seen before does. -/
def SeenAgrees (seen : String × String × String × String)
    (child : String × TableSync × ChildJoin) : Prop :=
  child.2.2.through = some seen.1 →
    (seen.2.1, seen.2.2.1) = (child.2.1.table, child.2.2.foreignKey)

/-- Two children with one junction name one parent through it. -/
def ChildrenAgree (a b : String × TableSync × ChildJoin) : Prop :=
  ∀ through, a.2.2.through = some through → b.2.2.through = some through →
    (a.2.1.table, a.2.2.foreignKey) = (b.2.1.table, b.2.2.foreignKey)

theorem ChildrenAgree.symm {a b : String × TableSync × ChildJoin} (h : ChildrenAgree a b) :
    ChildrenAgree b a :=
  fun through hbt hat => (h through hat hbt).symm

theorem childrenAgree_cons {c : String × TableSync × ChildJoin}
    {rest : List (String × TableSync × ChildJoin)} :
    (∀ a ∈ c :: rest, ∀ b ∈ c :: rest, ChildrenAgree a b) ↔
      (∀ b ∈ rest, ChildrenAgree c b) ∧ ∀ a ∈ rest, ∀ b ∈ rest, ChildrenAgree a b := by
  simp only [List.forall_mem_cons]
  constructor
  · rintro ⟨⟨-, hnew⟩, hrest⟩
    exact ⟨hnew, fun a ha => (hrest a ha).2⟩
  · rintro ⟨hnew, hrest⟩
    exact ⟨⟨fun _ _ _ => rfl, hnew⟩, fun a ha => ⟨(hnew a ha).symm, hrest a ha⟩⟩

theorem checkJunctions_iff {seen : List (String × String × String × String)}
    {children : List (String × TableSync × ChildJoin)}
    (hseen : (seen.map Prod.fst).Nodup) : checkJunctions seen children = .ok () ↔
      (∀ s ∈ seen, ∀ c ∈ children, SeenAgrees s c) ∧
      ∀ a ∈ children, ∀ b ∈ children, ChildrenAgree a b := by
  induction children generalizing seen with
  | nil => simp [checkJunctions]
  | cons c rest ih =>
    obtain ⟨key, tbl, child⟩ := c
    rw [checkJunctions, childrenAgree_cons]
    simp only [List.forall_mem_cons, forall₂_and]
    split
    · next hnone =>
      -- no junction, nothing to agree on
      have hold : ∀ s ∈ seen, SeenAgrees s (key, tbl, child) := fun s _ h => by
        cases hnone.symm.trans h
      have hnew : ∀ b ∈ rest, ChildrenAgree (key, tbl, child) b := fun b _ through h => by
        cases hnone.symm.trans h
      rw [ih hseen]
      exact ⟨fun h => ⟨⟨hold, h.1⟩, hnew, h.2⟩, fun h => ⟨h.1.2, h.2.2⟩⟩
    next through hthrough =>
    split
    · next t table foreignKey first hfind =>
      have hmem := List.mem_of_find?_eq_some hfind
      have hname : t = through := by simpa using List.find?_some hfind
      subst hname
      split
      · next hsame =>
        have hold : ∀ s ∈ seen, SeenAgrees s (key, tbl, child) := fun s hs h => by
          have hone := List.inj_on_of_nodup_map hseen hs hmem
            (Option.some.inj (h.symm.trans hthrough))
          rw [hone]
          exact hsame
        rw [ih hseen]
        refine ⟨fun h => ⟨⟨hold, h.1⟩, fun b hb other hct hbt => ?_, h.2⟩,
          fun h => ⟨h.1.2, h.2.2⟩⟩
        exact hsame.symm.trans (h.1 _ hmem b hb (hbt.trans (hct.symm.trans hthrough)))
      · next hdiffer =>
        refine ⟨fun h => (by cases h), fun h => ?_⟩
        exact absurd (h.1.1 _ hmem hthrough) hdiffer
    · next hfind =>
      have hfresh : ∀ s ∈ seen, s.1 ≠ through := by
        intro s hs
        simpa using List.find?_eq_none.mp hfind s hs
      have hold : ∀ s ∈ seen, SeenAgrees s (key, tbl, child) := fun s hs h =>
        absurd (Option.some.inj (h.symm.trans hthrough)) (hfresh s hs)
      rw [ih (by
        rw [List.map_append, List.nodup_append]
        refine ⟨hseen, List.nodup_singleton _, fun a ha b hb hab => ?_⟩
        obtain ⟨s, hs, rfl⟩ := List.mem_map.mp ha
        exact hfresh s hs (hab.trans (List.mem_singleton.mp hb)))]
      simp only [List.forall_mem_append, List.forall_mem_singleton]
      -- what has been seen of this child says of a later one what the child does
      constructor
      · rintro ⟨⟨hseen', hnew⟩, hrest⟩
        exact ⟨⟨hold, hseen'⟩, fun b hb other hct hbt =>
          hnew b hb (hbt.trans (hct.symm.trans hthrough)), hrest⟩
      · rintro ⟨⟨-, hseen'⟩, hnew, hrest⟩
        exact ⟨⟨hseen', fun b hb hbt => hnew b hb through hthrough hbt⟩, hrest⟩

theorem mem_allChildren {sync : Dictionary String TableSync} {c : String × TableSync × ChildJoin} :
    c ∈ allChildren sync ↔ sync.get? c.1 = some c.2.1 ∧ c.2.2 ∈ c.2.1.children := by
  rw [allChildren, List.mem_flatMap]
  constructor
  · rintro ⟨⟨key, tbl⟩, he, hc⟩
    obtain ⟨child, hchild, rfl⟩ := List.mem_map.mp hc
    exact ⟨mem_entries_iff.mp he, hchild⟩
  · rintro ⟨hget, hchild⟩
    exact ⟨(c.1, c.2.1), mem_entries_iff.mpr hget, List.mem_map.mpr ⟨c.2.2, hchild, rfl⟩⟩

/-- The junctions of a file are accepted if and only if those of any two sections agree. -/
theorem checkJunctions_sync {sync : Dictionary String TableSync} :
    checkJunctions [] (allChildren sync) = .ok () ↔
      ∀ key s, sync.get? key = some s → ∀ other t, sync.get? other = some t →
        JunctionsAgree s t := by
  have hnil : ((([] : List (String × String × String × String))).map Prod.fst).Nodup :=
    List.nodup_nil
  rw [checkJunctions_iff hnil]
  constructor
  · rintro ⟨-, h⟩ key s hs other t ht c hc d hd through
    exact h (key, s, c) (mem_allChildren.mpr ⟨hs, hc⟩) (other, t, d)
      (mem_allChildren.mpr ⟨ht, hd⟩) through
  · intro h
    refine ⟨fun s hs => absurd hs List.not_mem_nil, fun a ha b hb through => ?_⟩
    obtain ⟨hga, hca⟩ := mem_allChildren.mp ha
    obtain ⟨hgb, hcb⟩ := mem_allChildren.mp hb
    exact h a.1 a.2.1 hga b.1 b.2.1 hgb a.2.2 hca b.2.2 hcb through

/-! ## Sections that run at once -/

/-- What startup asks of the sections of several files, with one section for a table. -/
structure Valid (files : List String) (sync : String → Dictionary String TableSync) : Prop where
  overlap : checkIndexOverlap (sectionsOf files sync) = .ok ()
  junctions : ∀ file ∈ files, checkJunctions [] (allChildren (sync file)) = .ok ()
  tables : ∀ file ∈ files, OwnTables (sync file)

variable {sync : String → Dictionary String TableSync} {files : List String}

theorem mem_sectionsOf {s : Labelled} : s ∈ sectionsOf files sync ↔
      ∃ file ∈ files, ∃ key, s.1 = .inFile file key ∧ (sync file).get? key = some s.2 := by
  rw [sectionsOf, List.mem_flatMap]
  constructor
  · rintro ⟨file, hfile, hs⟩
    obtain ⟨e, he, rfl⟩ := List.mem_map.mp hs
    exact ⟨file, hfile, e.1, rfl, mem_entries_iff.mp he⟩
  · rintro ⟨file, hfile, key, hlabel, hget⟩
    refine ⟨file, hfile, List.mem_map.mpr ⟨(key, s.2), mem_entries_iff.mpr hget, ?_⟩⟩
    rw [← hlabel]

theorem inFile_inj {file file' key key' : String} (h : Label.inFile file key = .inFile file' key') :
    file = file' ∧ key = key' := by
  cases h
  exact ⟨rfl, rfl⟩

theorem nodup_labels (hfiles : files.Nodup) (sync : String → Dictionary String TableSync) :
    ((sectionsOf files sync).map Prod.fst).Nodup := by
  induction files with
  | nil => exact List.nodup_nil
  | cons file files ih =>
    rw [List.nodup_cons] at hfiles
    rw [sectionsOf, List.flatMap_cons, List.map_append, List.nodup_append]
    refine ⟨?_, ih hfiles.2, ?_⟩
    · rw [List.map_map]
      have hkeys := nodup_keys (sync file)
      rw [keys] at hkeys
      refine List.Nodup.map_on ?_ (List.Nodup.of_map _ hkeys)
      intro a ha b hb hlabel
      exact List.inj_on_of_nodup_map hkeys ha hb (inFile_inj hlabel).2
    · intro label hown other hother heq
      subst heq
      obtain ⟨s, hs, rfl⟩ := List.mem_map.mp hown
      obtain ⟨e, -, rfl⟩ := List.mem_map.mp hs
      obtain ⟨t, ht, hlabel⟩ := List.mem_map.mp hother
      obtain ⟨file', hfile', key, hkey, -⟩ := mem_sectionsOf.mp ht
      rw [hkey] at hlabel
      exact hfiles.1 ((inFile_inj hlabel).1 ▸ hfile')

/-- Every child of a join has a parent in its own file. -/
def OwnParents (sync : Dictionary String TableSync) : Prop :=
  ∀ key s, sync.get? key = some s → ∀ join column, s.join = some join →
    join.parent = some column → ∃ parentKey p, sync.get? parentKey = some p ∧
      p.indexName parentKey = s.indexName key ∧
      ∃ other, p.join = some other ∧ other.parent = none

theorem hasParents_sectionsOf (h : ∀ file ∈ files, OwnParents (sync file)) :
    HasParents (sectionsOf files sync) := by
  intro s hs join column hjoin hcolumn
  obtain ⟨file, hfile, key, hlabel, hget⟩ := mem_sectionsOf.mp hs
  obtain ⟨parentKey, p, hp, hname, hparent⟩ := h file hfile key s.2 hget join column hjoin hcolumn
  refine ⟨(.inFile file parentKey, p), mem_sectionsOf.mpr ⟨file, hfile, parentKey, rfl, hp⟩, ?_,
    hparent⟩
  rw [Labelled.indexName, Labelled.indexName, hlabel]
  exact hname

theorem Shares.symm {s t : TableSync} (h : Shares s t) : Shares t s := by
  rcases hs : s.join with _ | js
  · rcases ht : t.join with _ | jt
    all_goals rw [Shares, hs, ht] at h
    · rw [Shares, hs, ht]
      exact ⟨h.2.1, h.1, fun hboth => h.2.2 ⟨hboth.2, hboth.1⟩⟩
    · exact h.elim
  · rcases ht : t.join with _ | jt
    all_goals rw [Shares, hs, ht] at h
    · exact h.elim
    · rw [Shares, hs, ht]
      exact ⟨h.1.symm, h.2.1.symm, fun hboth => h.2.2.1 ⟨hboth.2, hboth.1⟩, h.2.2.2.2,
        h.2.2.2.1⟩

theorem JunctionsAgree.symm {s t : TableSync} (h : JunctionsAgree s t) : JunctionsAgree t s :=
  fun c hc d hd through hct hdt => (h d hd c hc through hdt hct).symm

/-- The sections that one file gets and does not run yet agree with all the others: no
template claims what is another's, an index is shared as it may be, and in the file the
table is theirs alone and junctions name one parent. -/
def Enters (files : List String) (sync : String → Dictionary String TableSync) (file : String)
    (next : Dictionary String TableSync) : Prop :=
  ∀ key s, next.get? key = some s → (sync file).get? key ≠ some s →
    (∀ other ∈ sectionsOf files (Function.update sync file next), other.1 ≠ .inFile file key →
      LeavesAlone (.inFile file key, s) other ∧ LeavesAlone other (.inFile file key, s) ∧
      (s.indexName key = other.indexName → Shares s other.2)) ∧
    (∀ otherKey t, next.get? otherKey = some t → otherKey ≠ key →
      splitQualified s.table ≠ splitQualified t.table) ∧
    ∀ otherKey t, next.get? otherKey = some t → JunctionsAgree s t

/-- Sections that are valid stay valid with those of one file replaced if and only if the
ones that enter agree with all the others. -/
theorem valid_update (hfiles : files.Nodup) (hvalid : Valid files sync)
    (hparents : ∀ file ∈ files, OwnParents (sync file)) {file : String} (hfile : file ∈ files)
    {next : Dictionary String TableSync} (hnext : OwnParents next)
    (htargets : ∀ key s, next.get? key = some s → ∃ target, s.indexTarget key [] = .ok target) :
    Valid files (Function.update sync file next) ↔ Enters files sync file next := by
  have hself : ∀ f, f ≠ file → Function.update sync file next f = sync f := fun f hf =>
    Function.update_of_ne hf next sync
  constructor
  · intro h key s hs _
    obtain ⟨-, hpairs, -⟩ := (checkIndexOverlap_iff (nodup_labels hfiles _)).mp h.overlap
    have hown : (Label.inFile file key, s) ∈ sectionsOf files (Function.update sync file next) :=
      mem_sectionsOf.mpr ⟨file, hfile, key, rfl, by rw [Function.update_self]; exact hs⟩
    refine ⟨fun other hother hne => ?_, fun otherKey t ht hne hsame => ?_,
      fun otherKey t ht => ?_⟩
    · obtain ⟨halone, hshares⟩ := hpairs _ hown other hother (Ne.symm hne)
      exact ⟨halone, (hpairs other hother _ hown hne).1, hshares⟩
    · have htables := h.tables file hfile
      rw [Function.update_self] at htables
      have heq := htables (key, s) (mem_entries_iff.mpr hs) (otherKey, t)
        (mem_entries_iff.mpr ht) hsame
      exact hne (congrArg Prod.fst heq).symm
    · have hjunctions := h.junctions file hfile
      rw [Function.update_self] at hjunctions
      exact checkJunctions_sync.mp hjunctions key s hs otherKey t ht
  · intro henters
    obtain ⟨htargets', hpairs, -⟩ :=
      (checkIndexOverlap_iff (nodup_labels hfiles _)).mp hvalid.overlap
    -- a section that runs afterwards ran before, or enters
    have hcases : ∀ s ∈ sectionsOf files (Function.update sync file next),
        s ∈ sectionsOf files sync ∨ ∃ key, s.1 = .inFile file key ∧ next.get? key = some s.2 ∧
          (sync file).get? key ≠ some s.2 := by
      intro s hs
      obtain ⟨f, hf, key, hlabel, hget⟩ := mem_sectionsOf.mp hs
      by_cases hff : f = file
      · subst hff
        rw [Function.update_self] at hget
        by_cases hold : (sync f).get? key = some s.2
        · exact .inl (mem_sectionsOf.mpr ⟨f, hf, key, hlabel, hold⟩)
        · exact .inr ⟨key, hlabel, hget, hold⟩
      · rw [hself f hff] at hget
        exact .inl (mem_sectionsOf.mpr ⟨f, hf, key, hlabel, hget⟩)
    constructor
    · refine (checkIndexOverlap_iff (nodup_labels hfiles _)).mpr ⟨?_, ?_, ?_⟩
      · intro s hs
        rcases hcases s hs with hold | ⟨key, hlabel, hget, -⟩
        · exact htargets' s hold
        · rw [hlabel]
          exact htargets key s.2 hget
      · rintro ⟨la, a⟩ ha ⟨lb, b⟩ hb hne
        rcases hcases _ ha with holda | ⟨key, rfl, hget, hnew⟩
        · rcases hcases _ hb with holdb | ⟨key, rfl, hget, hnew⟩
          · exact hpairs _ holda _ holdb hne
          · obtain ⟨-, halone, hshares⟩ := (henters key b hget hnew).1 _ ha hne
            exact ⟨halone, fun hname => (hshares hname.symm).symm⟩
        · obtain ⟨halone, -, hshares⟩ := (henters key a hget hnew).1 _ hb (Ne.symm hne)
          exact ⟨halone, hshares⟩
      · apply hasParents_sectionsOf
        intro f hf
        by_cases hff : f = file
        · rw [hff, Function.update_self]
          exact hnext
        · rw [hself f hff]
          exact hparents f hf
    · intro f hf
      by_cases hff : f = file
      · subst hff
        rw [Function.update_self]
        have hjunctions := checkJunctions_sync.mp (hvalid.junctions f hf)
        refine checkJunctions_sync.mpr fun key s hs other t ht => ?_
        by_cases hold : (sync f).get? key = some s
        · by_cases hold' : (sync f).get? other = some t
          · exact hjunctions key s hold other t hold'
          · exact ((henters other t ht hold').2.2 key s hs).symm
        · exact (henters key s hs hold).2.2 other t ht
      · rw [hself f hff]
        exact hvalid.junctions f hf
    · intro f hf
      by_cases hff : f = file
      · subst hff
        rw [Function.update_self]
        rintro ⟨ka, a⟩ ha ⟨kb, b⟩ hb hsame
        have hga := mem_entries_iff.mp ha
        have hgb := mem_entries_iff.mp hb
        by_cases hkeys : kb = ka
        · subst hkeys
          rw [Option.some.inj (hga.symm.trans hgb)]
        · exfalso
          by_cases hold : (sync f).get? ka = some a
          · by_cases hold' : (sync f).get? kb = some b
            · have heq := hvalid.tables f hf (ka, a) (mem_entries_iff.mpr hold) (kb, b)
                (mem_entries_iff.mpr hold') hsame
              exact hkeys (congrArg Prod.fst heq).symm
            · exact (henters kb b hgb hold').2.1 ka a hga (Ne.symm hkeys) hsame.symm
          · exact (henters ka a hga hold).2.1 kb b hgb hkeys hsame
      · rw [hself f hff]
        exact hvalid.tables f hf

end Config

end Pg2osync
