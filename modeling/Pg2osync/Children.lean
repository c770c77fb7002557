import Pg2osync.Mapping

/-!
# Tables that are watched for a parent

A section may embed the rows of another table in its documents, directly or through a
junction, or count them. The rows of such a table are no documents: a change of one
names the parents whose documents have to be read again. One table may be watched by
any number of collections, for one parent or for several, and play a different part in
each.
-/

namespace Pg2osync

/-- The junction table a many-to-many child is reached through. -/
structure Through : Type where
  /-- its schema -/
  schema : String
  /-- its name -/
  table : String
  /-- its column that references the child's primary key -/
  throughKey : String
  /-- the child's own primary key -/
  childKey : String

/-- One configured child collection. -/
structure ChildSpec : Type where
  /-- the child's schema -/
  schema : String
  /-- the child's name -/
  table : String
  /-- the field of the parent document -/
  field : String
  /-- the column that references the parent, on the child or on the junction -/
  foreignKey : String
  /-- the junction -/
  through : Option Through

/-- One configured aggregate. -/
structure AggregateSpec : Type where
  /-- the schema of the table it counts -/
  schema : String
  /-- its name -/
  table : String
  /-- the field of the parent document -/
  field : String
  /-- the column that references the parent -/
  foreignKey : String

/-- `ChildSpec::reads`: the child's table, or the junction's. -/
def ChildSpec.reads (t : TableName) (s : ChildSpec) : Bool :=
  (s.schema, s.table) = t || s.through.any fun through => (through.schema, through.table) = t

/-- `AggregateSpec::reads`. -/
def AggregateSpec.reads (t : TableName) (a : AggregateSpec) : Bool :=
  (a.schema, a.table) = t

/-- The tables a collection watches. -/
def ChildSpec.tables (s : ChildSpec) : List TableName :=
  (s.schema, s.table) :: (s.through.map fun through => (through.schema, through.table)).toList

theorem ChildSpec.mem_tables {s : ChildSpec} {t : TableName} :
    t ∈ s.tables ↔ s.reads t = true := by
  rw [tables, reads, List.mem_cons, Bool.or_eq_true, decide_eq_true_eq]
  refine or_congr eq_comm ?_
  cases s.through with
  | none => exact ⟨nofun, nofun⟩
  | some through => exact List.mem_singleton.trans (eq_comm.trans decide_eq_true_iff.symm)

/-- The junction, for a row of the child's own table: what it says of itself is its key,
and the junction has to be asked for the parents. -/
def ChildSpec.throughFor (t : TableName) (s : ChildSpec) : Option Through :=
  s.through.filter fun _ => (s.schema, s.table) = t

/-! ## The configuration of a source -/

/-- Something watches a table for a parent. -/
def watchesFor (children : List ChildSpec) (aggregates : List AggregateSpec) (t : TableName) :
    Bool :=
  children.any (·.reads t) || aggregates.any (·.reads t)

/-- What a source knows of collections. A table that is watched is registered under one
of the parents it is watched for. -/
structure WatchConfig : Type where
  /-- the collections of each parent -/
  children : TableName → List ChildSpec
  /-- the aggregates of each parent -/
  aggregates : TableName → List AggregateSpec
  /-- the parent a watched table is registered under -/
  childParents : TableName → Option TableName
  /-- it is one that watches the table -/
  registered : ∀ {t p}, childParents t = some p →
    watchesFor (children p) (aggregates p) t = true
  /-- and every watched table has one -/
  watched : ∀ {t p}, watchesFor (children p) (aggregates p) t = true → (childParents t).isSome

/-- A section, as far as its collections go. -/
structure WatchedSection : Type where
  /-- the parent's table -/
  table : TableName
  /-- its children -/
  children : List ChildSpec
  /-- its aggregates -/
  aggregates : List AggregateSpec

/-- `child_specs_for`: the children of every section of one table. -/
def childSpecsFor (sections : List WatchedSection) (p : TableName) : List ChildSpec :=
  (sections.filter fun sec => sec.table = p).flatMap WatchedSection.children

/-- `aggregate_specs_for`. -/
def aggregateSpecsFor (sections : List WatchedSection) (p : TableName) : List AggregateSpec :=
  (sections.filter fun sec => sec.table = p).flatMap WatchedSection.aggregates

/-- What the entries of a map say of a key, when a later one replaces an earlier. -/
def lastOf (entries : List (TableName × TableName)) (t : TableName) : Option TableName :=
  (entries.reverse.find? fun entry => entry.1 = t).map Prod.snd

variable {t p : TableName}

theorem lastOf_mem {entries : List (TableName × TableName)} (h : lastOf entries t = some p) :
    (t, p) ∈ entries := by
  obtain ⟨⟨t', p'⟩, hfind, rfl⟩ := Option.map_eq_some_iff.mp h
  have hkey := List.find?_some hfind
  obtain rfl : t' = t := of_decide_eq_true hkey
  exact List.mem_reverse.mp (List.mem_of_find?_eq_some hfind)

theorem lastOf_isSome {entries : List (TableName × TableName)} (h : (t, p) ∈ entries) :
    (lastOf entries t).isSome = true := by
  rw [lastOf, Option.isSome_map, List.find?_isSome]
  exact ⟨(t, p), List.mem_reverse.mpr h, decide_eq_true rfl⟩

/-- The configuration a source is built with, from the entries of its map in the order
they are inserted. -/
def WatchConfig.ofEntries (sections : List WatchedSection) (entries : List (TableName × TableName))
    (h : ∀ t p, (t, p) ∈ entries ↔
      watchesFor (childSpecsFor sections p) (aggregateSpecsFor sections p) t = true) :
    WatchConfig where
  children := childSpecsFor sections
  aggregates := aggregateSpecsFor sections
  childParents := lastOf entries
  registered hp := (h _ _).mp (lastOf_mem hp)
  watched hp := lastOf_isSome ((h _ _).mpr hp)

/-- The entries of one section's children, then of its aggregates. -/
def WatchedSection.childEntries (sec : WatchedSection) : List (TableName × TableName) :=
  (sec.children.flatMap ChildSpec.tables).map fun t => (t, sec.table)

/-- The entries of its aggregates. -/
def WatchedSection.aggregateEntries (sec : WatchedSection) : List (TableName × TableName) :=
  sec.aggregates.map fun a => ((a.schema, a.table), sec.table)

theorem mem_childEntries {sections : List WatchedSection} :
    (t, p) ∈ sections.flatMap WatchedSection.childEntries ↔
      (childSpecsFor sections p).any (·.reads t) = true := by
  simp only [childSpecsFor, WatchedSection.childEntries, List.any_eq_true, List.mem_flatMap,
    List.mem_map, List.mem_filter, decide_eq_true_eq, Prod.mk.injEq, ← ChildSpec.mem_tables]
  constructor
  · rintro ⟨sec, hsec, t', ⟨s, hs, ht⟩, rfl, rfl⟩
    exact ⟨s, ⟨sec, ⟨hsec, rfl⟩, hs⟩, ht⟩
  · rintro ⟨s, ⟨sec, ⟨hsec, rfl⟩, hs⟩, ht⟩
    exact ⟨sec, hsec, t, ⟨s, hs, ht⟩, rfl, rfl⟩

theorem mem_aggregateEntries {sections : List WatchedSection} :
    (t, p) ∈ sections.flatMap WatchedSection.aggregateEntries ↔
      (aggregateSpecsFor sections p).any (·.reads t) = true := by
  simp only [aggregateSpecsFor, WatchedSection.aggregateEntries, List.any_eq_true,
    List.mem_flatMap, List.mem_map, List.mem_filter, decide_eq_true_eq, Prod.mk.injEq,
    AggregateSpec.reads]
  constructor
  · rintro ⟨sec, hsec, a, ha, rfl, rfl⟩
    exact ⟨a, ⟨sec, ⟨hsec, rfl⟩, ha⟩, rfl⟩
  · rintro ⟨a, ⟨sec, ⟨hsec, rfl⟩, ha⟩, rfl⟩
    exact ⟨sec, hsec, a, ha, rfl, rfl⟩

/-- `wal_config`: section after section, in the order of their keys. -/
def walConfig (sections : List WatchedSection) : WatchConfig :=
  .ofEntries sections (sections.flatMap fun sec => sec.childEntries ++ sec.aggregateEntries)
    fun t p => by
      rw [watchesFor, Bool.or_eq_true, ← mem_childEntries, ← mem_aggregateEntries]
      simp only [List.mem_flatMap, List.mem_append]
      constructor
      · rintro ⟨sec, hsec, hchild | haggregate⟩
        · exact .inl ⟨sec, hsec, hchild⟩
        · exact .inr ⟨sec, hsec, haggregate⟩
      · rintro (⟨sec, hsec, hmem⟩ | ⟨sec, hsec, hmem⟩)
        · exact ⟨sec, hsec, .inl hmem⟩
        · exact ⟨sec, hsec, .inr hmem⟩

/-- `mysql_config_for`: the children of every section, then the aggregates, each in the
order a map of them is read in. -/
def mysqlConfig (sections : List WatchedSection) {children aggregates : List WatchedSection}
    (hchildren : children.Perm sections) (haggregates : aggregates.Perm sections) : WatchConfig :=
  .ofEntries sections (children.flatMap WatchedSection.childEntries ++
    aggregates.flatMap WatchedSection.aggregateEntries) fun t p => by
      rw [watchesFor, Bool.or_eq_true, ← mem_childEntries, ← mem_aggregateEntries]
      simp only [List.mem_append, List.mem_flatMap, hchildren.mem_iff, haggregates.mem_iff]

/-! ## What a row of a watched table is part of -/

/-- The part a watched table plays in one collection. -/
inductive Role : Type where
  /-- its rows are embedded, or pair what is -/
  | child (spec : ChildSpec) : Role
  /-- its rows are counted -/
  | aggregate (spec : AggregateSpec) : Role

namespace WatchConfig

variable (cfg : WatchConfig)

/-- A table plays a part for a parent. -/
def Plays (p : TableName) (t : TableName) : Role → Prop
  | .child s => s ∈ cfg.children p ∧ s.reads t = true
  | .aggregate a => a ∈ cfg.aggregates p ∧ a.reads t = true

/-- The part in which a row is read: the first child collection of the parent the table
is registered under, or else the first aggregate. -/
def firstRole (t : TableName) : Option (TableName × Role) :=
  (cfg.childParents t).bind fun p =>
    match (cfg.children p).find? (·.reads t) with
    | some s => some (p, .child s)
    | none => ((cfg.aggregates p).find? (·.reads t)).map fun a => (p, .aggregate a)

end WatchConfig

/-- The keys of a row, by column; a NULL is none. -/
abbrev Keys := String → Option Json

/-- What the junction of a collection pairs a child's key with. -/
abbrev Junctions := ChildSpec → Json → List Json

/-- `parents_through`: without a junction there is nobody to ask. -/
def parentsThrough (junction : Junctions) (s : ChildSpec) (key : Json) : List Json :=
  if s.through.isSome then junction s key else []

/-- The column a row is read by. -/
def Role.column (t : TableName) : Role → String
  | .child s =>
    match s.throughFor t with
    | some through => through.childKey
    | none => s.foreignKey
  | .aggregate a => a.foreignKey

/-- The parents whose documents embed or count a row, in one part: by its foreign key,
or, for the child of a many-to-many relation, by what the junction pairs it with. -/
def Role.parents (junction : Junctions) (t : TableName) (keys : Keys) (role : Role) : List Json :=
  match role with
  | .child s =>
    match s.throughFor t with
    | some through => (keys through.childKey).toList.flatMap (parentsThrough junction s)
    | none => (keys s.foreignKey).toList
  | .aggregate a => (keys a.foreignKey).toList

/-- A parent whose document embeds or counts one of some rows. -/
def Affected (cfg : WatchConfig) (junction : Junctions) (t : TableName) (rows : List Keys)
    (p : TableName) (key : Json) : Prop :=
  ∃ role, cfg.Plays p t role ∧ ∃ keys ∈ rows, key ∈ role.parents junction t keys

/-- What is named is exactly that. -/
def NamesExactly (cfg : WatchConfig) (junction : Junctions) (t : TableName) (rows : List Keys)
    (named : Except CoreError (List (TableName × Json))) : Prop :=
  ∃ parents, named = .ok parents ∧ ∀ p key, (p, key) ∈ parents ↔ Affected cfg junction t rows p key

end Pg2osync
