import Pg2osync.Classify

/-!
# When every parent is named

A source reads a watched row in one part only: the first collection of the one parent
the table is registered under. Of a child collection's row it reads the newer image
only, of a counted row both. So it names every parent where nothing else that reads
the table, and nothing in the row as it was, refers to another.
-/

namespace Pg2osync

open WatchConfig

/-! ## The part a row is read in -/

/-- The images a row is read from, of those that are carried. -/
def Role.images {α : Type} (all : List α) : Role → List α
  | .child _ => all.take 1
  | .aggregate _ => all

/-- What reading one image comes to. -/
def Role.named (cfg : WatchConfig) (junction : Junctions) (p t : TableName) (keys : Keys)
    (role : Role) : List Json :=
  match role with
  | .child s =>
    match s.throughFor t with
    | some through => (keys through.childKey).toList.flatMap (resolveThrough cfg junction p s.field)
    | none => (keys s.foreignKey).toList
  | .aggregate a => (keys a.foreignKey).toList

/-- Nothing refers to a parent but what is read. -/
structure ReadsAll (cfg : WatchConfig) (junction : Junctions) (t : TableName)
    (rows images : List Keys) (p : TableName) (role : Role) : Prop where
  /-- no other part and no image that is not read refers to another parent -/
  only : ∀ q key, Affected cfg junction t rows q key →
    q = p ∧ ∃ keys ∈ role.images images, key ∈ role.named cfg junction p t keys
  /-- and the collection that is found by its field pairs a child with no other -/
  found : ∀ s through, role = .child s → s.throughFor t = some through →
    ∀ keys ∈ role.images images, ∀ child, keys through.childKey = some child →
      ∀ key ∈ resolveThrough cfg junction p s.field child, Affected cfg junction t rows p key

variable {cfg : WatchConfig} {junction : Junctions} {t p : TableName} {role : Role}

theorem watchesFor_of_plays (h : cfg.Plays p t role) :
    watchesFor (cfg.children p) (cfg.aggregates p) t = true := by
  rw [watchesFor, Bool.or_eq_true, List.any_eq_true, List.any_eq_true]
  cases role with
  | child s => exact .inl ⟨s, h⟩
  | aggregate a => exact .inr ⟨a, h⟩

/-- A watched table is read in some part. -/
theorem firstRole_isSome (h : cfg.Plays p t role) :
    ∃ p' role', cfg.firstRole t = some (p', role') := by
  obtain ⟨p', hparent⟩ := Option.isSome_iff_exists.mp (cfg.watched (watchesFor_of_plays h))
  have hreads := cfg.registered hparent
  simp only [firstRole, hparent, Option.bind_some]
  cases hchild : (cfg.children p').find? (·.reads t) with
  | some s => exact ⟨p', .child s, rfl⟩
  | none =>
    rw [watchesFor, Bool.or_eq_true, List.any_eq_true, List.any_eq_true] at hreads
    obtain hsome | hsome := hreads
    · rw [← List.find?_isSome, hchild] at hsome
      cases hsome
    · obtain ⟨a, ha⟩ := Option.isSome_iff_exists.mp (List.find?_isSome.mpr hsome)
      exact ⟨p', .aggregate a, by rw [ha]; rfl⟩

/-- The part is one it plays, and the parent the one it is registered under. -/
theorem firstRole_eq (h : cfg.firstRole t = some (p, role)) :
    cfg.childParents t = some p ∧ cfg.Plays p t role ∧
      match role with
      | .child s => (cfg.children p).find? (·.reads t) = some s
      | .aggregate a => (cfg.children p).find? (·.reads t) = none ∧
        (cfg.aggregates p).find? (·.reads t) = some a := by
  obtain ⟨p', hparent, h⟩ := Option.bind_eq_some_iff.mp h
  split at h
  · next s hfind =>
    cases h
    exact ⟨hparent, ⟨List.mem_of_find?_eq_some hfind, List.find?_some hfind⟩, hfind⟩
  · next hnone =>
    obtain ⟨a, hfind, heq⟩ := Option.map_eq_some_iff.mp h
    cases heq
    exact ⟨hparent, ⟨List.mem_of_find?_eq_some hfind, List.find?_some hfind⟩, hnone, hfind⟩

theorem Role.images_subset {α : Type} {all : List α} {image : α} (h : image ∈ role.images all) :
    image ∈ all := by
  cases role with
  | child s => exact List.mem_of_mem_take h
  | aggregate a => exact h

/-- What is read in a part is what the part refers to, but for a junction. -/
theorem Role.named_eq (hplain : ∀ s through, role = .child s → s.throughFor t ≠ some through)
    (keys : Keys) : role.named cfg junction p t keys = role.parents junction t keys := by
  cases role with
  | aggregate a => rfl
  | child s =>
    rw [named, parents]
    cases hthrough : s.throughFor t with
    | none => rfl
    | some through => exact absurd hthrough (hplain s through rfl)

variable {key : Json}

theorem Role.parents_mono {keys keys' : Keys}
    (hsub : ∀ column value, keys column = some value → keys' column = some value)
    (h : key ∈ role.parents junction t keys) : key ∈ role.parents junction t keys' := by
  cases role with
  | aggregate a => exact Option.mem_toList.mpr (hsub _ _ (Option.mem_toList.mp h))
  | child s =>
    rw [parents] at h ⊢
    split at h
    · obtain ⟨child, hchild, hkey⟩ := List.mem_flatMap.mp h
      exact List.mem_flatMap.mpr
        ⟨child, Option.mem_toList.mpr (hsub _ _ (Option.mem_toList.mp hchild)), hkey⟩
    · exact Option.mem_toList.mpr (hsub _ _ (Option.mem_toList.mp h))

/-- **What is read in one part names every parent exactly where nothing else refers to
one.** -/
theorem namesExactly_iff_readsAll {rows images : List Keys} {parents : List (TableName × Json)}
    (hfirst : cfg.firstRole t = some (p, role))
    (himages : ∀ keys ∈ images, ∃ row ∈ rows,
      ∀ column value, keys column = some value → row column = some value)
    (hnamed : ∀ q key, (q, key) ∈ parents ↔
      q = p ∧ ∃ keys ∈ role.images images, key ∈ role.named cfg junction p t keys) :
    NamesExactly cfg junction t rows (.ok parents) ↔
      ReadsAll cfg junction t rows images p role := by
  obtain ⟨-, hplays, -⟩ := firstRole_eq hfirst
  constructor
  · rintro ⟨_, heq, hexact⟩
    cases heq
    refine ⟨fun q key haffected => (hnamed q key).mp ((hexact q key).mpr haffected), ?_⟩
    rintro s through rfl hthrough keys hkeys child hchild key hkey
    refine (hexact p key).mp ((hnamed p key).mpr ⟨rfl, keys, hkeys, ?_⟩)
    simp only [Role.named, hthrough]
    exact List.mem_flatMap.mpr ⟨child, Option.mem_toList.mpr hchild, hkey⟩
  · rintro ⟨honly, hfound⟩
    refine ⟨parents, rfl, fun q key => (hnamed q key).trans ⟨?_, honly q key⟩⟩
    rintro ⟨rfl, keys, hkeys, hkey⟩
    by_cases hplain : ∀ s through, role = .child s → s.throughFor t ≠ some through
    · -- the row has what its image has
      obtain ⟨row, hrow, hsub⟩ := himages keys (Role.images_subset hkeys)
      rw [Role.named_eq hplain] at hkey
      exact ⟨role, hplays, row, hrow, Role.parents_mono hsub hkey⟩
    · simp only [not_forall, not_not] at hplain
      obtain ⟨s, through, rfl, hthrough⟩ := hplain
      simp only [Role.named, hthrough] at hkey
      obtain ⟨child, hchild, hkey⟩ := List.mem_flatMap.mp hkey
      exact hfound s through rfl hthrough keys hkeys child (Option.mem_toList.mp hchild) key hkey

/-! ## PostgreSQL -/

/-- A column of a tuple can be read: the relation has it, and its text converts. -/
def Relation.Decodes (convert : ℕ → String → Except CoreError Json) (rel : Relation)
    (column : String) (tuple : Tuple) : Prop :=
  ∃ value, rel.readColumn convert "child key decode" column tuple = .ok value

/-- The PostgreSQL source reads a row as a parent's: the key is in the newer tuple and is
not NULL, and nothing refers to a parent but what is read. -/
def WalSuits (cfg : WatchConfig) (junction : Junctions)
    (convert : ℕ → String → Except CoreError Json) (rel : Relation) (toasted : String → Bool)
    (event : RowEvent DbRow) : Prop :=
  ∃ p role, cfg.firstRole rel.tableName = some (p, role) ∧
    (rel.tupleKeys convert (rel.incoming toasted event).tuple
      (role.column rel.tableName)).isSome = true ∧
    (∀ tuple ∈ role.images (rel.incoming toasted event).tuples,
      rel.Decodes convert (role.column rel.tableName) tuple) ∧
    ReadsAll cfg junction rel.tableName (event.rows.map (rel.rowKeys convert))
      ((rel.incoming toasted event).tuples.map (rel.tupleKeys convert)) p role

variable {column : String} {c : Classified}

namespace Relation

variable {convert : ℕ → String → Except CoreError Json} {rel : Relation} {tuple : Tuple}

/-- What a column reads as does not depend on what its error would say. -/
theorem readColumn_context {context context' column : String} {value : Json}
    (h : rel.readColumn convert context column tuple = .ok value) :
    rel.readColumn convert context' column tuple = .ok value := by
  rw [readColumn] at h ⊢
  split at h
  · cases h
  · next idx hidx =>
    split at h
    · exact h
    · cases h

theorem tupleKeys_eq_some (context : String) {value : Json} :
    rel.tupleKeys convert tuple column = some value ↔
      rel.readColumn convert context column tuple = .ok value ∧ value ≠ .null := by
  rw [tupleKeys]
  constructor
  · intro h
    split at h
    · next v hv =>
      split at h
      · cases h
      · next hne =>
        cases h
        exact ⟨readColumn_context hv, hne⟩
    · cases h
  · rintro ⟨hok, hne⟩
    rw [readColumn_context hok]
    exact if_neg hne

/-- A value that is not NULL was carried as text. -/
theorem convertColumnAt_text {idx : ℕ} {value : Json}
    (h : rel.convertColumnAt convert idx tuple = .ok value) (hne : value ≠ .null) :
    ∃ raw, tuple[idx]? = some (.text raw) := by
  rw [convertColumnAt] at h
  split at h
  · next c raw hc hraw => exact ⟨raw, hraw⟩
  · exact absurd (Except.ok.inj h).symm hne

/-- A tuple that carries less of a row reads no other key from it. -/
theorem tupleKeys_mono {tuple tuple' : Tuple}
    (h : ∀ (idx : ℕ) (raw : String), tuple[idx]? = some (TupleValue.text raw) →
      tuple'[idx]? = some (TupleValue.text raw)) {value : Json}
    (hkey : rel.tupleKeys convert tuple column = some value) :
    rel.tupleKeys convert tuple' column = some value := by
  rw [tupleKeys_eq_some ""] at hkey ⊢
  obtain ⟨hok, hne⟩ := hkey
  refine ⟨?_, hne⟩
  rw [readColumn] at hok ⊢
  split at hok
  · cases hok
  · next idx hidx =>
    have hvalue : rel.convertColumnAt convert idx tuple = .ok value := by
      split at hok
      · next hread =>
        cases hok
        exact hread
      · cases hok
    obtain ⟨raw, hraw⟩ := convertColumnAt_text hvalue hne
    have hsame : rel.convertColumnAt convert idx tuple' = .ok value := by
      rw [convertColumnAt, hraw] at hvalue
      rw [convertColumnAt, h idx raw hraw]
      exact hvalue
    simp only [hsame]

/-- What the log carries of a row, the row has. -/
theorem tupleKeys_rowKeys {carries : RelationColumn → TupleValue} {row : DbRow}
    (h : ∀ c raw, carries c = .text raw → carried row c = .text raw) {value : Json}
    (hkey : rel.tupleKeys convert (rel.columns.map carries) column = some value) :
    rel.rowKeys convert row column = some value := by
  refine tupleKeys_mono (fun idx raw hraw => ?_) hkey
  rw [List.getElem?_map, Option.map_eq_some_iff] at hraw
  obtain ⟨c, hc, hcarries⟩ := hraw
  rw [fullTuple, List.getElem?_map, hc, Option.map_some, h c raw hcarries]

/-- Each tuple of a message is of a row of its event. -/
theorem tuples_rows {toasted : String → Bool} {event : RowEvent DbRow} {keys : Keys}
    (h : keys ∈ (rel.incoming toasted event).tuples.map (rel.tupleKeys convert)) :
    ∃ row ∈ event.rows.map (rel.rowKeys convert),
      ∀ column value, keys column = some value → row column = some value := by
  have hfull : ∀ (row : DbRow) (column : String) (value : Json),
      rel.tupleKeys convert (rel.fullTuple row) column = some value →
        rel.rowKeys convert row column = some value := fun _ _ _ hkey => hkey
  have hkeys : ∀ (row : DbRow) (column : String) (value : Json),
      rel.tupleKeys convert (rel.keyTuple row) column = some value →
        rel.rowKeys convert row column = some value := by
    intro row column value hkey
    refine tupleKeys_rowKeys (fun c raw hraw => ?_) hkey
    split at hraw
    · exact hraw
    · cases hraw
  obtain ⟨tuple, htuple, rfl⟩ := List.mem_map.mp h
  cases event with
  | insert new =>
    obtain rfl := List.mem_singleton.mp htuple
    exact ⟨_, List.mem_singleton.mpr rfl, hfull new⟩
  | update old new =>
    simp only [RowEvent.rows, List.map_cons, List.map_nil, List.mem_cons, exists_eq_or_imp]
    have hnew : ∀ (column : String) (value : Json),
        rel.tupleKeys convert (rel.newTuple toasted old new) column = some value →
          rel.rowKeys convert new column = some value := by
      intro column value hkey
      refine tupleKeys_rowKeys (fun c raw hraw => ?_) hkey
      split at hraw
      · cases hraw
      · exact hraw
    simp only [incoming] at htuple
    split at htuple
    · obtain rfl | hold := List.mem_cons.mp htuple
      · exact .inl hnew
      · obtain rfl := List.mem_singleton.mp hold
        exact .inr (.inl (hfull old))
    · split at htuple
      · obtain rfl := List.mem_singleton.mp htuple
        exact .inl hnew
      · obtain rfl | hold := List.mem_cons.mp htuple
        · exact .inl hnew
        · obtain rfl := List.mem_singleton.mp hold
          exact .inr (.inl (hkeys old))
  | delete old =>
    refine ⟨_, List.mem_singleton.mpr rfl, ?_⟩
    obtain rfl := List.mem_singleton.mp htuple
    intro column value hkey
    split at hkey
    · exact hfull old column value hkey
    · exact hkeys old column value hkey

/-! ### What is named -/

theorem namesChildParent_eq {p : TableName} {spec : ChildSpec} {incoming : Incoming} {value : Json}
    (h : rel.tupleKeys convert incoming.tuple ((Role.child spec).column rel.tableName) =
      some value) :
    rel.namesChildParent convert p spec incoming = .ok (match spec.throughFor rel.tableName with
      | some _ => .namesThrough p spec.field value
      | none => .namesParent p [value]) := by
  obtain ⟨hok, hne⟩ := (tupleKeys_eq_some "child key decode").mp h
  rw [namesChildParent, hok]
  change (if value = .null then _ else _) = _
  rw [if_neg hne]
  cases spec.throughFor rel.tableName <;> rfl

theorem namesChildParent_ok {p : TableName} {spec : ChildSpec} {incoming : Incoming}
    (h : rel.namesChildParent convert p spec incoming = .ok c) :
    (rel.tupleKeys convert incoming.tuple ((Role.child spec).column rel.tableName)).isSome := by
  obtain ⟨value, hok, hrest⟩ := Except.bind_eq_ok h
  split at hrest
  · cases hrest
  · next hne =>
    rw [(tupleKeys_eq_some "child key decode").mpr ⟨hok, hne⟩]
    rfl

theorem decodes_of_readColumn {context column : String} {value : Json}
    (h : rel.readColumn convert context column tuple = .ok value) :
    rel.Decodes convert column tuple :=
  ⟨value, readColumn_context h⟩

variable {spec : AggregateSpec}

/-- The tuples behind the first add the parents they name, if they can be read. -/
theorem aggregateKeys_succ {tuples : List Tuple} {nth : ℕ} {keys result : List Json}
    (h : rel.aggregateKeys convert spec (nth + 1) tuples keys = .ok result) :
    (∀ tuple ∈ tuples, rel.Decodes convert spec.foreignKey tuple) ∧
      ∀ key, key ∈ result ↔ key ∈ keys ∨
        ∃ tuple ∈ tuples, rel.tupleKeys convert tuple spec.foreignKey = some key := by
  induction tuples generalizing nth keys with
  | nil =>
    cases h
    exact ⟨nofun, fun key => ⟨.inl, fun hkey => hkey.resolve_right nofun⟩⟩
  | cons tuple rest ih =>
    rw [aggregateKeys] at h
    obtain ⟨value, hread, hrest⟩ := Except.bind_eq_ok h
    have hkeys : ∀ key, rel.tupleKeys convert tuple spec.foreignKey = some key ↔
        value = key ∧ key ≠ .null := fun key => by
      rw [tupleKeys_eq_some "aggregate key decode", hread, Except.ok.injEq]
    simp only [List.forall_mem_cons, List.exists_mem_cons_iff, hkeys]
    split at hrest
    · next hnull =>
      obtain ⟨hdecodes, hmem⟩ := ih hrest
      refine ⟨⟨decodes_of_readColumn hread, hdecodes⟩, fun key => (hmem key).trans ?_⟩
      refine or_congr_right (iff_or_self.mpr ?_)
      rintro ⟨rfl, hne⟩
      exact absurd hnull hne
    · next hne =>
      obtain ⟨hdecodes, hmem⟩ := ih hrest
      refine ⟨⟨decodes_of_readColumn hread, hdecodes⟩, fun key => (hmem key).trans ?_⟩
      rw [← or_assoc]
      refine or_congr_left ?_
      have hadded : key ∈ (if keys.contains value then keys else keys ++ [value]) ↔
          key ∈ keys ∨ key = value := by
        split
        · next hin =>
          refine ⟨.inl, fun hkey => hkey.elim id ?_⟩
          rintro rfl
          exact List.contains_iff_mem.mp hin
        · rw [List.mem_append, List.mem_singleton]
      rw [hadded]
      refine or_congr_right ⟨?_, fun hkey => hkey.1.symm⟩
      rintro rfl
      exact ⟨rfl, hne⟩

theorem aggregateKeys_of_decodes {tuples : List Tuple} (nth : ℕ) (keys : List Json)
    (h : ∀ tuple ∈ tuples, rel.Decodes convert spec.foreignKey tuple) :
    ∃ result, rel.aggregateKeys convert spec (nth + 1) tuples keys = .ok result := by
  induction tuples generalizing nth keys with
  | nil => exact ⟨keys, rfl⟩
  | cons tuple rest ih =>
    obtain ⟨⟨value, hread⟩, hrest⟩ := List.forall_mem_cons.mp h
    rw [aggregateKeys, readColumn_context hread]
    change ∃ result, (if value = .null then _ else _) = Except.ok result
    split
    · exact ih _ _ hrest
    · exact ih _ _ hrest

/-- The first tuple has to name a parent. -/
theorem namesAggregateParent_ok {p : TableName} {incoming : Incoming} {cfg : WatchConfig}
    (hfind : (cfg.aggregates p).find? (·.reads rel.tableName) = some spec)
    (h : rel.namesAggregateParent convert cfg p incoming = .ok c) :
    (rel.tupleKeys convert incoming.tuple spec.foreignKey).isSome ∧
      (∀ tuple ∈ incoming.tuples, rel.Decodes convert spec.foreignKey tuple) ∧
      ∃ keys, c = .namesParent p keys ∧ ∀ key, key ∈ keys ↔
        ∃ tuple ∈ incoming.tuples, rel.tupleKeys convert tuple spec.foreignKey = some key := by
  obtain ⟨rest, htuples⟩ := incoming.tuples_eq
  rw [namesAggregateParent, hfind, htuples] at h
  obtain ⟨keys, hkeys, rfl⟩ := Except.map_eq_ok h
  rw [aggregateKeys] at hkeys
  obtain ⟨value, hread, hrest⟩ := Except.bind_eq_ok hkeys
  split at hrest
  · cases hrest
  · next hne =>
    obtain ⟨hdecodes, hmem⟩ := aggregateKeys_succ hrest
    have hfirst : rel.tupleKeys convert incoming.tuple spec.foreignKey = some value :=
      (tupleKeys_eq_some "aggregate key decode").mpr ⟨hread, hne⟩
    rw [htuples, hfirst]
    refine ⟨rfl, List.forall_mem_cons.mpr ⟨decodes_of_readColumn hread, hdecodes⟩, keys, rfl,
      fun key => (hmem key).trans ?_⟩
    rw [List.exists_mem_cons_iff, hfirst]
    simp [eq_comm]

theorem namesAggregateParent_of_known {p : TableName} {incoming : Incoming} {cfg : WatchConfig}
    (hfind : (cfg.aggregates p).find? (·.reads rel.tableName) = some spec)
    (hknown : (rel.tupleKeys convert incoming.tuple spec.foreignKey).isSome)
    (hdecodes : ∀ tuple ∈ incoming.tuples, rel.Decodes convert spec.foreignKey tuple) :
    ∃ c, rel.namesAggregateParent convert cfg p incoming = .ok c := by
  obtain ⟨rest, htuples⟩ := incoming.tuples_eq
  obtain ⟨value, hvalue⟩ := Option.isSome_iff_exists.mp hknown
  obtain ⟨hread, hne⟩ := (tupleKeys_eq_some "aggregate key decode").mp hvalue
  rw [htuples] at hdecodes
  obtain ⟨keys, hkeys⟩ := aggregateKeys_of_decodes 0 [value]
    (List.forall_mem_cons.mp hdecodes).2
  refine ⟨.namesParent p keys, ?_⟩
  rw [namesAggregateParent, hfind, htuples]
  have hall : rel.aggregateKeys convert spec 0 (incoming.tuple :: rest) [] = .ok keys := by
    rw [aggregateKeys, hread]
    change (if value = .null then _ else _) = _
    rw [if_neg hne]
    exact hkeys
  dsimp only
  rw [hall]
  rfl

end Relation

/-- What is named is what reading a row in a part comes to. -/
def NamesRead (cfg : WatchConfig) (junction : Junctions) (t : TableName) (images : List Keys)
    (p : TableName) (role : Role) (parents : List (TableName × Json)) : Prop :=
  ∀ q key, (q, key) ∈ parents ↔
    q = p ∧ ∃ keys ∈ role.images images, key ∈ role.named cfg junction p t keys

variable {q : TableName}

/-- One key of a child collection's row names what the collection makes of it. -/
theorem mem_named_child {spec : ChildSpec} {keys : Keys} {value : Json}
    (h : keys ((Role.child spec).column t) = some value) :
    (q, key) ∈ (match spec.throughFor t with
      | some _ => Classified.namesThrough p spec.field value
      | none => .namesParent p [value]).named cfg junction ↔
    q = p ∧ key ∈ (Role.child spec).named cfg junction p t keys := by
  rw [Role.column] at h
  rw [Role.named]
  cases hthrough : spec.throughFor t with
  | some through =>
    rw [hthrough] at h
    simp only [Classified.named, h, Option.toList_some, List.flatMap_singleton, List.mem_map,
      Prod.mk.injEq]
    constructor
    · rintro ⟨parent, hmem, hq, rfl⟩
      exact ⟨hq.symm, hmem⟩
    · rintro ⟨hq, hmem⟩
      exact ⟨key, hmem, hq.symm, rfl⟩
  | none =>
    rw [hthrough] at h
    simp only [Classified.named, h, Option.toList_some, List.map_cons, List.map_nil,
      List.mem_singleton, Prod.mk.injEq]

namespace Relation

variable {convert : ℕ → String → Except CoreError Json} {rel : Relation}

variable {build : Except CoreError RowChange} {configured : Bool}

/-- A message of a table that is read in a part names what the part reads. -/
theorem classify_ok (junction : Junctions) {incoming : Incoming}
    (hfirst : cfg.firstRole rel.tableName = some (p, role))
    (h : rel.classify convert cfg configured build incoming = .ok c) :
    (rel.tupleKeys convert incoming.tuple (role.column rel.tableName)).isSome ∧
      (∀ tuple ∈ role.images incoming.tuples,
        rel.Decodes convert (role.column rel.tableName) tuple) ∧
      NamesRead cfg junction rel.tableName (incoming.tuples.map (rel.tupleKeys convert)) p role
        (c.named cfg junction) := by
  obtain ⟨hparent, -, hfind⟩ := firstRole_eq hfirst
  obtain ⟨rest, htuples⟩ := incoming.tuples_eq
  rw [classify, hparent] at h
  cases role with
  | child spec =>
    dsimp only at hfind h
    rw [hfind] at h
    change rel.namesChildParent convert p spec incoming = .ok c at h
    have hknown := namesChildParent_ok h
    obtain ⟨value, hvalue⟩ := Option.isSome_iff_exists.mp hknown
    refine ⟨hknown, ?_, fun q key => ?_⟩
    · intro tuple htuple
      rw [Role.images, htuples, List.take_succ_cons, List.take_zero, List.mem_singleton] at htuple
      obtain ⟨hread, -⟩ := (tupleKeys_eq_some "child key decode").mp hvalue
      exact htuple ▸ ⟨value, hread⟩
    · rw [namesChildParent_eq hvalue] at h
      cases h
      rw [mem_named_child hvalue, Role.images, htuples, List.map_cons, List.take_succ_cons,
        List.take_zero]
      simp only [List.mem_singleton, exists_eq_left]
  | aggregate spec =>
    dsimp only at hfind h
    rw [hfind.1] at h
    change rel.namesAggregateParent convert cfg p incoming = .ok c at h
    obtain ⟨hknown, hdecodes, keys, rfl, hmem⟩ := namesAggregateParent_ok hfind.2 h
    refine ⟨hknown, hdecodes, fun q key => ?_⟩
    have hpair : (q, key) ∈ (Classified.namesParent p keys).named cfg junction ↔
        q = p ∧ key ∈ keys := by
      rw [Classified.named, List.mem_map]
      exact ⟨fun ⟨_, hin, heq⟩ => by cases heq; exact ⟨rfl, hin⟩,
        fun ⟨hq, hin⟩ => ⟨key, hin, by rw [hq]⟩⟩
    rw [hpair, hmem]
    simp only [Role.images, Role.named, List.mem_map, exists_exists_and_eq_and, Option.mem_toList]

/-- A message whose key can be read is classified. -/
theorem classify_of_known {incoming : Incoming}
    (hfirst : cfg.firstRole rel.tableName = some (p, role))
    (hknown : (rel.tupleKeys convert incoming.tuple (role.column rel.tableName)).isSome)
    (hdecodes : ∀ tuple ∈ role.images incoming.tuples,
      rel.Decodes convert (role.column rel.tableName) tuple) :
    ∃ c, rel.classify convert cfg configured build incoming = .ok c := by
  obtain ⟨hparent, -, hfind⟩ := firstRole_eq hfirst
  rw [classify, hparent]
  cases role with
  | child spec =>
    dsimp only at hfind ⊢
    rw [hfind]
    obtain ⟨value, hvalue⟩ := Option.isSome_iff_exists.mp hknown
    exact ⟨_, namesChildParent_eq hvalue⟩
  | aggregate spec =>
    dsimp only at hfind ⊢
    rw [hfind.1]
    exact namesAggregateParent_of_known hfind.2 hknown hdecodes

/-- A message is classified and names exactly the parents that the row was part of where
they are all read. -/
theorem classify_names_iff {toasted : String → Bool} {event : RowEvent DbRow}
    (h : cfg.Plays p rel.tableName role) :
    NamesExactly cfg junction rel.tableName (event.rows.map (rel.rowKeys convert))
        ((rel.classify convert cfg configured build (rel.incoming toasted event)).map
          (·.named cfg junction)) ↔
      WalSuits cfg junction convert rel toasted event := by
  obtain ⟨p', role', hfirst⟩ := firstRole_isSome h
  constructor
  · intro hexact
    obtain ⟨parents, hok, -⟩ := id hexact
    obtain ⟨c, hc, rfl⟩ := Except.map_eq_ok hok
    obtain ⟨hknown, hdecodes, hnamed⟩ := classify_ok junction hfirst hc
    rw [hc] at hexact
    exact ⟨p', role', hfirst, hknown, hdecodes,
      (namesExactly_iff_readsAll hfirst (fun _ => tuples_rows) hnamed).mp hexact⟩
  · rintro ⟨q, r, hsame, hknown, hdecodes, hreads⟩
    rw [hfirst] at hsame
    cases hsame
    obtain ⟨c, hc⟩ : ∃ c, rel.classify convert cfg configured build (rel.incoming toasted event) =
        .ok c := classify_of_known hfirst hknown hdecodes
    obtain ⟨-, -, hnamed⟩ := classify_ok junction hfirst hc
    rw [hc]
    exact (namesExactly_iff_readsAll hfirst (fun _ => tuples_rows) hnamed).mpr hreads

end Relation

/-! ## MySQL -/

/-- The MySQL source reads a row as a parent's: the table has the key column, and nothing
refers to a parent but what is read. -/
def MySqlSuits (cfg : WatchConfig) (junction : Junctions) (rt : RegisteredTable)
    (event : RowEvent (String → Json)) : Prop :=
  ∃ p role, cfg.firstRole rt.table = some (p, role) ∧ role.column rt.table ∈ rt.columns ∧
    ReadsAll cfg junction rt.table (event.rows.map rt.rowKeys) (event.rows.map rt.rowKeys) p role

namespace RegisteredTable

variable {rt : RegisteredTable} {row : String → Json}

theorem imageColumn_image {value : Json} :
    rt.imageColumn (rt.image row) column = .ok value ↔ column ∈ rt.columns ∧ row column = value := by
  rw [imageColumn]
  cases hidx : rt.columns.findIdx? fun c => c = column with
  | none =>
    refine ⟨nofun, fun ⟨hmem, _⟩ => ?_⟩
    have hne := List.findIdx?_eq_none_iff.mp hidx column hmem
    exact absurd rfl (of_decide_eq_false hne)
  | some idx =>
    obtain ⟨hlt, heq, -⟩ := List.findIdx?_eq_some_iff_getElem.mp hidx
    have hcolumn : rt.columns[idx]? = some column := by
      rw [List.getElem?_eq_getElem hlt]
      exact congrArg some (of_decide_eq_true heq)
    have himage : (rt.image row)[idx]? = some (some (row column)) := by
      rw [image, List.getElem?_map, hcolumn]
      rfl
    dsimp only
    rw [himage, Except.ok.injEq]
    exact ⟨fun h => ⟨List.mem_of_getElem? hcolumn, h⟩, fun h => h.2⟩

theorem images_rowsRow (event : RowEvent (String → Json)) :
    (rt.rowsRow event).after.toList ++ (rt.rowsRow event).before.toList =
      event.rows.map rt.image := by
  cases event <;> rfl

theorem rowColumn_rowsRow (rt : RegisteredTable) (event : RowEvent (String → Json)) :
    ∃ row rest, event.rows = row :: rest ∧
      ∀ column, rt.rowColumn (rt.rowsRow event) column = rt.imageColumn (rt.image row) column := by
  cases event with
  | insert new => exact ⟨new, [], rfl, fun _ => rfl⟩
  | update old new => exact ⟨new, [old], rfl, fun _ => rfl⟩
  | delete old => exact ⟨old, [], rfl, fun _ => rfl⟩

/-- One key of an image names what the key is. -/
theorem mem_named_parent (hmem : column ∈ rt.columns) :
    (q, key) ∈ (Named.parent p (row column)).named cfg junction ↔
      q = p ∧ rt.rowKeys row column = some key := by
  rw [Named.named, rowKeys]
  by_cases hnull : row column = .null
  · rw [if_pos hnull, if_neg fun h => h.2 hnull]
    exact ⟨nofun, nofun⟩
  · rw [if_neg hnull, if_pos ⟨hmem, hnull⟩, List.mem_singleton, Prod.mk.injEq, Option.some.injEq]
    exact and_congr_right' eq_comm

theorem mem_named_through {column field : String} (hmem : column ∈ rt.columns) :
    (q, key) ∈ (Named.through p field (row column)).named cfg junction ↔ q = p ∧
      key ∈ (rt.rowKeys row column).toList.flatMap (resolveThrough cfg junction p field) := by
  rw [Named.named, rowKeys]
  by_cases hnull : row column = .null
  · rw [if_pos hnull, if_neg fun h => h.2 hnull]
    exact ⟨nofun, nofun⟩
  · rw [if_neg hnull, if_pos ⟨hmem, hnull⟩, Option.toList_some, List.flatMap_singleton,
      List.mem_map]
    exact ⟨fun ⟨_, hkey, heq⟩ => by cases heq; exact ⟨rfl, hkey⟩,
      fun ⟨hq, hkey⟩ => ⟨key, hkey, by rw [hq]⟩⟩

/-- Every image of a counted row names what its key is. -/
theorem mapM_imageColumn (hmem : column ∈ rt.columns) (rows : List (String → Json)) :
    (rows.map rt.image).mapM (fun image => (rt.imageColumn image column).map (Named.parent p)) =
      .ok (rows.map fun row => .parent p (row column)) := by
  induction rows with
  | nil => rfl
  | cons row rest ih =>
    rw [List.map_cons, List.mapM_cons, imageColumn_image.mpr ⟨hmem, rfl⟩, ih]
    rfl

/-- What a row names is what it is read as, and it is read where the table has the
column. -/
theorem nameRow_ok (junction : Junctions) {event : RowEvent (String → Json)} {ns : List Named}
    (hfirst : cfg.firstRole rt.table = some (p, role))
    (h : rt.nameRow cfg p (rt.rowsRow event) = .ok ns) :
    role.column rt.table ∈ rt.columns ∧
      NamesRead cfg junction rt.table (event.rows.map rt.rowKeys) p role
        (ns.flatMap (Named.named cfg junction)) := by
  obtain ⟨-, -, hfind⟩ := firstRole_eq hfirst
  obtain ⟨row, rest, hrows, hcolumn⟩ := rt.rowColumn_rowsRow event
  rw [nameRow] at h
  cases role with
  | child spec =>
    dsimp only at hfind
    rw [hfind] at h
    obtain ⟨key, hkey, hns⟩ := Except.bind_eq_ok h
    rw [hcolumn] at hkey
    obtain ⟨hmem, rfl⟩ := imageColumn_image.mp hkey
    refine ⟨hmem, fun q key => ?_⟩
    simp only [hrows, List.map_cons, Role.images, List.take_succ_cons, List.take_zero,
      List.mem_singleton, exists_eq_left]
    rw [Role.named]
    rw [Role.column] at hmem hns
    cases hthrough : spec.throughFor rt.table with
    | some through =>
      rw [hthrough] at hns hmem
      cases hns
      rw [List.flatMap_singleton, mem_named_through hmem]
    | none =>
      rw [hthrough] at hns hmem
      cases hns
      rw [List.flatMap_singleton, mem_named_parent hmem, Option.mem_toList]
  | aggregate spec =>
    dsimp only at hfind
    rw [hfind.1, hfind.2, images_rowsRow] at h
    have hmem : spec.foreignKey ∈ rt.columns := by
      change (event.rows.map rt.image).mapM _ = _ at h
      rw [hrows, List.map_cons, List.mapM_cons] at h
      obtain ⟨named, hnamed, -⟩ := Except.bind_eq_ok h
      obtain ⟨key, hkey, -⟩ := Except.map_eq_ok hnamed
      exact (imageColumn_image.mp hkey).1
    change (event.rows.map rt.image).mapM _ = _ at h
    rw [mapM_imageColumn hmem] at h
    cases h
    refine ⟨hmem, fun q key => ?_⟩
    simp only [List.flatMap_map, List.mem_flatMap, mem_named_parent hmem, Role.images, Role.named,
      List.mem_map, exists_exists_and_eq_and, Option.mem_toList]
    constructor
    · rintro ⟨row, hrow, hq, hkey⟩
      exact ⟨hq, row, hrow, hkey⟩
    · rintro ⟨hq, row, hrow, hkey⟩
      exact ⟨row, hrow, hq, hkey⟩

theorem nameRow_of_mem (event : RowEvent (String → Json))
    (hfirst : cfg.firstRole rt.table = some (p, role)) (hmem : role.column rt.table ∈ rt.columns) :
    ∃ ns, rt.nameRow cfg p (rt.rowsRow event) = .ok ns := by
  obtain ⟨-, -, hfind⟩ := firstRole_eq hfirst
  obtain ⟨row, rest, hrows, hcolumn⟩ := rt.rowColumn_rowsRow event
  rw [nameRow]
  cases role with
  | child spec =>
    dsimp only at hfind
    rw [hfind]
    dsimp only
    rw [hcolumn, imageColumn_image.mpr ⟨hmem, rfl⟩]
    change ∃ ns, (match spec.throughFor rt.table with | some _ => _ | none => _) = Except.ok ns
    cases spec.throughFor rt.table <;> exact ⟨_, rfl⟩
  | aggregate spec =>
    dsimp only at hfind
    rw [hfind.1, hfind.2, images_rowsRow]
    exact ⟨_, mapM_imageColumn hmem event.rows⟩

/-- And so is a row event. -/
theorem nameWatched_names_iff {event : RowEvent (String → Json)} (h : cfg.Plays p rt.table role) :
    NamesExactly cfg junction rt.table (event.rows.map rt.rowKeys)
        ((rt.nameWatched cfg (rt.rowsRow event)).map
          (·.flatMap (Named.named cfg junction))) ↔
      MySqlSuits cfg junction rt event := by
  obtain ⟨p', role', hfirst⟩ := firstRole_isSome h
  have himages : ∀ keys ∈ event.rows.map rt.rowKeys, ∃ row ∈ event.rows.map rt.rowKeys,
      ∀ column value, keys column = some value → row column = some value :=
    fun keys hkeys => ⟨keys, hkeys, fun _ _ => id⟩
  have hwatched : rt.nameWatched cfg (rt.rowsRow event) = rt.nameRow cfg p' (rt.rowsRow event) := by
    rw [nameWatched, (firstRole_eq hfirst).1]
  rw [hwatched]
  constructor
  · intro hexact
    obtain ⟨parents, hok, -⟩ := id hexact
    obtain ⟨ns, hns, rfl⟩ := Except.map_eq_ok hok
    obtain ⟨hmem, hnamed⟩ := nameRow_ok junction hfirst hns
    rw [hns] at hexact
    exact ⟨p', role', hfirst, hmem, (namesExactly_iff_readsAll hfirst himages hnamed).mp hexact⟩
  · rintro ⟨q, r, hsame, hmem, hreads⟩
    rw [hfirst] at hsame
    cases hsame
    obtain ⟨ns, hns⟩ := nameRow_of_mem event hfirst hmem
    obtain ⟨-, hnamed⟩ := nameRow_ok junction hfirst hns
    rw [hns]
    exact (namesExactly_iff_readsAll hfirst himages hnamed).mpr hreads

end RegisteredTable

/-! ## Both sources -/

/-- **A source classifies a row of a watched table and names exactly the parents whose
documents embed or count it, before or after, where the one part and the images it reads
refer to all of them.** -/
theorem names_exactly (cfg : WatchConfig) (junction : Junctions) :
    (∀ (convert : ℕ → String → Except CoreError Json) (rel : Relation) (toasted : String → Bool)
      (event : RowEvent DbRow) (configured : Bool) (build : Except CoreError RowChange)
      (p : TableName) (role : Role),
      cfg.Plays p rel.tableName role →
      (NamesExactly cfg junction rel.tableName (event.rows.map (rel.rowKeys convert))
          ((rel.classify convert cfg configured build (rel.incoming toasted event)).map
            (·.named cfg junction)) ↔
        WalSuits cfg junction convert rel toasted event)) ∧
    (∀ (rt : RegisteredTable) (event : RowEvent (String → Json)) (p : TableName) (role : Role),
      cfg.Plays p rt.table role →
      (NamesExactly cfg junction rt.table (event.rows.map rt.rowKeys)
          ((rt.nameWatched cfg (rt.rowsRow event)).map (·.flatMap (Named.named cfg junction))) ↔
        MySqlSuits cfg junction rt event)) := by
  constructor
  · intro convert rel toasted event configured build p role hplays
    exact Relation.classify_names_iff hplays
  · intro rt event p role hplays
    exact RegisteredTable.nameWatched_names_iff hplays

/-! ### The books of an author -/

/-- The books an author's document embeds. -/
def booksSpec : ChildSpec :=
  ⟨"public", "books", "books", "author", none⟩

/-- The section of the authors. -/
def authorsSection : WatchedSection :=
  ⟨("public", "authors"), [booksSpec], []⟩

/-- The books, all of whose old row is carried. -/
def books : Relation :=
  ⟨"public", "books", .full, [⟨"id", 25, true⟩, ⟨"author", 25, true⟩]⟩

/-- And as the other source knows them. -/
def booksTable : RegisteredTable :=
  ⟨("public", "books"), ["id", "author"]⟩

/-- The book is one author's. -/
def bookOf (author : String) : DbRow := fun column =>
  if column = "id" then some "dune" else if column = "author" then some author else none

/-- And the same row there. -/
def bookRow (author : String) : String → Json := fun column =>
  if column = "id" then .str "dune" else if column = "author" then .str author else .null

/-- A text is read as it is. -/
def convertText : ℕ → String → Except CoreError Json := fun _ raw => .ok (.str raw)

theorem authors_plays {role : Role}
    (h : (walConfig [authorsSection]).Plays q ("public", "books") role) :
    q = ("public", "authors") ∧ role = .child booksSpec := by
  cases role with
  | child s =>
    obtain ⟨hmem, -⟩ := h
    change s ∈ childSpecsFor [authorsSection] q at hmem
    simp only [childSpecsFor, List.mem_flatMap, List.mem_filter, List.mem_singleton,
      decide_eq_true_eq] at hmem
    obtain ⟨_, ⟨rfl, rfl⟩, hs⟩ := hmem
    rw [authorsSection, List.mem_singleton] at hs
    exact ⟨rfl, by rw [hs]⟩
  | aggregate a =>
    obtain ⟨hmem, -⟩ := h
    change a ∈ aggregateSpecsFor [authorsSection] q at hmem
    simp only [aggregateSpecsFor, List.mem_flatMap, List.mem_filter, List.mem_singleton,
      decide_eq_true_eq] at hmem
    obtain ⟨_, ⟨rfl, rfl⟩, ha⟩ := hmem
    cases ha

/-- A row that is inserted names its author. -/
theorem insert_names_author :
    NamesExactly (walConfig [authorsSection]) (fun _ _ => []) ("public", "books")
        [books.rowKeys convertText (bookOf "herbert")]
        ((books.classify convertText (walConfig [authorsSection]) true (.error (.source ""))
          (books.incoming (fun _ => false) (.insert (bookOf "herbert")))).map
            (·.named (walConfig [authorsSection]) fun _ _ => [])) ∧
      NamesExactly (walConfig [authorsSection]) (fun _ _ => []) ("public", "books")
        [booksTable.rowKeys (bookRow "herbert")]
        ((booksTable.nameWatched (walConfig [authorsSection])
          (booksTable.rowsRow (.insert (bookRow "herbert")))).map
            (·.flatMap (Named.named (walConfig [authorsSection]) fun _ _ => []))) := by
  have hplays : (walConfig [authorsSection]).Plays ("public", "authors") ("public", "books")
      (.child booksSpec) := ⟨List.mem_singleton.mpr rfl, by decide⟩
  have hfirst : (walConfig [authorsSection]).firstRole ("public", "books") =
      some (("public", "authors"), .child booksSpec) := rfl
  constructor
  · refine ((names_exactly _ _).1 _ books _ (.insert (bookOf "herbert")) _ _ _ _ hplays).mpr
      ⟨_, _, hfirst, rfl, ?_, ?_, ?_⟩
    · rintro tuple htuple
      obtain rfl := List.mem_singleton.mp htuple
      exact ⟨.str "herbert", rfl⟩
    · rintro q key ⟨role, hrole, keys, hkeys, hkey⟩
      obtain ⟨rfl, rfl⟩ := authors_plays hrole
      exact ⟨rfl, keys, hkeys, hkey⟩
    · rintro s through hs hthrough
      cases hs
      cases hthrough
  · refine ((names_exactly _ _).2 booksTable (.insert (bookRow "herbert")) _ _ hplays).mpr
      ⟨_, _, hfirst, by decide, ?_, ?_⟩
    · rintro q key ⟨role, hrole, keys, hkeys, hkey⟩
      obtain ⟨rfl, rfl⟩ := authors_plays hrole
      exact ⟨rfl, keys, hkeys, hkey⟩
    · rintro s through hs hthrough
      cases hs
      cases hthrough

/-- A row that is moved to another author names that one only, whose new document has it;
the author it was moved from keeps it. -/
theorem moved_leaves_author :
    ¬NamesExactly (walConfig [authorsSection]) (fun _ _ => []) ("public", "books")
        ([bookOf "herbert", bookOf "anderson"].map (books.rowKeys convertText))
        ((books.classify convertText (walConfig [authorsSection]) true (.error (.source ""))
          (books.incoming (fun _ => false) (.update (bookOf "anderson") (bookOf "herbert")))).map
            (·.named (walConfig [authorsSection]) fun _ _ => [])) ∧
      ¬NamesExactly (walConfig [authorsSection]) (fun _ _ => []) ("public", "books")
        ([bookRow "herbert", bookRow "anderson"].map booksTable.rowKeys)
        ((booksTable.nameWatched (walConfig [authorsSection])
          (booksTable.rowsRow (.update (bookRow "anderson") (bookRow "herbert")))).map
            (·.flatMap (Named.named (walConfig [authorsSection]) fun _ _ => []))) := by
  have hplays : (walConfig [authorsSection]).Plays ("public", "authors") ("public", "books")
      (.child booksSpec) := ⟨List.mem_singleton.mpr rfl, by decide⟩
  constructor
  · rintro ⟨parents, hnamed, hexact⟩
    obtain rfl : [(("public", "authors"), Json.str "herbert")] = parents := Except.ok.inj hnamed
    have haffected : Affected (walConfig [authorsSection]) (fun _ _ => []) ("public", "books")
        ([bookOf "herbert", bookOf "anderson"].map (books.rowKeys convertText))
        ("public", "authors") (.str "anderson") :=
      ⟨_, hplays, _, .tail _ (.head _), List.mem_singleton.mpr rfl⟩
    have hmem := (hexact _ _).mpr haffected
    revert hmem
    decide
  · rintro ⟨parents, hnamed, hexact⟩
    obtain rfl : [(("public", "authors"), Json.str "herbert")] = parents := Except.ok.inj hnamed
    have haffected : Affected (walConfig [authorsSection]) (fun _ _ => []) ("public", "books")
        ([bookRow "herbert", bookRow "anderson"].map booksTable.rowKeys)
        ("public", "authors") (.str "anderson") :=
      ⟨_, hplays, _, .tail _ (.head _), List.mem_singleton.mpr rfl⟩
    have hmem := (hexact _ _).mpr haffected
    revert hmem
    decide

end Pg2osync
