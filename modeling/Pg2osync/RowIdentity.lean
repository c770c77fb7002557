import Pg2osync.Classify

/-!
# The key of a PostgreSQL row

The load takes a row's key from the columns of the table's primary index, the stream from
the columns the replica identity flags, unless it flags all of them. A document is
addressed by that key, so that the two have to agree about it, whatever event it is read
from.

What the text of a value converts to is the type map's business, and a parameter here. A
primary index may include columns that are no part of the key; the catalogue lists them
with the key, the replica identity does not flag them.
-/

namespace Pg2osync

/-! ## Building a change -/

namespace Relation

variable (convert : ℕ → String → Except CoreError Json) (rel : Relation)

/-- `convert_column`: an error names the column. -/
def convertColumn (c : RelationColumn) (raw : String) : Except CoreError Json :=
  (convert c.typeOid raw).mapError fun e => .source ("column '" ++ c.name ++ "' of " ++
    rel.schema ++ "." ++ rel.name ++ ": " ++ e.display)

/-- Whether `extract_pk` takes a column for a part of the key. -/
def isKey (keyColumns : Option (List String)) (c : RelationColumn) : Bool :=
  match keyColumns with
  | some keys =>
    if rel.replicaIdentity = .full ∧ keys ≠ [] then keys.contains c.name else c.inReplicaIdentity
  | none => c.inReplicaIdentity

/-- The key columns of a tuple with their values. One that is not carried as text is
NULL. -/
def keyPairs (keyColumns : Option (List String)) :
    List RelationColumn → Tuple → Except CoreError (List (String × Json))
  | [], _ => .ok []
  | c :: columns, tuple => do
    if rel.isKey keyColumns c then
      let value ← match tuple.head? with
        | some (.text raw) => rel.convertColumn convert c raw
        | _ => .ok .null
      let rest ← keyPairs keyColumns columns tuple.tail
      return (c.name, value) :: rest
    else keyPairs keyColumns columns tuple.tail

/-- `NoReplicaIdentity`. -/
def noReplicaIdentity : CoreError :=
  .source ("table " ++ rel.schema ++ "." ++ rel.name ++ " has REPLICA IDENTITY NOTHING; deletes " ++
    "and updates cannot be replicated. Run: ALTER TABLE " ++ rel.schema ++ "." ++ rel.name ++
    " REPLICA IDENTITY FULL")

/-- `extract_pk`: the value of a single column, an object of several. -/
def extractPk (keyColumns : Option (List String)) (tuple : Tuple) : Except CoreError Json := do
  let pairs ← rel.keyPairs convert keyColumns rel.columns tuple
  match pairs with
  | [] => .error rel.noReplicaIdentity
  | first :: _ =>
    let fields := Json.extendFields [] pairs
    return if fields.length = 1 then first.2 else .obj fields

/-- The fields of a document, over those there are, with the unchanged columns that no
old tuple fills. -/
def docFields : List RelationColumn → Tuple → Tuple → List (String × Json) × List String →
    Except CoreError (List (String × Json) × List String)
  | [], _, _, acc => .ok acc
  | c :: columns, new, old, acc => do
    let acc ← match new.head? with
      | some .null => .ok (Json.insertField c.name .null acc.1, acc.2)
      | some .unchangedToast =>
        match old.head? with
        | some (.text raw) => (rel.convertColumn convert c raw).map fun value =>
            (Json.insertField c.name value acc.1, acc.2)
        | _ => .ok (Json.insertField c.name .null acc.1, acc.2 ++ [c.name])
      | some (.text raw) => (rel.convertColumn convert c raw).map fun value =>
          (Json.insertField c.name value acc.1, acc.2)
      | none => .ok acc
    docFields columns new.tail old.tail acc

/-- `build_doc`. -/
def buildDoc (new : Tuple) (old : Option Tuple) : Except CoreError (Json × List String) :=
  (rel.docFields convert rel.columns new (old.getD []) ([], [])).map fun built =>
    (.obj built.1, built.2)

/-- `AppendOnly`. -/
def appendOnlyError (what : String) : CoreError :=
  .source (rel.schema ++ "." ++ rel.name ++ ": " ++ what ++ " arrived on an append-only table; " ++
    "nothing can say which document it is")

/-- `check_delete_capability`. -/
def checkDeleteCapability : Except CoreError Unit :=
  if rel.replicaIdentity = .nothing then .error rel.noReplicaIdentity else .ok ()

/-- `build_row_change`, of an update. -/
def buildUpdate (keyColumns : Option (List String)) (old : Option Tuple) (new : Tuple) :
    Except CoreError RowKind := do
  let pk ← rel.extractPk convert keyColumns new
  let previousPk := old.bind fun prev => (rel.extractPk convert keyColumns prev).toOption
  let (doc, toast) ← rel.buildDoc convert new old
  let before ← match old, rel.replicaIdentity with
    | some prev, .full => (rel.buildDoc convert prev none).map fun built => some built.1
    | _, _ => .ok none
  return .update pk previousPk doc toast before

/-- `build_row_change`, of a delete. -/
def buildDelete (keyColumns : Option (List String)) (key : Tuple) : Except CoreError RowKind := do
  let pk ← rel.extractPk convert keyColumns key
  let before ←
    if rel.replicaIdentity = .full then
      (rel.buildDoc convert key none).map fun built => some built.1
    else .ok none
  return .delete pk before

/-- `build_row_change`. -/
def buildRowChange (keyColumns : Option (List String)) (appendOnly : Bool) :
    Incoming → Except CoreError RowChange
  | .insert new => do
    let pk ← if appendOnly then .ok .null else rel.extractPk convert keyColumns new
    let (doc, _) ← rel.buildDoc convert new none
    return ⟨rel.tableName, .insert pk doc, none⟩
  | .update old new =>
    if appendOnly then .error (rel.appendOnlyError "an UPDATE")
    else do
      rel.checkDeleteCapability
      let kind ← rel.buildUpdate convert keyColumns old new
      return ⟨rel.tableName, kind, none⟩
  | .delete key =>
    if appendOnly then .error (rel.appendOnlyError "a DELETE")
    else do
      rel.checkDeleteCapability
      let kind ← rel.buildDelete convert keyColumns key
      return ⟨rel.tableName, kind, none⟩

end Relation

/-! ### The load -/

/-- What the load knows of a column. -/
structure ColMeta : Type where
  /-- its name -/
  name : String
  /-- its type -/
  typeOid : ℕ
  /-- whether it is a column of the primary index -/
  isPk : Bool

/-- The columns of a copied row: the document's fields, and those of the key, over those
there are. -/
def copyFields (convert : ℕ → String → Except CoreError Json) (appendOnly : Bool) :
    List ColMeta → List (Option String) → List (String × Json) × List (String × Json) →
    Except CoreError (List (String × Json) × List (String × Json))
  | [], _, acc => .ok acc
  | c :: cols, fields, acc => do
    let value ← (fields.head?.bind id).elim (.ok .null) fun raw =>
      (convert c.typeOid raw).mapError fun e => .other ("column " ++ c.name ++ ": " ++ e.display)
    let key := if c.isPk && !appendOnly then Json.insertField c.name value acc.2 else acc.2
    copyFields convert appendOnly cols fields.tail (Json.insertField c.name value acc.1, key)

/-- `build_change` of the load; `collections` shapes the children's arrays. -/
def buildCopied (convert : ℕ → String → Except CoreError Json) (table : TableName)
    (collections : Json → Json) (appendOnly : Bool) (version : Option ℕ) (cols : List ColMeta)
    (fields : List (Option String)) : Except CoreError RowChange := do
  let (doc, key) ← copyFields convert appendOnly cols fields ([], [])
  let pk ← match key with
    | [] =>
      if appendOnly then .ok .null
      else .error (.other ("table " ++ table.1 ++ "." ++ table.2 ++ " has no primary key; " ++
        "pg2osync needs one to derive a stable document id, or `append_only = true` on its " ++
        "[sync] section to index its rows as they arrive"))
    | [single] => .ok single.2
    | several => .ok (.obj several)
  return ⟨table, .insert pk (collections (.obj doc)), version⟩

/-- The key of a row change. -/
def RowKind.pk : RowKind → Json
  | .insert pk _ | .update pk _ _ _ _ | .delete pk _ => pk

/-! ## Keys of named values -/

/-- The key that some named values make. -/
def keyJson : List (String × Json) → Option Json
  | [] => none
  | first :: rest =>
    some (if (Json.extendFields [] (first :: rest)).length = 1 then first.2
      else .obj (Json.extendFields [] (first :: rest)))

theorem insertField_perm {key : String} (value : Json) {fields : List (String × Json)}
    (h : key ∉ fields.map Prod.fst) :
    (Json.insertField key value fields).Perm ((key, value) :: fields) := by
  induction fields with
  | nil => exact .refl _
  | cons f rest ih =>
    obtain ⟨k, v⟩ := f
    have hne : k ≠ key := fun heq => h (heq ▸ List.mem_cons_self)
    have hrest : key ∉ rest.map Prod.fst := fun hmem => h (List.mem_cons_of_mem _ hmem)
    rw [Json.insertField, if_neg hne]
    split
    · exact .refl _
    · exact ((ih hrest).cons _).trans (.swap _ _ _)

/-- Values of different names are all kept. -/
theorem extendFields_perm {pairs fields : List (String × Json)}
    (h : ((pairs ++ fields).map Prod.fst).Nodup) :
    (Json.extendFields fields pairs).Perm (pairs ++ fields) := by
  induction pairs generalizing fields with
  | nil => exact .refl _
  | cons p rest ih =>
    have hcons : p.1 ∉ (rest ++ fields).map Prod.fst ∧ ((rest ++ fields).map Prod.fst).Nodup :=
      List.nodup_cons.mp h
    have hnotMem : p.1 ∉ fields.map Prod.fst := fun hmem => hcons.1 (by
      rw [List.map_append]
      exact List.mem_append_right _ hmem)
    have hperm := insertField_perm p.2 hnotMem
    have hmiddle : (rest ++ Json.insertField p.1 p.2 fields).Perm (p :: (rest ++ fields)) :=
      (hperm.append_left rest).trans List.perm_middle
    have hnodup : ((rest ++ Json.insertField p.1 p.2 fields).map Prod.fst).Nodup :=
      (hmiddle.map Prod.fst).nodup_iff.mpr (List.nodup_cons.mpr hcons)
    exact (ih hnodup).trans hmiddle

variable {pairs : List (String × Json)}

theorem extendFields_nil_perm (h : (pairs.map Prod.fst).Nodup) :
    (Json.extendFields [] pairs).Perm pairs := by
  have hperm : (Json.extendFields [] pairs).Perm (pairs ++ []) :=
    extendFields_perm (by rwa [List.append_nil])
  rwa [List.append_nil] at hperm

variable {name : String}

theorem eq_of_mem_of_nodup (h : (pairs.map Prod.fst).Nodup) {a b : Json} (ha : (name, a) ∈ pairs)
    (hb : (name, b) ∈ pairs) : a = b := by
  induction pairs with
  | nil => cases ha
  | cons p rest ih =>
    obtain ⟨hp, hrest⟩ := List.nodup_cons.mp h
    rcases List.mem_cons.mp ha with rfl | ha
    · rcases List.mem_cons.mp hb with hb | hb
      · exact (Prod.mk.inj hb).2.symm
      · exact absurd (List.mem_map_of_mem hb) hp
    · rcases List.mem_cons.mp hb with hb | hb
      · have hmem : name ∈ rest.map Prod.fst := List.mem_map_of_mem (f := Prod.fst) ha
        exact absurd (congrArg Prod.fst hb ▸ hmem) hp
      · exact ih hrest ha hb

/-- A key tells the value of each of its columns. -/
theorem keyJson_inj {pairs pairs' : List (String × Json)} (h : (pairs.map Prod.fst).Nodup)
    (hnames : pairs.map Prod.fst = pairs'.map Prod.fst) (hkey : keyJson pairs = keyJson pairs')
    {a b : Json} (ha : (name, a) ∈ pairs) (hb : (name, b) ∈ pairs') : a = b := by
  have h' : (pairs'.map Prod.fst).Nodup := hnames ▸ h
  have hperm := extendFields_nil_perm h
  have hperm' := extendFields_nil_perm h'
  have hlen : pairs.length = pairs'.length := by simpa using congrArg List.length hnames
  cases pairs with
  | nil => cases ha
  | cons p rest =>
    cases pairs' with
    | nil => cases hb
    | cons p' rest' =>
      simp only [keyJson, hperm.length_eq, hperm'.length_eq, hlen, Option.some.injEq] at hkey
      by_cases hone : (p' :: rest').length = 1
      · rw [if_pos hone, if_pos hone] at hkey
        obtain rfl : rest' = [] := List.length_eq_zero_iff.mp (by simpa using hone)
        obtain rfl : rest = [] := List.length_eq_zero_iff.mp (by simpa using hlen)
        obtain rfl := List.mem_singleton.mp ha
        obtain rfl := List.mem_singleton.mp hb
        exact hkey
      · rw [if_neg hone, if_neg hone] at hkey
        have hmem : (name, a) ∈ p' :: rest' := by
          refine hperm'.mem_iff.mp ?_
          rw [← Json.obj.inj hkey]
          exact hperm.mem_iff.mpr ha
        exact eq_of_mem_of_nodup h' hmem hb

/-- What the load's accumulated key comes to. -/
theorem keyJson_of_extendFields (h : (pairs.map Prod.fst).Nodup) :
    keyJson pairs = match Json.extendFields [] pairs with
      | [] => none
      | [single] => some single.2
      | several => some (.obj several) := by
  have hperm := extendFields_nil_perm h
  cases pairs with
  | nil => rfl
  | cons p rest =>
    rw [keyJson]
    cases hfields : Json.extendFields [] (p :: rest) with
    | nil =>
      rw [hfields] at hperm
      cases hperm.length_eq
    | cons f more =>
      cases more with
      | nil =>
        rw [hfields] at hperm
        have hp : p = f := (List.cons.inj (List.perm_singleton.mp hperm.symm)).1
        rw [hp]
        rfl
      | cons g more => rfl

/-! ## A table's rows -/

/-- A table, as far as the keys of its rows go. -/
structure RowSource : Type where
  /-- the relation, as the stream announces it -/
  rel : Relation
  /-- the key columns of its primary index -/
  primaryKey : List String
  /-- the columns that index includes beside them -/
  included : List String
  /-- the columns whose values may be stored out of line -/
  toastable : String → Bool
  /-- whether its section is append-only -/
  appendOnly : Bool
  /-- its columns have different names -/
  distinct : (rel.columns.map RelationColumn.name).Nodup
  /-- it has a key, unless it needs none -/
  keyed : primaryKey ≠ [] ∨ appendOnly = true
  /-- of its own columns -/
  known : ∀ name ∈ primaryKey ++ included, name ∈ rel.columns.map RelationColumn.name
  /-- its updates and deletes are replicated -/
  replicated : rel.replicaIdentity ≠ .nothing
  /-- a default identity is the primary key -/
  flagsDefault : rel.replicaIdentity = .default →
    ∀ c ∈ rel.columns, c.inReplicaIdentity = true ↔ c.name ∈ primaryKey
  /-- a full one has every column -/
  flagsFull : rel.replicaIdentity = .full → ∀ c ∈ rel.columns, c.inReplicaIdentity = true
  /-- and an index has some -/
  flagsIndex : rel.replicaIdentity = .index → ∃ c ∈ rel.columns, c.inReplicaIdentity = true

namespace RowSource

variable (t : RowSource)

/-- `table_info`: the columns of the primary index. -/
def pkColumns : List String :=
  t.primaryKey ++ t.included

/-- `key_columns_for`. -/
def keyColumns : List String :=
  if t.appendOnly then [] else t.pkColumns

/-- `columns_of`. -/
def columnsOf : List ColMeta :=
  t.rel.columns.map fun c => ⟨c.name, c.typeOid, t.pkColumns.contains c.name⟩

/-- A row the table may hold: the columns of its key and of its identity's index are
not NULL. -/
def Holds (row : DbRow) : Prop :=
  (∀ name ∈ t.primaryKey, (row name).isSome = true) ∧
    (t.rel.replicaIdentity = .index →
      ∀ c ∈ t.rel.columns, c.inReplicaIdentity = true → (row c.name).isSome = true)

variable (convert : ℕ → String → Except CoreError Json)

/-- The change that the load makes of a row. -/
def loaded (collections : Json → Json) (version : Option ℕ) (row : DbRow) :
    Except CoreError RowChange :=
  buildCopied convert t.rel.tableName collections t.appendOnly version t.columnsOf
    (t.rel.columns.map fun c => row c.name)

/-- The change that the stream makes of an event. -/
def streamed (toasted : String → Bool) (event : RowEvent DbRow) : Except CoreError RowChange :=
  t.rel.buildRowChange convert (some t.keyColumns) t.appendOnly (t.rel.incoming toasted event)

/-- A change addresses its rows by the keys they are loaded under. -/
def SameKeys (key : DbRow → Option Json) : RowEvent DbRow → RowKind → Prop
  | .insert new, .insert pk _ => key new = some pk
  | .update old new, .update pk previousPk _ _ _ =>
    key new = some pk ∧ key old = some (previousPk.getD pk)
  | .delete old, .delete pk _ => key old = some pk
  | _, _ => False

/-- The key a row is loaded under. -/
def loadKey (row : DbRow) : Option Json :=
  (t.loaded convert id none row).toOption.map fun change => change.kind.pk

/-- An event that can happen to rows that can be loaded; what an append-only table's
documents cannot follow is refused. -/
def Happens (event : RowEvent DbRow) : Prop :=
  (∀ row ∈ event.rows, t.Holds row ∧ (t.loadKey convert row).isSome = true) ∧
    (t.appendOnly = true → ∃ new, event = .insert new)

/-- **One row has one key**, whatever it is read from. -/
def OneIdentity : Prop :=
  ∀ toasted event, (∀ name, toasted name = true → t.toastable name = true) →
    t.Happens convert event → ∃ change, t.streamed convert toasted event = .ok change ∧
      SameKeys (t.loadKey convert) event change.kind

/-- The stream takes a row's key from the columns the load takes it from. -/
def IdentifiesByKey : Prop :=
  t.rel.replicaIdentity = .full ∨
    ∀ c ∈ t.rel.columns, c.inReplicaIdentity = true ↔ c.name ∈ t.pkColumns

instance : Decidable t.IdentifiesByKey :=
  inferInstanceAs (Decidable (_ ∨ _))

end RowSource

/-! ## Reading a row back -/

variable {columns : List RelationColumn} {row : DbRow} {carried : RelationColumn → TupleValue}

variable {c : RelationColumn} {keyColumns : Option (List String)} {old : Option Tuple}

section

variable {convert : ℕ → String → Except CoreError Json} {rel : Relation}

/-- A value of a tuple is read as some JSON value. -/
def Reads (convert : ℕ → String → Except CoreError Json) (c : RelationColumn) (carried : TupleValue)
    (value : Json) : Prop :=
  (∃ raw, carried = .text raw ∧ convert c.typeOid raw = .ok value) ∨
    (∀ raw, carried ≠ .text raw) ∧ value = .null

/-- Every value of some columns can be converted. -/
def Converts (convert : ℕ → String → Except CoreError Json) (columns : List RelationColumn)
    (row : DbRow) : Prop :=
  ∀ c ∈ columns, ∀ raw, row c.name = some raw → ∃ value, convert c.typeOid raw = .ok value

/-- The value of a column. -/
def columnValue (convert : ℕ → String → Except CoreError Json) (row : DbRow) (c : RelationColumn) :
    Json :=
  match row c.name with
  | some raw => (convert c.typeOid raw).toOption.getD .null
  | none => .null

/-- Some columns' names and values. -/
def namedValues (columns : List RelationColumn) (p : RelationColumn → Bool)
    (value : RelationColumn → Json) : List (String × Json) :=
  (columns.filter p).map fun c => (c.name, value c)

variable {value : RelationColumn → Json}

theorem mem_namedValues {p : RelationColumn → Bool} (hc : c ∈ columns) (hp : p c = true) :
    (c.name, value c) ∈ namedValues columns p value :=
  List.mem_map_of_mem (List.mem_filter.mpr ⟨hc, hp⟩)

theorem namedValues_cons (c : RelationColumn) (columns : List RelationColumn)
    (p : RelationColumn → Bool) (value : RelationColumn → Json) :
    namedValues (c :: columns) p value =
      if p c then (c.name, value c) :: namedValues columns p value
      else namedValues columns p value := by
  rw [namedValues, List.filter_cons]
  split <;> rfl

theorem namedValues_congr {p q : RelationColumn → Bool} {value value' : RelationColumn → Json}
    (hp : ∀ c ∈ columns, p c = q c) (hvalue : ∀ c ∈ columns, p c = true → value c = value' c) :
    namedValues columns p value = namedValues columns q value' := by
  rw [namedValues, namedValues, ← List.filter_congr hp]
  refine List.map_congr_left fun c hc => ?_
  obtain ⟨hmem, hpc⟩ := List.mem_filter.mp hc
  rw [hvalue c hmem hpc]

theorem map_fst_namedValues (columns : List RelationColumn) (p : RelationColumn → Bool)
    (value : RelationColumn → Json) :
    (namedValues columns p value).map Prod.fst = (columns.filter p).map RelationColumn.name := by
  rw [namedValues, List.map_map]
  rfl

theorem nodup_namedValues (h : (columns.map RelationColumn.name).Nodup) (p : RelationColumn → Bool)
    (value : RelationColumn → Json) : ((namedValues columns p value).map Prod.fst).Nodup := by
  rw [map_fst_namedValues]
  exact h.sublist (List.filter_sublist.map _)

theorem columnValue_eq {raw : String} {value : Json} (hrow : row c.name = some raw)
    (hvalue : convert c.typeOid raw = .ok value) : columnValue convert row c = value := by
  rw [columnValue, hrow]
  simp only [hvalue]
  rfl

theorem reads_carried (h : Converts convert columns row) (hc : c ∈ columns) :
    Reads convert c (Relation.carried row c) (columnValue convert row c) := by
  cases hrow : row c.name with
  | none =>
    refine .inr ⟨fun raw hraw => ?_, ?_⟩
    · rw [Relation.carried, hrow] at hraw
      cases hraw
    · rw [columnValue, hrow]
  | some raw =>
    obtain ⟨value, hvalue⟩ := h c hc raw hrow
    refine .inl ⟨raw, ?_, ?_⟩
    · rw [Relation.carried, hrow]
    · rw [columnValue_eq hrow hvalue, hvalue]

theorem keyPairs_eq
    (h : ∀ c ∈ columns, rel.isKey keyColumns c = true → Reads convert c (carried c) (value c)) :
    rel.keyPairs convert keyColumns columns (columns.map carried) =
      .ok (namedValues columns (rel.isKey keyColumns) value) := by
  induction columns with
  | nil => rfl
  | cons c columns ih =>
    have hrest := ih fun d hd => h d (List.mem_cons_of_mem _ hd)
    rw [Relation.keyPairs, List.map_cons, List.head?_cons, List.tail_cons, hrest]
    rw [namedValues_cons]
    cases hkey : rel.isKey keyColumns c with
    | false => rfl
    | true =>
      rw [if_pos rfl, if_pos rfl]
      rcases h c List.mem_cons_self hkey with ⟨raw, hraw, hvalue⟩ | ⟨hnone, hvalue⟩
      · rw [hraw]
        simp only [Relation.convertColumn, hvalue]
        rfl
      · rw [hvalue]
        cases htuple : carried c with
        | text raw => exact absurd htuple (hnone raw)
        | null | unchangedToast => rfl

/-- A tuple's key is that of its key columns' values. -/
theorem extractPk_eq
    (h : ∀ c ∈ rel.columns, rel.isKey keyColumns c = true → Reads convert c (carried c) (value c)) :
    (rel.extractPk convert keyColumns (rel.columns.map carried)).toOption =
      keyJson (namedValues rel.columns (rel.isKey keyColumns) value) := by
  rw [Relation.extractPk, keyPairs_eq h]
  cases namedValues rel.columns (rel.isKey keyColumns) value with
  | nil => rfl
  | cons first rest => rfl

theorem docFields_ok {new old : Tuple} (acc : List (String × Json) × List String)
    (hnew : ∀ p ∈ columns.zip new, ∀ raw, p.2 = .text raw → ∃ v, convert p.1.typeOid raw = .ok v)
    (hold : ∀ p ∈ columns.zip old, ∀ raw, p.2 = .text raw → ∃ v, convert p.1.typeOid raw = .ok v) :
    ∃ built, rel.docFields convert columns new old acc = .ok built := by
  induction columns generalizing new old acc with
  | nil => exact ⟨acc, rfl⟩
  | cons c columns ih =>
    have hold' : ∀ p ∈ columns.zip old.tail, ∀ raw, p.2 = .text raw →
        ∃ v, convert p.1.typeOid raw = .ok v := by
      cases old with
      | nil => exact fun p hp => absurd hp (by simp)
      | cons o old => exact fun p hp => hold p (List.mem_cons_of_mem _ hp)
    cases new with
    | nil => exact ih _ (fun p hp => absurd hp (by simp)) hold'
    | cons n new =>
      have hnew' : ∀ p ∈ columns.zip new, ∀ raw, p.2 = .text raw →
          ∃ v, convert p.1.typeOid raw = .ok v :=
        fun p hp => hnew p (List.mem_cons_of_mem _ hp)
      cases n with
      | null => exact ih _ hnew' hold'
      | text raw =>
        obtain ⟨v, hv⟩ := hnew (c, .text raw) List.mem_cons_self raw rfl
        simp only [Relation.docFields, List.head?_cons, Relation.convertColumn, hv]
        exact ih _ hnew' hold'
      | unchangedToast =>
        cases old with
        | nil => exact ih _ hnew' hold'
        | cons o old =>
          cases o with
          | null | unchangedToast => exact ih _ hnew' hold'
          | text raw =>
            obtain ⟨v, hv⟩ := hold (c, .text raw) List.mem_cons_self raw rfl
            simp only [Relation.docFields, List.head?_cons, Relation.convertColumn, hv]
            exact ih _ hnew' hold'

theorem zip_map_text (h : Converts convert columns row)
    (hcarried : ∀ c ∈ columns, ∀ raw, carried c = .text raw → row c.name = some raw) :
    ∀ p ∈ columns.zip (columns.map carried), ∀ raw, p.2 = .text raw →
      ∃ v, convert p.1.typeOid raw = .ok v := by
  intro p hp raw hraw
  rw [← List.map_prod_left_eq_zip] at hp
  obtain ⟨c, hc, rfl⟩ := List.mem_map.mp hp
  exact h c hc raw (hcarried c hc raw hraw)

theorem carried_text {raw : String} (h : Relation.carried row c = .text raw) :
    row c.name = some raw := by
  rw [Relation.carried] at h
  split at h
  · next hrow => rw [hrow, TupleValue.text.inj h]
  · cases h

/-- A document is built of a tuple that carries values of rows that convert. -/
theorem buildDoc_ok {row oldRow : DbRow} (h : Converts convert rel.columns row)
    (hold : Converts convert rel.columns oldRow) {carried oldCarried : RelationColumn → TupleValue}
    (hcarried : ∀ c ∈ rel.columns, ∀ raw, carried c = .text raw → row c.name = some raw)
    (holdCarried : ∀ c ∈ rel.columns, ∀ raw, oldCarried c = .text raw → oldRow c.name = some raw)
    (htuple : old = none ∨ old = some (rel.columns.map oldCarried)) :
    ∃ built, rel.buildDoc convert (rel.columns.map carried) old = .ok built := by
  have hzip : ∀ p ∈ rel.columns.zip (old.getD []), ∀ raw, p.2 = .text raw →
      ∃ v, convert p.1.typeOid raw = .ok v := by
    rcases htuple with rfl | rfl
    · exact fun p hp => absurd hp (by simp)
    · exact zip_map_text hold holdCarried
  obtain ⟨built, hbuilt⟩ := docFields_ok ([], []) (zip_map_text h hcarried) hzip
  exact ⟨_, by rw [Relation.buildDoc, hbuilt]; rfl⟩

theorem buildDoc_new_ok (h : Converts convert rel.columns row)
    (hcarried : ∀ c ∈ rel.columns, ∀ raw, carried c = .text raw → row c.name = some raw) :
    ∃ built, rel.buildDoc convert (rel.columns.map carried) none = .ok built :=
  buildDoc_ok h h hcarried hcarried (.inl rfl)

/-! ### The load -/

theorem copyFields_ok (appendOnly : Bool) (isPk : String → Bool)
    (acc : List (String × Json) × List (String × Json)) (h : Converts convert columns row) :
    ∃ doc, copyFields convert appendOnly (columns.map fun c => ⟨c.name, c.typeOid, isPk c.name⟩)
      (columns.map fun c => row c.name) acc =
      .ok (doc, Json.extendFields acc.2
        (namedValues columns (fun c => isPk c.name && !appendOnly) (columnValue convert row))) := by
  induction columns generalizing acc with
  | nil => exact ⟨acc.1, rfl⟩
  | cons c columns ih =>
    have hread : ((row c.name).elim (.ok .null) fun raw => (convert c.typeOid raw).mapError fun e =>
        CoreError.other ("column " ++ c.name ++ ": " ++ e.display)) =
        .ok (columnValue convert row c) := by
      cases hrow : row c.name with
      | none => rw [columnValue, hrow]; rfl
      | some raw =>
        obtain ⟨value, hvalue⟩ := h c List.mem_cons_self raw hrow
        rw [columnValue_eq hrow hvalue, Option.elim, hvalue]
        rfl
    obtain ⟨doc, hdoc⟩ := ih (Json.insertField c.name (columnValue convert row c) acc.1,
      if isPk c.name && !appendOnly then Json.insertField c.name (columnValue convert row c) acc.2
      else acc.2) fun d hd => h d (List.mem_cons_of_mem _ hd)
    refine ⟨doc, ?_⟩
    rw [List.map_cons, List.map_cons, copyFields, List.head?_cons, Option.bind_some, id, hread]
    refine hdoc.trans ?_
    rw [namedValues_cons]
    cases isPk c.name && !appendOnly with
    | false => rfl
    | true => rfl

theorem converts_of_copyFields {appendOnly : Bool} {isPk : String → Bool}
    {acc built : List (String × Json) × List (String × Json)}
    (h : copyFields convert appendOnly (columns.map fun c => ⟨c.name, c.typeOid, isPk c.name⟩)
      (columns.map fun c => row c.name) acc = .ok built) : Converts convert columns row := by
  induction columns generalizing acc with
  | nil => exact fun c hc => absurd hc List.not_mem_nil
  | cons c columns ih =>
    rw [List.map_cons, List.map_cons, copyFields] at h
    obtain ⟨value, hvalue, h⟩ := Except.bind_eq_ok h
    intro d hd raw hraw
    rcases List.mem_cons.mp hd with rfl | hd
    · rw [List.head?_cons, Option.bind_some, id, hraw] at hvalue
      cases hconvert : convert d.typeOid raw with
      | ok v => exact ⟨v, rfl⟩
      | error e =>
        rw [Option.elim, hconvert] at hvalue
        cases hvalue
    · exact ih h d hd raw hraw

end

namespace RowSource

variable {t : RowSource} {convert : ℕ → String → Except CoreError Json}

theorem converts_of_loadKey (h : (t.loadKey convert row).isSome = true) :
    Converts convert t.rel.columns row := by
  rw [loadKey, Option.isSome_map] at h
  cases hloaded : t.loaded convert id none row with
  | error e =>
    rw [hloaded] at h
    cases h
  | ok change =>
    obtain ⟨built, hbuilt, -⟩ := Except.bind_eq_ok hloaded
    exact converts_of_copyFields hbuilt

/-- The load's key: the catalogue's columns of the row. -/
theorem loadKey_eq (hkey : t.appendOnly = false) (h : Converts convert t.rel.columns row) :
    t.loadKey convert row =
      keyJson (namedValues t.rel.columns (fun c => t.pkColumns.contains c.name)
        (columnValue convert row)) := by
  obtain ⟨doc, hdoc⟩ := copyFields_ok t.appendOnly t.pkColumns.contains ([], []) h
  have hpairs : namedValues t.rel.columns
      (fun c => t.pkColumns.contains c.name && !t.appendOnly) (columnValue convert row) =
      namedValues t.rel.columns (fun c => t.pkColumns.contains c.name)
        (columnValue convert row) :=
    namedValues_congr (fun c _ => by rw [hkey]; simp) fun _ _ _ => rfl
  rw [hpairs] at hdoc
  rw [keyJson_of_extendFields (nodup_namedValues t.distinct _ _), loadKey, loaded, buildCopied,
    columnsOf, hdoc, hkey]
  cases Json.extendFields [] (namedValues t.rel.columns (fun c => t.pkColumns.contains c.name)
    (columnValue convert row)) with
  | nil => rfl
  | cons first rest =>
    cases rest with
    | nil => rfl
    | cons second rest => rfl

theorem loadKey_appendOnly (hkey : t.appendOnly = true) (h : Converts convert t.rel.columns row) :
    t.loadKey convert row = some .null := by
  obtain ⟨doc, hdoc⟩ := copyFields_ok t.appendOnly t.pkColumns.contains ([], []) h
  have hpairs : namedValues t.rel.columns
      (fun c => t.pkColumns.contains c.name && !t.appendOnly) (columnValue convert row) = [] := by
    rw [namedValues, hkey, List.filter_eq_nil_iff.mpr fun c _ => by simp]
    rfl
  rw [hpairs] at hdoc
  rw [loadKey, loaded, buildCopied, columnsOf, hdoc, hkey]
  rfl

/-! ### The stream -/

theorem toOption_eq_some {α : Type} {x : Except CoreError α} {a : α} :
    x.toOption = some a ↔ x = .ok a := by
  cases x with
  | error e => exact ⟨nofun, nofun⟩
  | ok b => exact ⟨fun h => congrArg _ (Option.some.inj h), fun h => congrArg _ (Except.ok.inj h)⟩

theorem keyColumns_eq (hkey : t.appendOnly = false) : t.keyColumns = t.pkColumns := by
  rw [keyColumns, hkey]
  rfl

theorem pkColumns_ne (hkey : t.appendOnly = false) : t.pkColumns ≠ [] := by
  rcases t.keyed with h | h
  · exact List.append_ne_nil_of_left_ne_nil h _
  · rw [hkey] at h
    cases h

theorem isKey_full (hkey : t.appendOnly = false) (hfull : t.rel.replicaIdentity = .full)
    (c : RelationColumn) :
    t.rel.isKey (some t.keyColumns) c = t.pkColumns.contains c.name := by
  rw [Relation.isKey, keyColumns_eq hkey]
  exact if_pos ⟨hfull, pkColumns_ne hkey⟩

theorem isKey_of_ne_full (hfull : t.rel.replicaIdentity ≠ .full) (c : RelationColumn) :
    t.rel.isKey (some t.keyColumns) c = c.inReplicaIdentity :=
  if_neg fun h => hfull h.1

theorem isKey_eq (hkey : t.appendOnly = false) (hid : t.IdentifiesByKey) :
    ∀ c ∈ t.rel.columns,
      t.rel.isKey (some t.keyColumns) c = t.pkColumns.contains c.name := by
  intro c hc
  by_cases hfull : t.rel.replicaIdentity = .full
  · exact isKey_full hkey hfull c
  · rw [isKey_of_ne_full hfull, Bool.eq_iff_iff, List.contains_iff_mem]
    exact hid.resolve_left hfull c hc

/-- A tuple that carries the columns of the key of a row has the row's key. -/
theorem extractPk_of_carried (hkey : t.appendOnly = false) (hid : t.IdentifiesByKey)
    (hconverts : Converts convert t.rel.columns row)
    (hcarried : ∀ c ∈ t.rel.columns, c.name ∈ t.pkColumns → carried c = Relation.carried row c) :
    (t.rel.extractPk convert (some t.keyColumns) (t.rel.columns.map carried)).toOption =
      t.loadKey convert row := by
  have hreads : ∀ c ∈ t.rel.columns, t.rel.isKey (some t.keyColumns) c = true →
      Reads convert c (carried c) (columnValue convert row c) := by
    intro c hc hp
    rw [isKey_eq hkey hid c hc] at hp
    rw [hcarried c hc (List.contains_iff_mem.mp hp)]
    exact reads_carried hconverts hc
  rw [extractPk_eq hreads, loadKey_eq hkey hconverts]
  exact congrArg keyJson (namedValues_congr (isKey_eq hkey hid) fun _ _ _ => rfl)

theorem carried_full (row : DbRow) : ∀ c ∈ t.rel.columns, c.name ∈ t.pkColumns →
    Relation.carried row c = Relation.carried row c :=
  fun _ _ _ => rfl

theorem carried_key (hid : t.IdentifiesByKey) (hfull : t.rel.replicaIdentity ≠ .full)
    (row : DbRow) : ∀ c ∈ t.rel.columns, c.name ∈ t.pkColumns →
      (if c.inReplicaIdentity = true then Relation.carried row c else .null) =
        Relation.carried row c :=
  fun c hc hp => if_pos ((hid.resolve_left hfull c hc).mpr hp)

variable {toasted : String → Bool}

theorem carried_new (htoast : ∀ name ∈ t.pkColumns, t.toastable name = false)
    (htoasted : ∀ name, toasted name = true → t.toastable name = true) (old new : DbRow) :
    ∀ c ∈ t.rel.columns, c.name ∈ t.pkColumns →
      (if (toasted c.name && decide (old c.name = new c.name)) = true then
        TupleValue.unchangedToast else Relation.carried new c) = Relation.carried new c := by
  intro c _ hp
  have hnot : toasted c.name = false := by
    cases h : toasted c.name with
    | false => rfl
    | true =>
      have htrue := htoasted c.name h
      rw [htoast c.name hp] at htrue
      cases htrue
  rw [hnot]
  rfl

/-- The text of a tuple is the row's. -/
theorem text_of_key :
    ∀ c ∈ t.rel.columns, ∀ raw,
      (if c.inReplicaIdentity = true then Relation.carried row c else .null) = .text raw →
      row c.name = some raw := by
  intro c _ raw h
  by_cases hp : c.inReplicaIdentity = true
  · rw [if_pos hp] at h
    exact carried_text h
  · rw [if_neg hp] at h
    cases h

theorem text_of_new {p : RelationColumn → Prop} [DecidablePred p] :
    ∀ c ∈ t.rel.columns, ∀ raw,
      (if p c then TupleValue.unchangedToast else Relation.carried row c) = .text raw →
      row c.name = some raw := by
  intro c _ raw h
  by_cases hp : p c
  · rw [if_pos hp] at h
    cases h
  · rw [if_neg hp] at h
    exact carried_text h

theorem streamed_insert (hkey : t.appendOnly = false) (hid : t.IdentifiesByKey) {new : DbRow}
    (hnew : (t.loadKey convert new).isSome = true) :
    ∃ change, t.streamed convert toasted (.insert new) = .ok change ∧
      SameKeys (t.loadKey convert) (.insert new) change.kind := by
  have hconverts := converts_of_loadKey hnew
  obtain ⟨pk, hpk⟩ := Option.isSome_iff_exists.mp hnew
  have hextract : t.rel.extractPk convert (some t.keyColumns) (t.rel.fullTuple new) = .ok pk :=
    toOption_eq_some.mp ((extractPk_of_carried hkey hid hconverts (carried_full new)).trans hpk)
  obtain ⟨built, hbuilt⟩ : ∃ built, t.rel.buildDoc convert (t.rel.fullTuple new) none = .ok built :=
    buildDoc_new_ok hconverts fun _ _ _ => carried_text
  refine ⟨⟨t.rel.tableName, .insert pk built.1, none⟩, ?_, hpk⟩
  simp only [streamed, Relation.incoming, Relation.buildRowChange, hkey, hextract, hbuilt]
  rfl

theorem buildUpdate_ok {rel : Relation} {pk : Json} {new : Tuple}
    (hpk : rel.extractPk convert keyColumns new = .ok pk)
    (hdoc : ∃ built, rel.buildDoc convert new old = .ok built)
    (hold : ∀ prev, old = some prev → ∃ built, rel.buildDoc convert prev none = .ok built) :
    ∃ doc toast before, rel.buildUpdate convert keyColumns old new =
      .ok (.update pk (old.bind fun prev => (rel.extractPk convert keyColumns prev).toOption) doc
        toast before) := by
  obtain ⟨built, hbuilt⟩ := hdoc
  rw [Relation.buildUpdate, hpk]
  simp only [hbuilt]
  cases old with
  | none => exact ⟨built.1, built.2, none, rfl⟩
  | some prev =>
    obtain ⟨image, himage⟩ := hold prev rfl
    cases rel.replicaIdentity with
    | full => exact ⟨built.1, built.2, some image.1, by simp only [himage]; rfl⟩
    | default | nothing | index => exact ⟨built.1, built.2, none, rfl⟩

theorem pk_of_buildUpdate {rel : Relation} {new : Tuple} {kind : RowKind}
    (h : rel.buildUpdate convert keyColumns old new = .ok kind) :
    ∃ pk previousPk doc toast before, kind = .update pk previousPk doc toast before ∧
      rel.extractPk convert keyColumns new = .ok pk := by
  obtain ⟨pk, hpk, h⟩ := Except.bind_eq_ok h
  obtain ⟨⟨doc, toast⟩, -, h⟩ := Except.bind_eq_ok h
  dsimp only at h
  split at h
  · obtain ⟨before, -, h⟩ := Except.bind_eq_ok h
    cases h
    exact ⟨pk, _, doc, toast, before, rfl, hpk⟩
  · obtain ⟨before, -, h⟩ := Except.bind_eq_ok h
    cases h
    exact ⟨pk, _, doc, toast, before, rfl, hpk⟩

variable {old new : DbRow}

/-- Rows whose identity is the same have the same key. -/
theorem loadKey_congr (hkey : t.appendOnly = false) (hold : Converts convert t.rel.columns old)
    (hnew : Converts convert t.rel.columns new)
    (h : ∀ c ∈ t.rel.columns, c.name ∈ t.pkColumns → old c.name = new c.name) :
    t.loadKey convert old = t.loadKey convert new := by
  rw [loadKey_eq hkey hold, loadKey_eq hkey hnew]
  refine congrArg keyJson (namedValues_congr (fun _ _ => rfl) fun c hc hp => ?_)
  rw [columnValue, columnValue, h c hc (List.contains_iff_mem.mp hp)]

theorem carried_inj (h : Relation.carried old c = Relation.carried new c) :
    old c.name = new c.name := by
  cases hold : old c.name with
  | none =>
    cases hnew : new c.name with
    | none => rfl
    | some raw =>
      rw [Relation.carried, Relation.carried, hold, hnew] at h
      cases h
  | some raw =>
    cases hnew : new c.name with
    | none =>
      rw [Relation.carried, Relation.carried, hold, hnew] at h
      cases h
    | some raw' =>
      rw [Relation.carried, Relation.carried, hold, hnew] at h
      rw [TupleValue.text.inj h]

theorem streamed_update (hkey : t.appendOnly = false) (hid : t.IdentifiesByKey)
    (htoast : ∀ name ∈ t.pkColumns, t.toastable name = false)
    (htoasted : ∀ name, toasted name = true → t.toastable name = true)
    (hold : (t.loadKey convert old).isSome = true) (hnew : (t.loadKey convert new).isSome = true) :
    ∃ change, t.streamed convert toasted (.update old new) = .ok change ∧
      SameKeys (t.loadKey convert) (.update old new) change.kind := by
  have hconverts := converts_of_loadKey hnew
  have hconvertsOld := converts_of_loadKey hold
  obtain ⟨pk, hpk⟩ := Option.isSome_iff_exists.mp hnew
  obtain ⟨oldPk, holdPk⟩ := Option.isSome_iff_exists.mp hold
  have hextract : t.rel.extractPk convert (some t.keyColumns) (t.rel.newTuple toasted old new) =
      .ok pk :=
    toOption_eq_some.mp ((extractPk_of_carried hkey hid hconverts
      (carried_new htoast htoasted old new)).trans hpk)
  -- what the log says of the old row: all of it, its key, or nothing
  obtain ⟨before, hincoming, hkeys, hbuilt, himage⟩ : ∃ before : Option Tuple,
      t.rel.incoming toasted (.update old new) = .update before (t.rel.newTuple toasted old new) ∧
      (before.bind fun prev =>
        (t.rel.extractPk convert (some t.keyColumns) prev).toOption).getD pk = oldPk ∧
      (∃ built, t.rel.buildDoc convert (t.rel.newTuple toasted old new) before = .ok built) ∧
      ∀ prev, before = some prev → ∃ built, t.rel.buildDoc convert prev none = .ok built := by
    by_cases hfull : t.rel.replicaIdentity = .full
    · refine ⟨some (t.rel.fullTuple old),
        by simp only [Relation.incoming, if_pos hfull], ?_, ?_, ?_⟩
      · have hprev := extractPk_of_carried hkey hid hconvertsOld (carried_full old)
        rw [holdPk] at hprev
        rw [Option.bind_some, Relation.fullTuple, hprev]
        rfl
      · exact buildDoc_ok hconverts hconvertsOld text_of_new (fun _ _ _ => carried_text) (.inr rfl)
      · rintro prev hprev
        rw [← Option.some.inj hprev]
        exact buildDoc_new_ok hconvertsOld fun _ _ _ => carried_text
    · by_cases hsame : t.rel.keyTuple old = t.rel.keyTuple new
      · refine ⟨none, by simp only [Relation.incoming, if_neg hfull, if_pos hsame], ?_, ?_, nofun⟩
        · have hcarried := List.map_inj_left.mp hsame
          have heq : t.loadKey convert old = t.loadKey convert new :=
            loadKey_congr hkey hconvertsOld hconverts fun c hc hp => by
              have h := hcarried c hc
              rw [carried_key hid hfull old c hc hp, carried_key hid hfull new c hc hp] at h
              exact carried_inj h
          rw [hpk, holdPk] at heq
          exact (Option.some.inj heq).symm
        · exact buildDoc_new_ok hconverts text_of_new
      · refine ⟨some (t.rel.keyTuple old),
          by simp only [Relation.incoming, if_neg hfull, if_neg hsame], ?_, ?_, ?_⟩
        · have hprev := extractPk_of_carried hkey hid hconvertsOld (carried_key hid hfull old)
          rw [holdPk] at hprev
          rw [Option.bind_some, Relation.keyTuple, hprev]
          rfl
        · exact buildDoc_ok hconverts hconvertsOld text_of_new
            text_of_key (.inr rfl)
        · rintro prev hprev
          rw [← Option.some.inj hprev]
          exact buildDoc_new_ok hconvertsOld text_of_key
  obtain ⟨doc, toast, image, hupdate⟩ := buildUpdate_ok hextract hbuilt himage
  generalize (before.bind fun prev =>
    (t.rel.extractPk convert (some t.keyColumns) prev).toOption) = previousPk at hkeys hupdate
  refine ⟨⟨t.rel.tableName, .update pk previousPk doc toast image, none⟩, ?_, ?_⟩
  · rw [streamed, hincoming]
    simp only [Relation.buildRowChange, hkey, Relation.checkDeleteCapability, t.replicated, hupdate]
    rfl
  · refine ⟨hpk, ?_⟩
    rw [holdPk, hkeys]

theorem streamed_delete (hkey : t.appendOnly = false) (hid : t.IdentifiesByKey) {old : DbRow}
    (hold : (t.loadKey convert old).isSome = true) :
    ∃ change, t.streamed convert toasted (.delete old) = .ok change ∧
      SameKeys (t.loadKey convert) (.delete old) change.kind := by
  have hconverts := converts_of_loadKey hold
  obtain ⟨pk, hpk⟩ := Option.isSome_iff_exists.mp hold
  by_cases hfull : t.rel.replicaIdentity = .full
  · have hextract : t.rel.extractPk convert (some t.keyColumns) (t.rel.fullTuple old) = .ok pk :=
      toOption_eq_some.mp ((extractPk_of_carried hkey hid hconverts (carried_full old)).trans hpk)
    obtain ⟨built, hbuilt⟩ : ∃ built,
        t.rel.buildDoc convert (t.rel.fullTuple old) none = .ok built :=
      buildDoc_new_ok hconverts fun _ _ _ => carried_text
    refine ⟨⟨t.rel.tableName, .delete pk (some built.1), none⟩, ?_, hpk⟩
    simp only [streamed, Relation.incoming, Relation.buildRowChange, hkey, if_pos hfull,
      Relation.checkDeleteCapability, t.replicated, Relation.buildDelete, hextract, hbuilt]
    rfl
  · have hextract : t.rel.extractPk convert (some t.keyColumns) (t.rel.keyTuple old) = .ok pk :=
      toOption_eq_some.mp ((extractPk_of_carried hkey hid hconverts
        (carried_key hid hfull old)).trans hpk)
    refine ⟨⟨t.rel.tableName, .delete pk none, none⟩, ?_, hpk⟩
    simp only [streamed, Relation.incoming, Relation.buildRowChange, hkey, if_neg hfull,
      Relation.checkDeleteCapability, t.replicated, Relation.buildDelete, hextract]
    rfl

theorem streamed_appendOnly (hkey : t.appendOnly = true) {new : DbRow}
    (hnew : (t.loadKey convert new).isSome = true) :
    ∃ change, t.streamed convert toasted (.insert new) = .ok change ∧
      SameKeys (t.loadKey convert) (.insert new) change.kind := by
  have hconverts := converts_of_loadKey hnew
  obtain ⟨built, hbuilt⟩ : ∃ built, t.rel.buildDoc convert (t.rel.fullTuple new) none = .ok built :=
    buildDoc_new_ok hconverts fun _ _ _ => carried_text
  refine ⟨⟨t.rel.tableName, .insert .null built.1, none⟩, ?_, loadKey_appendOnly hkey hconverts⟩
  simp only [streamed, Relation.incoming, Relation.buildRowChange, hkey, hbuilt]
  rfl

theorem oneIdentity_of (h : t.appendOnly = true ∨ t.IdentifiesByKey ∧
    ∀ name ∈ t.pkColumns, t.toastable name = false) : t.OneIdentity convert := by
  rintro toasted event htoasted ⟨hrows, hinsert⟩
  cases hkey : t.appendOnly with
  | true =>
    obtain ⟨new, rfl⟩ := hinsert hkey
    exact streamed_appendOnly hkey (hrows new List.mem_cons_self).2
  | false =>
    obtain ⟨hid, htoast⟩ := h.resolve_left (by simp [hkey])
    cases event with
    | insert new => exact streamed_insert hkey hid (hrows new List.mem_cons_self).2
    | update old new =>
      exact streamed_update hkey hid htoast htoasted
        (hrows old (List.mem_cons_of_mem _ List.mem_cons_self)).2 (hrows new List.mem_cons_self).2
    | delete old => exact streamed_delete hkey hid (hrows old List.mem_cons_self).2

/-! ### Rows that tell two keys apart -/

/-- The row with a text in each column. -/
def rowOf (columns : List RelationColumn) (text : RelationColumn → String) : DbRow := fun name =>
  (columns.find? fun c => c.name = name).map text

theorem rowOf_eq (h : (columns.map RelationColumn.name).Nodup) (text : RelationColumn → String)
    (hc : c ∈ columns) : rowOf columns text c.name = some (text c) := by
  have hfind : columns.find? (fun d => d.name = c.name) = some c := by
    induction columns with
    | nil => cases hc
    | cons d rest ih =>
      obtain ⟨hd, hrest⟩ := List.nodup_cons.mp h
      rcases List.mem_cons.mp hc with rfl | hc
      · exact List.find?_cons_of_pos (decide_eq_true rfl)
      · have hne : d.name ≠ c.name := fun heq => hd (heq ▸ List.mem_map_of_mem hc)
        rw [List.find?_cons_of_neg (by simpa using hne)]
        exact ih hrest hc
  rw [rowOf, hfind]
  rfl

theorem eq_of_name_eq (h : (columns.map RelationColumn.name).Nodup) {c d : RelationColumn}
    (hc : c ∈ columns) (hd : d ∈ columns) (heq : d.name = c.name) : d = c :=
  List.inj_on_of_nodup_map h hd hc heq

theorem keyJson_isSome (h : pairs ≠ []) : (keyJson pairs).isSome = true := by
  cases pairs with
  | nil => exact absurd rfl h
  | cons p rest => rfl

/-- A value of one column decides a key that has the column, and no other. -/
theorem not_key_of_agree (hdistinct : (columns.map RelationColumn.name).Nodup)
    {p q : RelationColumn → Bool} {value value' : RelationColumn → Json} (hc : c ∈ columns)
    (hne : value c ≠ value' c) (hother : ∀ d ∈ columns, d.name ≠ c.name → value d = value' d)
    (h : keyJson (namedValues columns p value) = keyJson (namedValues columns q value))
    (h' : keyJson (namedValues columns p value') = keyJson (namedValues columns q value'))
    (hp : p c = true) : q c = true := by
  cases hq : q c with
  | true => rfl
  | false =>
    have hsame : namedValues columns q value = namedValues columns q value' := by
      refine namedValues_congr (fun _ _ => rfl) fun d hd hqd => hother d hd fun heq => ?_
      rw [eq_of_name_eq hdistinct hc hd heq, hq] at hqd
      cases hqd
    refine absurd (keyJson_inj (nodup_namedValues hdistinct p value) ?_ ?_
      (mem_namedValues hc hp) (mem_namedValues hc hp)) hne
    · rw [map_fst_namedValues, map_fst_namedValues]
    · rw [h, h', hsame]

variable {text : ℕ → Bool → String} {shown : ℕ → Bool → Json}

/-- The row that has in one column the second text of its type, and in the others the
first. -/
def oneSecond (t : RowSource) (text : ℕ → Bool → String) (name : String) (second : Bool) : DbRow :=
  rowOf t.rel.columns fun c => text c.typeOid (second && decide (c.name = name))

theorem columnValue_oneSecond (htext : ∀ oid b, convert oid (text oid b) = .ok (shown oid b))
    {second : Bool} (hc : c ∈ t.rel.columns) :
    columnValue convert (t.oneSecond text name second) c =
      shown c.typeOid (second && decide (c.name = name)) :=
  columnValue_eq (rowOf_eq t.distinct _ hc) (htext _ _)

theorem converts_oneSecond (htext : ∀ oid b, convert oid (text oid b) = .ok (shown oid b))
    (name : String) (second : Bool) :
    Converts convert t.rel.columns (t.oneSecond text name second) := by
  intro c hc raw hraw
  rw [oneSecond, rowOf_eq t.distinct _ hc, Option.some.injEq] at hraw
  exact ⟨_, hraw ▸ htext _ _⟩

theorem holds_oneSecond (name : String) (second : Bool) :
    t.Holds (t.oneSecond text name second) := by
  have hsome : ∀ c ∈ t.rel.columns, (t.oneSecond text name second c.name).isSome = true := by
    intro c hc
    rw [oneSecond, rowOf_eq t.distinct _ hc]
    rfl
  refine ⟨fun column hcolumn => ?_, fun _ c hc _ => hsome c hc⟩
  obtain ⟨c, hc, rfl⟩ := List.mem_map.mp (t.known column (List.mem_append_left _ hcolumn))
  exact hsome c hc

theorem loadKey_oneSecond (hkey : t.appendOnly = false)
    (htext : ∀ oid b, convert oid (text oid b) = .ok (shown oid b)) (name : String)
    (second : Bool) : (t.loadKey convert (t.oneSecond text name second)).isSome = true := by
  rw [loadKey_eq hkey (converts_oneSecond htext name second)]
  obtain ⟨column, hcolumn⟩ := List.exists_mem_of_ne_nil _ (pkColumns_ne hkey)
  obtain ⟨c, hc, rfl⟩ := List.mem_map.mp (t.known column hcolumn)
  exact keyJson_isSome (List.ne_nil_of_mem (mem_namedValues hc (List.contains_iff_mem.mpr hcolumn)))

/-- Where rows have one key, an insert has the load's. -/
theorem OneIdentity.insert (h : t.OneIdentity convert) (hkey : t.appendOnly = false)
    (hholds : t.Holds row) (hconverts : Converts convert t.rel.columns row)
    (hload : (t.loadKey convert row).isSome = true) :
    keyJson (namedValues t.rel.columns (t.rel.isKey (some t.keyColumns))
        (columnValue convert row)) =
      keyJson (namedValues t.rel.columns (fun c => t.pkColumns.contains c.name)
        (columnValue convert row)) := by
  obtain ⟨change, hstreamed, hsame⟩ := h (fun _ => false) (.insert row) (fun _ => nofun)
    ⟨fun r hr => List.mem_singleton.mp hr ▸ ⟨hholds, hload⟩, fun happend => ⟨row, rfl⟩⟩
  simp only [streamed, Relation.incoming, Relation.buildRowChange, hkey] at hstreamed
  obtain ⟨pk, hpk, hstreamed⟩ := Except.bind_eq_ok hstreamed
  obtain ⟨built, -, hstreamed⟩ := Except.bind_eq_ok hstreamed
  cases hstreamed
  have hextract : (t.rel.extractPk convert (some t.keyColumns) (t.rel.fullTuple row)).toOption =
      some pk := toOption_eq_some.mpr hpk
  rw [Relation.fullTuple, extractPk_eq fun c hc _ => reads_carried hconverts hc] at hextract
  rw [hextract, ← loadKey_eq hkey hconverts]
  exact hsame.symm

theorem identifiesByKey_of (h : t.OneIdentity convert) (hkey : t.appendOnly = false)
    (htext : ∀ oid b, convert oid (text oid b) = .ok (shown oid b))
    (hshown : ∀ oid, shown oid false ≠ shown oid true) : t.IdentifiesByKey := by
  by_cases hfull : t.rel.replicaIdentity = .full
  · exact .inl hfull
  · refine .inr fun c hc => ?_
    have hagree := fun second => h.insert hkey (holds_oneSecond c.name second)
      (converts_oneSecond htext c.name second) (loadKey_oneSecond hkey htext c.name second)
    have hne : columnValue convert (t.oneSecond text c.name false) c ≠
        columnValue convert (t.oneSecond text c.name true) c := by
      rw [columnValue_oneSecond htext hc, columnValue_oneSecond htext hc, decide_eq_true rfl]
      exact hshown c.typeOid
    have hother : ∀ d ∈ t.rel.columns, d.name ≠ c.name →
        columnValue convert (t.oneSecond text c.name false) d =
          columnValue convert (t.oneSecond text c.name true) d := by
      intro d hd hname
      rw [columnValue_oneSecond htext hd, columnValue_oneSecond htext hd, decide_eq_false hname]
      rfl
    rw [← List.contains_iff_mem, ← isKey_of_ne_full hfull c]
    constructor
    · intro hflag
      exact not_key_of_agree t.distinct hc hne hother (hagree false) (hagree true) hflag
    · intro hmem
      exact not_key_of_agree (p := fun c => t.pkColumns.contains c.name) t.distinct hc hne hother
        (hagree false).symm (hagree true).symm hmem

theorem not_toastable_of (h : t.OneIdentity convert) (hkey : t.appendOnly = false)
    (htext : ∀ oid b, convert oid (text oid b) = .ok (shown oid b))
    (hshown : ∀ oid, shown oid false ≠ shown oid true) :
    ∀ name ∈ t.pkColumns, t.toastable name = false := by
  intro name hname
  by_contra htoastable
  rw [Bool.not_eq_false] at htoastable
  obtain ⟨c, hc, rfl⟩ := List.mem_map.mp (t.known name hname)
  -- one of the two texts is not read as null
  obtain ⟨second, hsecond⟩ : ∃ second, shown c.typeOid second ≠ .null := by
    by_cases hfirst : shown c.typeOid false = .null
    · exact ⟨true, fun hnull => hshown c.typeOid (hfirst.trans hnull.symm)⟩
    · exact ⟨false, hfirst⟩
  set row := t.oneSecond text c.name second with hrow
  have hconverts : Converts convert t.rel.columns row := converts_oneSecond htext c.name second
  have hvalue : columnValue convert row c = shown c.typeOid second := by
    rw [hrow, columnValue_oneSecond htext hc, decide_eq_true rfl, Bool.and_true]
  obtain ⟨change, hstreamed, hsame⟩ := h (fun column => column = c.name) (.update row row)
    (fun column hcolumn => by rw [of_decide_eq_true hcolumn, htoastable])
    ⟨fun r hr => by
      have heq : r = row := by simpa [RowEvent.rows] using hr
      rw [heq]
      exact ⟨holds_oneSecond c.name second, loadKey_oneSecond hkey htext c.name second⟩,
      fun happend => by rw [hkey] at happend; cases happend⟩
  simp only [streamed, Relation.incoming, Relation.buildRowChange, hkey,
    Relation.checkDeleteCapability, t.replicated] at hstreamed
  obtain ⟨_, -, hstreamed⟩ := Except.bind_eq_ok hstreamed
  obtain ⟨kind, hkind, hstreamed⟩ := Except.bind_eq_ok hstreamed
  obtain ⟨pk, previousPk, doc, toast, before, rfl, hpk⟩ := pk_of_buildUpdate hkind
  cases hstreamed
  have hextract := toOption_eq_some.mpr hpk
  have hreads : ∀ d ∈ t.rel.columns, t.rel.isKey (some t.keyColumns) d = true →
      Reads convert d (if (decide (d.name = c.name) && decide (row d.name = row d.name)) = true then
        .unchangedToast else Relation.carried row d)
        (if d.name = c.name then .null else columnValue convert row d) := by
    intro d hd _
    by_cases hd' : d.name = c.name
    · rw [if_pos hd', if_pos (by simp [hd'])]
      exact .inr ⟨nofun, rfl⟩
    · rw [if_neg hd', if_neg (by simp [hd'])]
      exact reads_carried hconverts hd
  rw [Relation.newTuple, extractPk_eq hreads] at hextract
  have hload : t.loadKey convert row = some pk := hsame.1
  rw [loadKey_eq hkey hconverts] at hload
  have hpkCols := identifiesByKey_of h hkey htext hshown
  rw [namedValues_congr (isKey_eq hkey hpkCols) fun _ _ _ => rfl, ← hload] at hextract
  have hmem := List.contains_iff_mem.mpr hname
  have hnull := keyJson_inj (nodup_namedValues t.distinct _ _)
    (by rw [map_fst_namedValues, map_fst_namedValues]) hextract
    (mem_namedValues (p := fun c => t.pkColumns.contains c.name) hc hmem)
    (mem_namedValues (p := fun c => t.pkColumns.contains c.name) hc hmem)
  rw [if_pos rfl, hvalue] at hnull
  exact hsecond hnull.symm

theorem identifies_of_oneIdentity (htypes : ∀ oid, ∃ text text' value value',
    convert oid text = .ok value ∧ convert oid text' = .ok value' ∧ value ≠ value')
    (h : t.OneIdentity convert) : t.appendOnly = true ∨ t.IdentifiesByKey ∧
      ∀ name ∈ t.pkColumns, t.toastable name = false := by
  choose text text' value value' htext htext' hne using htypes
  have hboth : ∀ oid (b : Bool), convert oid (if b then text' oid else text oid) =
      .ok (if b then value' oid else value oid) := by
    intro oid b
    cases b with
    | false => exact htext oid
    | true => exact htext' oid
  cases hkey : t.appendOnly with
  | true => exact .inl rfl
  | false =>
    refine .inr ⟨identifiesByKey_of h hkey hboth ?_, not_toastable_of h hkey hboth ?_⟩
    · exact hne
    · exact hne

/-- **The stream and the load agree about the key of every row of a table exactly if the
stream takes it from the columns of the primary index, and no value of these is ever left
out as unchanged**, where every type has two values. -/
theorem oneIdentity_iff (htypes : ∀ oid, ∃ text text' value value', convert oid text = .ok value ∧
    convert oid text' = .ok value' ∧ value ≠ value') :
    t.OneIdentity convert ↔ t.appendOnly = true ∨ t.IdentifiesByKey ∧
      ∀ name ∈ t.pkColumns, t.toastable name = false :=
  ⟨identifies_of_oneIdentity htypes, oneIdentity_of⟩

/-! ### Accounts with a key and a code -/

/-- A type map that takes every value for text. -/
def asText : ℕ → String → Except CoreError Json := fun _ raw => .ok (.str raw)

theorem asText_types : ∀ oid, ∃ text text' value value', asText oid text = .ok value ∧
    asText oid text' = .ok value' ∧ value ≠ value' :=
  fun _ => ⟨"a", "b", .str "a", .str "b", rfl, rfl, by decide⟩

/-- Accounts have an id, which is their primary key, and a code; the replica identity
flags some of these. -/
def accountColumns (id code : Bool) : List RelationColumn :=
  [⟨"id", 25, id⟩, ⟨"code", 25, code⟩]

/-- The table with its default identity. -/
def accounts : RowSource where
  rel := ⟨"public", "accounts", .default, accountColumns true false⟩
  primaryKey := ["id"]
  included := []
  toastable := fun column => column = "code"
  appendOnly := false
  distinct := by decide
  keyed := by decide
  known := by decide
  replicated := by decide
  flagsDefault := fun _ => by decide
  flagsFull := nofun
  flagsIndex := nofun

theorem accounts_oneIdentity : accounts.OneIdentity asText :=
  (oneIdentity_iff asText_types).mpr (.inr ⟨.inr (by decide), by decide⟩)

/-- With its code for a replica identity. -/
def accountsByCode : RowSource where
  rel := ⟨"public", "accounts", .index, accountColumns false true⟩
  primaryKey := ["id"]
  included := []
  toastable := fun _ => false
  appendOnly := false
  distinct := by decide
  keyed := by decide
  known := by decide
  replicated := by decide
  flagsDefault := nofun
  flagsFull := nofun
  flagsIndex := fun _ => ⟨_, List.mem_cons_of_mem _ List.mem_cons_self, rfl⟩

/-- With an id that is stored out of line. -/
def accountsOfDocuments : RowSource :=
  { accounts with toastable := fun column => column = "id" }

/-- With a primary index that includes the code. -/
def accountsCovering : RowSource where
  rel := ⟨"public", "accounts", .default, accountColumns true false⟩
  primaryKey := ["id"]
  included := ["code"]
  toastable := fun _ => false
  appendOnly := false
  distinct := by decide
  keyed := by decide
  known := by decide
  replicated := by decide
  flagsDefault := fun _ => by decide
  flagsFull := nofun
  flagsIndex := nofun

/-- An account. -/
def account (id code : String) : DbRow := fun column =>
  if column = "id" then some id else if column = "code" then some code else none

/-- The key of the change that the stream makes of an event. -/
def streamKey (t : RowSource) (toasted : String → Bool) (event : RowEvent DbRow) : Option Json :=
  (t.streamed asText toasted event).toOption.map fun change => change.kind.pk

/-- The load files an account under its id. The stream deletes it under its code, writes
an update of it under null where the id is left out, and inserts it under an object where
the index includes the code. -/
theorem accounts_strand :
    (accountsByCode.loadKey asText (account "1" "A7") = some (.str "1") ∧
      accountsByCode.streamKey (fun _ => false) (.delete (account "1" "A7")) = some (.str "A7")) ∧
    (accountsOfDocuments.loadKey asText (account "1" "A8") = some (.str "1") ∧
      accountsOfDocuments.streamKey (fun column => column = "id")
        (.update (account "1" "A7") (account "1" "A8")) = some .null) ∧
    accountsCovering.loadKey asText (account "1" "A7") =
        some (.obj [("code", .str "A7"), ("id", .str "1")]) ∧
      accountsCovering.streamKey (fun _ => false) (.insert (account "1" "A7")) =
        some (.str "1") ∧
    ¬accountsByCode.OneIdentity asText ∧ ¬accountsOfDocuments.OneIdentity asText ∧
      ¬accountsCovering.OneIdentity asText := by
  refine ⟨⟨by decide, by decide⟩, ⟨by decide, by decide⟩, by decide, by decide, ?_, ?_, ?_⟩
  · exact fun h => absurd (identifies_of_oneIdentity asText_types h) (by decide)
  · exact fun h => absurd (identifies_of_oneIdentity asText_types h) (by decide)
  · exact fun h => absurd (identifies_of_oneIdentity asText_types h) (by decide)

end RowSource

end Pg2osync
