import Pg2osync.Classify
import Pg2osync.Emission
import Pg2osync.Engine
import Pg2osync.ParentKeys
import Pg2osync.RowIdentity

/-!
# Rows that are held back

A row of a table with collections is held until they can be read for its whole group, and
a row of a watched table is held as the keys of the parents it names. A flush reads what
is missing and sends the documents, one parent table after the other.
-/

namespace Pg2osync

/-- `Pending` of the collections: what is held. The tables of its maps have no order. -/
structure ChildrenPending : Type where
  /-- rows of tables with collections -/
  parents : List (TableName × RowChange)
  /-- keys of parents that are read again -/
  named : List (TableName × Json)
  /-- keys of children, for the junction of a table's collection -/
  through : List ((TableName × String) × Json)

variable {p : ChildrenPending} {t : TableName} {change : RowChange}

namespace ChildrenPending

/-- Nothing is held. -/
def empty : ChildrenPending := ⟨[], [], []⟩

/-- `hold_parent`. -/
def holdParent (p : ChildrenPending) (table : TableName) (change : RowChange) : ChildrenPending :=
  { p with parents := p.parents ++ [(table, change)] }

/-- `name_parent`: a parent is named once. -/
def nameParent (p : ChildrenPending) (table : TableName) (key : Json) : ChildrenPending :=
  if p.named.any fun n => n.1 = table && ParentKeys.keyLookup n.2 = ParentKeys.keyLookup key then p
  else { p with named := p.named ++ [(table, key)] }

/-- `name_through`. -/
def nameThrough (p : ChildrenPending) (table : TableName) (field : String) (childKey : Json) :
    ChildrenPending :=
  if p.through.any fun n => n.1 = (table, field) &&
      ParentKeys.keyLookup n.2 = ParentKeys.keyLookup childKey then p
  else { p with through := p.through ++ [((table, field), childKey)] }

/-- `is_empty`. -/
def isEmpty (p : ChildrenPending) : Bool :=
  p.parents.isEmpty && p.named.isEmpty && p.through.isEmpty

/-- `len`. -/
def len (p : ChildrenPending) : ℕ :=
  p.parents.length + p.named.length + p.through.length

/-- `tables`. -/
def tables (p : ChildrenPending) : List TableName :=
  (p.parents.map Prod.fst ++ p.named.map Prod.fst).dedup

/-- The rows of one table. -/
def rowsOf (p : ChildrenPending) (t : TableName) : List RowChange :=
  p.parents.filterMap fun held => if held.1 = t then some held.2 else none

/-- The keys that were named of one table. -/
def namedOf (p : ChildrenPending) (t : TableName) : List Json :=
  p.named.filterMap fun named => if named.1 = t then some named.2 else none

@[simp] theorem parents_nameParent (p : ChildrenPending) (table : TableName) (key : Json) :
    (p.nameParent table key).parents = p.parents := by
  rw [nameParent]
  split <;> rfl

@[simp] theorem parents_nameThrough (p : ChildrenPending) (table : TableName) (field : String)
    (key : Json) : (p.nameThrough table field key).parents = p.parents := by
  rw [nameThrough]
  split <;> rfl

theorem mem_rowsOf : change ∈ p.rowsOf t ↔ (t, change) ∈ p.parents := by
  rw [rowsOf, List.mem_filterMap]
  constructor
  · rintro ⟨held, hheld, heq⟩
    split at heq
    · next ht =>
      obtain rfl := Option.some.inj heq
      rw [← ht]
      exact hheld
    · cases heq
  · intro h
    exact ⟨_, h, if_pos rfl⟩

theorem mem_tables_of_parent (h : (t, change) ∈ p.parents) : t ∈ p.tables :=
  List.mem_dedup.mpr (List.mem_append_left _ (List.mem_map_of_mem (f := Prod.fst) h))

/-- All that is held belongs to some tables. -/
structure About (p : ChildrenPending) (good : TableName → Prop) : Prop where
  /-- the rows -/
  parents : ∀ held ∈ p.parents, good held.2.table
  /-- the keys that are read again -/
  named : ∀ named ∈ p.named, good named.1
  /-- the children -/
  through : ∀ child ∈ p.through, good child.1.1

section

variable {p : ChildrenPending} {good : TableName → Prop}

theorem about_empty : empty.About good :=
  ⟨fun _ h => absurd h List.not_mem_nil, fun _ h => absurd h List.not_mem_nil,
    fun _ h => absurd h List.not_mem_nil⟩

theorem About.holdParent (h : p.About good) {table : TableName} (hgood : good change.table) :
    (p.holdParent table change).About good := by
  refine ⟨fun held hheld => ?_, h.named, h.through⟩
  rcases List.mem_append.mp hheld with hheld | hheld
  · exact h.parents held hheld
  · rw [List.mem_singleton.mp hheld]
    exact hgood

theorem About.nameParent (h : p.About good) {table : TableName} (hgood : good table)
    (key : Json) : (p.nameParent table key).About good := by
  rw [ChildrenPending.nameParent]
  split
  · exact h
  · refine ⟨h.parents, fun named hnamed => ?_, h.through⟩
    rcases List.mem_append.mp hnamed with hnamed | hnamed
    · exact h.named named hnamed
    · rw [List.mem_singleton.mp hnamed]
      exact hgood

theorem About.nameAll (h : p.About good) {table : TableName} (hgood : good table)
    (keys : List Json) : (keys.foldl (fun p key => p.nameParent table key) p).About good := by
  induction keys generalizing p with
  | nil => exact h
  | cons key rest ih => exact ih (h.nameParent hgood key)

theorem About.nameThrough (h : p.About good) {table : TableName} (hgood : good table)
    (field : String) (childKey : Json) : (p.nameThrough table field childKey).About good := by
  rw [ChildrenPending.nameThrough]
  split
  · exact h
  · refine ⟨h.parents, h.named, fun child hchild => ?_⟩
    rcases List.mem_append.mp hchild with hchild | hchild
    · exact h.through child hchild
    · rw [List.mem_singleton.mp hchild]
      exact hgood

end

end ChildrenPending

/-! ## Flushing -/

/-- `doc_mut`: another document for a change, where it has one. -/
def RowKind.mapDoc (f : Json → Json) : RowKind → RowKind
  | .insert pk doc => .insert pk (f doc)
  | .update pk previousPk doc unchangedToast before =>
    .update pk previousPk (f doc) unchangedToast before
  | .delete pk before => .delete pk before

/-- What a flush finds in the database, and the order its maps have. -/
structure FlushReads : Type where
  /-- the order in which a map gives its tables -/
  order : List TableName → List TableName
  /-- it gives each -/
  perm : ∀ tables, (order tables).Perm tables
  /-- `parents_through`: what a collection's junction pairs with a child -/
  parentsThrough : TableName → String → Json → Except CoreError (List Json)
  /-- `refetch_parents` -/
  refetch : TableName → List Json → Except CoreError (Json → Option Json)
  /-- what is attached to a key's document, among the documents of some keys -/
  attach : TableName → List Json → Except CoreError (Json → Json → Json)

/-- The parents of one child. -/
def resolveChild (reads : FlushReads) (p : ChildrenPending) (child : (TableName × String) × Json) :
    Except CoreError ChildrenPending := do
  let parents ← reads.parentsThrough child.1.1 child.1.2 child.2
  return parents.foldl (fun p key => p.nameParent child.1.1 key) p

/-- `resolve_through`: children become the parents they belong to. -/
def resolvePending (reads : FlushReads) (p : ChildrenPending) : Except CoreError ChildrenPending :=
  p.through.foldlM (resolveChild reads) { p with through := [] }

/-- `keys_needing_refetch`: a key whose row is held is not read again. -/
def keysNeedingRefetch (rows : List RowChange) (named : List Json) : List Json :=
  named.filter fun key =>
    !(rows.map fun row => ParentKeys.keyLookup row.kind.pk).contains (ParentKeys.keyLookup key)

/-- The documents of the keys that are read again. -/
def refetched (reads : FlushReads) (t : TableName) (missing : List Json) :
    Except CoreError (Json → Option Json) :=
  if missing.isEmpty then .ok fun _ => none else reads.refetch t missing

/-- What a flush sends of one table. -/
def flushTable (reads : FlushReads) (p : ChildrenPending) (version : Option ℕ) (t : TableName) :
    Except CoreError (List RowChange) := do
  let held := p.rowsOf t
  let missing := keysNeedingRefetch held (p.namedOf t)
  let found ← refetched reads t missing
  let emitted := held ++ missing.filterMap fun key =>
    (found key).map fun doc => ⟨t, .insert key doc, none⟩
  let attach ← reads.attach t (emitted.map fun row => row.kind.pk)
  return emitted.map fun row =>
    { row with kind := row.kind.mapDoc (attach row.kind.pk), version := version }

/-- A change of the same row, whatever is attached to its document. -/
def RowChange.SameRow (a b : RowChange) : Prop :=
  a.table = b.table ∧ ∃ f, a.kind = b.kind.mapDoc f

theorem parents_nameAll (t : TableName) (keys : List Json) (p : ChildrenPending) :
    (keys.foldl (fun p key => p.nameParent t key) p).parents = p.parents := by
  induction keys generalizing p with
  | nil => rfl
  | cons key rest ih => exact (ih _).trans (ChildrenPending.parents_nameParent p t key)

variable {reads : FlushReads}

theorem parents_resolveAll (children : List ((TableName × String) × Json)) (p : ChildrenPending)
    {q : ChildrenPending} (h : children.foldlM (resolveChild reads) p = .ok q) :
    q.parents = p.parents := by
  induction children generalizing p with
  | nil =>
    obtain rfl := Except.ok.inj h
    rfl
  | cons child rest ih =>
    rw [List.foldlM_cons] at h
    obtain ⟨next, hnext, h⟩ := Except.bind_eq_ok h
    obtain ⟨parents, -, hnext⟩ := Except.bind_eq_ok hnext
    obtain rfl := Except.ok.inj hnext
    exact (ih _ h).trans (parents_nameAll _ parents p)

variable {p q : ChildrenPending}

theorem parents_resolvePending (h : resolvePending reads p = .ok q) : q.parents = p.parents := by
  rw [resolvePending] at h
  exact parents_resolveAll p.through { p with through := [] } h

variable {good : TableName → Prop}

theorem about_resolveAll (children : List ((TableName × String) × Json))
    (hchildren : ∀ child ∈ children, good child.1.1) (hp : p.About good)
    (h : children.foldlM (resolveChild reads) p = .ok q) : q.About good := by
  induction children generalizing p with
  | nil =>
    obtain rfl := Except.ok.inj h
    exact hp
  | cons child rest ih =>
    rw [List.foldlM_cons] at h
    obtain ⟨next, hnext, h⟩ := Except.bind_eq_ok h
    obtain ⟨parents, -, hnext⟩ := Except.bind_eq_ok hnext
    obtain rfl := Except.ok.inj hnext
    exact ih (fun child hchild => hchildren child (List.mem_cons_of_mem _ hchild))
      (hp.nameAll (hchildren child List.mem_cons_self) parents) h

theorem about_resolvePending (hp : p.About good) (h : resolvePending reads p = .ok q) :
    q.About good := by
  rw [resolvePending] at h
  have hstart : ({ p with through := [] } : ChildrenPending).About good :=
    ⟨hp.parents, hp.named, fun _ h => absurd h List.not_mem_nil⟩
  exact about_resolveAll p.through hp.through hstart h

variable {rows : List RowChange} {version : Option ℕ}

theorem flushTable_ok (h : flushTable reads p version t = .ok rows) :
    (∀ row ∈ rows, row.version = version) ∧
      ∀ change, (t, change) ∈ p.parents → ∃ row ∈ rows, row.SameRow change := by
  rw [flushTable] at h
  obtain ⟨found, -, h⟩ := Except.bind_eq_ok h
  obtain ⟨attach, -, h⟩ := Except.bind_eq_ok h
  obtain rfl := Except.ok.inj h
  constructor
  · intro row hrow
    obtain ⟨source, -, rfl⟩ := List.mem_map.mp hrow
    rfl
  · intro change hchange
    exact ⟨_, List.mem_map_of_mem (List.mem_append_left _ (ChildrenPending.mem_rowsOf.mpr hchange)),
      rfl, _, rfl⟩

theorem ChildrenPending.mem_namedOf {key : Json} (h : key ∈ p.namedOf t) : (t, key) ∈ p.named := by
  obtain ⟨named, hnamed, heq⟩ := List.mem_filterMap.mp h
  split at heq
  · next ht =>
    obtain rfl := Option.some.inj heq
    rw [← ht]
    exact hnamed
  · cases heq

/-- The rows of a table are held or belong to a key that is read again. -/
theorem flushTable_about (hp : p.About good) (h : flushTable reads p version t = .ok rows) :
    ∀ row ∈ rows, good row.table := by
  rw [flushTable] at h
  obtain ⟨found, -, h⟩ := Except.bind_eq_ok h
  obtain ⟨attach, -, h⟩ := Except.bind_eq_ok h
  obtain rfl := Except.ok.inj h
  intro row hrow
  obtain ⟨source, hsource, rfl⟩ := List.mem_map.mp hrow
  change good source.table
  rcases List.mem_append.mp hsource with hheld | hread
  · exact hp.parents _ (ChildrenPending.mem_rowsOf.mp hheld)
  · obtain ⟨key, hkey, hdoc⟩ := List.mem_filterMap.mp hread
    obtain ⟨doc, -, rfl⟩ := Option.map_eq_some_iff.mp hdoc
    exact hp.named _ (ChildrenPending.mem_namedOf (List.mem_filter.mp hkey).1)

/-- One table of a flush, as a step. -/
def flushStep (reads : FlushReads) (p : ChildrenPending) (version : Option ℕ) (t : TableName) :
    List RowChange × Except CoreError Unit :=
  match flushTable reads p version t with
  | .ok rows => (rows, .ok ())
  | .error e => ([], .error e)

/-- `flush_pending`. What a table's rows need is read before the first of them is sent. -/
def flushPending (reads : FlushReads) (p : ChildrenPending) (version : Option ℕ) :
    List RowChange × Except CoreError Unit :=
  if p.isEmpty then ([], .ok ())
  else match resolvePending reads p with
    | .error e => ([], .error e)
    | .ok p => Emission.run (fun _ => flushStep reads p version) () (reads.order p.tables)

theorem flushStep_eq_ok (h : flushStep reads p version t = (rows, .ok ())) :
    flushTable reads p version t = .ok rows := by
  rw [flushStep] at h
  split at h
  · next rows' hrows =>
    rw [hrows, (Prod.mk.inj h).1]
  · cases (Prod.mk.inj h).2

theorem mem_flushStep {row : RowChange} (h : row ∈ (flushStep reads p version t).1) :
    ∃ rows, flushTable reads p version t = .ok rows ∧ row ∈ rows := by
  rw [flushStep] at h
  split at h
  · next rows hrows => exact ⟨rows, hrows, h⟩
  · cases h

/-- What holds of the rows of each table holds of all that a flush sends. -/
theorem forall_flushPending {fine : RowChange → Prop}
    (h : ∀ q, resolvePending reads p = .ok q → ∀ t rows, flushTable reads q version t = .ok rows →
      ∀ row ∈ rows, fine row) : ∀ row ∈ (flushPending reads p version).1, fine row := by
  rw [flushPending]
  split
  · exact fun row hrow => absurd hrow List.not_mem_nil
  · cases hresolve : resolvePending reads p with
    | error e => exact fun row hrow => absurd hrow List.not_mem_nil
    | ok q =>
      refine Emission.run_sends (fun _ => True) (fun _ _ _ _ _ _ _ => trivial)
        (fun t _ _ _ row hrow => ?_) trivial
      obtain ⟨rows, hrows, hrow⟩ := mem_flushStep hrow
      exact h q hresolve t rows hrows row hrow

theorem version_flushPending (reads : FlushReads) (p : ChildrenPending) (version : Option ℕ) :
    ∀ row ∈ (flushPending reads p version).1, row.version = version :=
  forall_flushPending fun _ _ _ _ hrows => (flushTable_ok hrows).1

theorem about_flushPending (hp : p.About good) :
    ∀ row ∈ (flushPending reads p version).1, good row.table :=
  forall_flushPending fun _ hresolve _ _ hrows =>
    flushTable_about (about_resolvePending hp hresolve) hrows

theorem flushed_of_mem {tables : List TableName} (ht : t ∈ tables)
    (h : Emission.run (fun _ => flushStep reads p version) () tables = (rows, .ok ())) :
    ∃ own, flushTable reads p version t = .ok own ∧ ∀ row ∈ own, row ∈ rows := by
  induction tables generalizing rows with
  | nil => cases ht
  | cons t' rest ih =>
    obtain ⟨now, between, more, hnow, hrun, rfl⟩ := Emission.run_cons_eq_ok h
    rcases List.mem_cons.mp ht with rfl | ht
    · exact ⟨now, flushStep_eq_ok hnow, fun row hrow => List.mem_append_left _ hrow⟩
    · obtain ⟨own, hown, hmem⟩ := ih ht hrun
      exact ⟨own, hown, fun row hrow => List.mem_append_right _ (hmem row hrow)⟩

/-- A flush that goes through sends each change that was held. -/
theorem flushPending_ok (h : flushPending reads p version = (rows, .ok ()))
    (hchange : (t, change) ∈ p.parents) : ∃ row ∈ rows, row.SameRow change := by
  rw [flushPending] at h
  split at h
  · next hempty =>
    simp only [ChildrenPending.isEmpty, Bool.and_eq_true, List.isEmpty_iff] at hempty
    rw [hempty.1.1] at hchange
    cases hchange
  · cases hresolve : resolvePending reads p with
    | error e =>
      rw [hresolve] at h
      cases (Prod.mk.inj h).2
    | ok q =>
      rw [hresolve] at h
      rw [← parents_resolvePending hresolve] at hchange
      have ht := (reads.perm _).mem_iff.mpr (ChildrenPending.mem_tables_of_parent hchange)
      obtain ⟨own, hown, hmem⟩ := flushed_of_mem ht h
      obtain ⟨row, hrow, hsame⟩ := (flushTable_ok hown).2 change hchange
      exact ⟨row, hmem row hrow, hsame⟩

end Pg2osync
