import Pg2osync.Json
import Pg2osync.KeysetScan
import Pg2osync.Transition

/-!
# Reconciling an index with its table

The documents of an index are read in pages, in the order of their keys, and the keys of a page
are looked up in the table. A document whose key is not found there is reported, and after the
last page the reported ones are deleted, if that was asked for. Meanwhile the table changes and
the stream writes what it brings.

Three things go wrong on the way: a page can end between two documents of one key, a key can read
otherwise in the index than in the table, and a row can come back after its page was checked.
Where none of them does, every document that stays is visited, no document of a row is reported,
and none is deleted that the stream does not write again (`careful_exact`).
-/

namespace Pg2osync

namespace Reconcile

variable {κ ρ : Type}

/-- A document of the index. -/
structure Document (κ : Type) : Type where
  /-- its id -/
  id : String
  /-- what decides its shard -/
  routing : Option String
  /-- the key column, as the index sorts by it -/
  key : κ
  /-- the values other fields are found under -/
  terms : List (String × String)
  deriving DecidableEq

/-- What a write names a document by. -/
def Document.name (doc : Document κ) : String × Option String :=
  (doc.id, doc.routing)

/-- `Table`: the table and the index, with what a row looks like to either side. -/
structure Table (κ ρ : Type) : Type where
  /-- what the stream writes of a row -/
  document : ρ → Document κ
  /-- the key column, cast to text -/
  keyText : ρ → String
  /-- the predicate of a row that counts as deleted -/
  softDelete : Option (ρ → Option Bool)
  /-- the row filter -/
  filter : Option (ρ → Bool)
  /-- the join field and the table's relation in it -/
  scope : Option (String × String)
  /-- the key, as the target's answer has it -/
  json : κ → Json

/-- One pass over one index. -/
structure Pass (κ ρ : Type) extends Table κ ρ where
  /-- `PAGE` -/
  page : ℕ
  /-- a page holds something -/
  page_pos : 0 < page
  /-- whether the reported documents are removed -/
  delete : Bool

/-! ## Looking keys up -/

/-- `render_key`. -/
def renderKey : Json → String
  | .str s => s
  | other => other.render

namespace Table

variable (t : Table κ ρ)

/-- The key of a row. -/
def key (row : ρ) : κ :=
  (t.document row).key

/-- A row that is not soft-deleted and passes the row filter. -/
def present (row : ρ) : Bool :=
  t.softDelete.all (fun deleted => deleted row ≠ some true) && t.filter.all fun passes => passes row

/-- What `existing_keys` asks for besides the key: `NOT` of an unknown is not true. -/
def asked (row : ρ) : Bool :=
  t.softDelete.all (fun deleted => (deleted row).map not = some true) &&
    t.filter.all fun passes => passes row

/-- `existing_keys`. -/
def existingKeys (rows : List ρ) (keys : List String) : List String :=
  (rows.filter fun row => keys.contains (t.keyText row) && t.asked row).map t.keyText

/-- The scan is narrowed to the table's relation. -/
def inScope (doc : Document κ) : Bool :=
  t.scope.all doc.terms.contains

/-- The documents of a page whose keys are not found. -/
def orphans (rows : List ρ) (page : List (Document κ)) : List (Document κ) :=
  let live := t.existingKeys rows (page.map fun doc => renderKey (t.json doc.key))
  page.filter fun doc => !live.contains (renderKey (t.json doc.key))

/-- The keys of a page read in the index as they do in the table, and it is known of their rows
whether they are deleted. -/
def Legible (rows : List ρ) (page : List (Document κ)) : Prop :=
  ∀ row ∈ rows, t.present row = true → t.key row ∈ page.map Document.key →
    t.keyText row = renderKey (t.json (t.key row)) ∧ t.asked row = true

variable {t} {rows : List ρ} {page : List (Document κ)}

/-- What is reported of a legible page has no row. -/
theorem mem_orphans {doc : Document κ} (h : doc ∈ t.orphans rows page) :
    doc ∈ page ∧ (t.Legible rows page →
      ∀ row ∈ rows, t.present row = true → t.key row ≠ doc.key) := by
  obtain ⟨hpage, hdead⟩ := List.mem_filter.mp h
  refine ⟨hpage, fun hlegible row hrow hpresent hkey => ?_⟩
  obtain ⟨htext, hasked⟩ := hlegible row hrow hpresent (hkey ▸ List.mem_map_of_mem hpage)
  rw [hkey] at htext
  rw [Bool.not_eq_true', ← Bool.not_eq_true, List.contains_iff_mem] at hdead
  apply hdead
  rw [Table.existingKeys, List.mem_map]
  refine ⟨row, List.mem_filter.mpr ⟨hrow, ?_⟩, htext⟩
  rw [hasked, Bool.and_true, List.contains_iff_mem, htext]
  exact List.mem_map_of_mem hpage

end Table

/-! ## The table and the stream -/

/-- A change of the table. -/
inductive Change (ρ : Type) : Type where
  | insert (row : ρ) : Change ρ
  | update (old row : ρ) : Change ρ
  /-- `seen` is whether the source reports it: a poll does not -/
  | delete (old : ρ) (seen : Bool) : Change ρ

/-- A write of the stream. -/
inductive StreamOp (ρ : Type) : Type where
  | write (row : ρ) : StreamOp ρ
  | remove (row : ρ) : StreamOp ρ
  deriving DecidableEq

/-- The row a change brings. -/
def Change.row? : Change ρ → Option ρ
  | .insert row => some row
  | .update _ row => some row
  | .delete _ _ => none

/-- What a change makes of the rows; a row that is not there does not change. -/
def Change.apply [DecidableEq ρ] (rows : List ρ) : Change ρ → Option (List ρ)
  | .insert row => some (rows ++ [row])
  | .update old row => if old ∈ rows then some (rows.erase old ++ [row]) else none
  | .delete old _ => if old ∈ rows then some (rows.erase old) else none

/-- The write of a row as it is now: one that left the filter is removed. -/
def Table.writes (t : Table κ ρ) (row : ρ) : StreamOp ρ :=
  if t.present row then .write row else .remove row

/-- What the stream makes of a change. -/
def Table.streamed (t : Table κ ρ) : Change ρ → List (StreamOp ρ)
  | .insert row => [t.writes row]
  | .update old row =>
    if (t.document old).name = (t.document row).name then [t.writes row]
    else [.remove old, t.writes row]
  | .delete old seen => if seen then [.remove old] else []

/-- A write in the index. -/
def Table.written (t : Table κ ρ) (index : List (Document κ)) : StreamOp ρ → List (Document κ)
  | .write row =>
    index.filter (fun doc => doc.name ≠ (t.document row).name) ++ [t.document row]
  | .remove row => index.filter fun doc => doc.name ≠ (t.document row).name

variable {t : Table κ ρ} {rows rows' : List ρ} {change : Change ρ}

/-- A change keeps rows or brings its own. -/
theorem Change.mem_apply [DecidableEq ρ] (h : change.apply rows = some rows') {row : ρ}
    (hrow : row ∈ rows') : row ∈ rows ∨ change.row? = some row := by
  cases change with
  | insert new =>
    cases h
    exact (List.mem_append.mp hrow).imp_right fun hnew =>
      congrArg some (List.mem_singleton.mp hnew).symm
  | update old new =>
    rw [Change.apply] at h
    split at h
    · cases h
      exact (List.mem_append.mp hrow).imp List.mem_of_mem_erase fun hnew =>
        congrArg some (List.mem_singleton.mp hnew).symm
    · cases h
  | delete old seen =>
    rw [Change.apply] at h
    split at h
    · cases h
      exact .inl (List.mem_of_mem_erase hrow)
    · cases h

/-- The stream writes the row a change brings. -/
theorem Table.mem_streamed {row : ρ} (hrow : change.row? = some row)
    (hpresent : t.present row = true) : .write row ∈ t.streamed change := by
  have hwrites : t.writes row = .write row := if_pos hpresent
  cases change with
  | insert new =>
    cases hrow
    rw [Table.streamed, hwrites]
    exact List.mem_singleton_self _
  | update old new =>
    cases hrow
    rw [Table.streamed, hwrites]
    split
    · exact List.mem_singleton_self _
    · exact List.mem_cons_of_mem _ (List.mem_singleton_self _)
  | delete old seen => cases hrow

theorem Table.mem_written {index : List (Document κ)} {op : StreamOp ρ} {doc : Document κ}
    (h : doc ∈ t.written index op) :
    doc ∈ index ∨ ∃ row, op = .write row ∧ doc = t.document row := by
  cases op with
  | write row =>
    exact (List.mem_append.mp h).imp List.mem_of_mem_filter fun hnew =>
      ⟨row, rfl, List.mem_singleton.mp hnew⟩
  | remove row => exact .inl (List.mem_of_mem_filter h)

theorem Table.nodup_written {index : List (Document κ)} (op : StreamOp ρ)
    (h : (index.map Document.name).Nodup) : ((t.written index op).map Document.name).Nodup := by
  have hfilter : ∀ p, ((index.filter p).map Document.name).Nodup := fun p =>
    h.sublist (List.filter_sublist.map _)
  cases op with
  | write row =>
    rw [Table.written, List.map_append, List.map_singleton, List.nodup_append_comm,
      List.singleton_append, List.nodup_cons]
    refine ⟨fun hmem => ?_, hfilter _⟩
    obtain ⟨doc, hdoc, hname⟩ := List.mem_map.mp hmem
    exact of_decide_eq_true (List.mem_filter.mp hdoc).2 hname
  | remove row => exact hfilter _

/-! ## The pass -/

/-- Where a pass is. -/
inductive Phase (κ : Type) : Type where
  /-- the next page is to be read -/
  | scanning : Phase κ
  /-- the keys of a page are to be looked up -/
  | checking (page : List (Document κ)) : Phase κ
  /-- the reported documents are to be deleted -/
  | deleting : Phase κ
  /-- the report is there -/
  | ended : Phase κ
  deriving DecidableEq

/-- The pages are not all checked. -/
def Phase.scans : Phase κ → Bool
  | .scanning => true
  | .checking _ => true
  | .deleting => false
  | .ended => false

/-- A pass, with the table and the stream beside it. -/
structure State (κ ρ : Type) : Type where
  /-- the table -/
  rows : List ρ
  /-- the index -/
  index : List (Document κ)
  /-- what the stream has still to write -/
  pending : List (StreamOp ρ)
  /-- where the pass is -/
  phase : Phase κ
  /-- the last key of the last page -/
  after : Option κ
  /-- the documents of the pages so far; the report has their number -/
  seen : List (Document κ)
  /-- the reported documents -/
  orphaned : List (Document κ)

/-- What happens next. -/
inductive Action (κ ρ : Type) : Type where
  /-- `scan_keys` answers with a page -/
  | scan (hits : List (Document κ)) : Action κ ρ
  /-- the keys of the page are looked up -/
  | check : Action κ ρ
  /-- the deletes are written: of these, the ones the target carries out -/
  | write (carried : List (String × Option String)) : Action κ ρ
  /-- the table changes -/
  | commit (change : Change ρ) : Action κ ρ
  /-- the stream writes -/
  | stream : Action κ ρ

theorem Phase.goes {phase : Phase κ} (h : phase.scans = true) : phase ≠ .ended := by
  rintro rfl
  cases h

namespace Pass

variable [LinearOrder κ] [DecidableEq ρ] (c : Pass κ ρ)

/-- One step of the pass, the table or the stream. -/
def step (s : State κ ρ) : Action κ ρ → Option (State κ ρ)
  | .scan hits =>
    match s.phase with
    | .scanning =>
      if KeysetScan.Page Document.key c.page (s.index.filter c.inScope) s.after hits then
        match hits.getLast? with
        | none => some { s with
            phase := if c.delete && !s.orphaned.isEmpty then .deleting else .ended }
        | some last => some { s with
            phase := .checking hits, after := some last.key, seen := s.seen ++ hits }
      else none
    | _ => none
  | .check =>
    match s.phase with
    | .checking page => some { s with
        phase := .scanning, orphaned := s.orphaned ++ c.orphans s.rows page }
    | _ => none
  | .write carried =>
    match s.phase with
    | .deleting => some { s with
        phase := .ended
        index := s.index.filter fun doc =>
          !((s.orphaned.map Document.name).contains doc.name && carried.contains doc.name) }
    | _ => none
  | .commit change =>
    (change.apply s.rows).map fun rows =>
      { s with rows := rows, pending := s.pending ++ c.streamed change }
  | .stream =>
    match s.pending with
    | [] => none
    | op :: rest => some { s with index := c.written s.index op, pending := rest }

/-- A pass begins: the index has each document once. -/
def system : Transition.System (State κ ρ) (Action κ ρ) where
  initial s := (s.index.map Document.name).Nodup ∧ s.phase = .scanning ∧ s.after = none ∧
    s.seen = [] ∧ s.orphaned = []
  step := c.step

/-! ## What is asked of it -/

/-- A document that stays under its name and key. -/
def Stays (name : String × Option String) (k : κ) (s : State κ ρ) : Prop :=
  ∃ doc ∈ s.index, c.inScope doc = true ∧ doc.name = name ∧ doc.key = k

/-- A step reports no document of a row that is there, and deletes none but those that the stream
writes again. -/
structure Exact (s : State κ ρ) (a : Action κ ρ) (s' : State κ ρ) : Prop where
  /-- what is reported -/
  reports : ∀ doc ∈ s'.orphaned, doc ∈ s.orphaned ∨
    ∀ row ∈ s.rows, c.present row = true → c.key row ≠ doc.key
  /-- what is deleted -/
  deletes : ∀ carried, a = .write carried → ∀ doc ∈ s.index, doc ∉ s'.index →
    ∀ row ∈ s.rows, c.present row = true → c.key row = doc.key →
      (c.document row).name = doc.name ∧ .write row ∈ s'.pending

/-- No page ends within a key, and the keys are legible. Where documents are to be deleted, a row
that comes under the key of a reported one is filed as that one is, and the stream does not come
to it before the delete, nor does it give a visited document another key. -/
def Careful (s : State κ ρ) : Action κ ρ → Prop
  | .scan hits => KeysetScan.Whole Document.key (s.index.filter c.inScope) s.after hits
  | .check =>
    match s.phase with
    | .checking page => c.Legible s.rows page
    | _ => True
  | .write _ => True
  | .commit change => c.delete = true → s.phase ≠ .ended → ∀ row ∈ change.row?,
      c.present row = true → ∀ doc ∈ s.orphaned, doc.key = c.key row →
        (c.document row).name = doc.name
  | .stream => c.delete = true → s.phase ≠ .ended →
      match s.pending with
      | .write row :: _ =>
        (∀ doc ∈ s.seen, doc.name = (c.document row).name → doc.key = c.key row) ∧
          (row ∈ s.rows → ∀ doc ∈ s.orphaned, doc.key ≠ c.key row)
      | _ => True

/-! ## One step -/

variable {c : Pass κ ρ} {s s' : State κ ρ}

/-- What a step of the scan does: it ends it, or takes a page. -/
theorem step_scan {hits : List (Document κ)} (h : c.step s (.scan hits) = some s') :
    s.phase = .scanning ∧
      KeysetScan.Page Document.key c.page (s.index.filter c.inScope) s.after hits ∧
      (hits = [] ∧ s' = { s with
          phase := if c.delete && !s.orphaned.isEmpty then .deleting else .ended } ∨
        ∃ last, hits.getLast? = some last ∧ s' = { s with
          phase := .checking hits, after := some last.key, seen := s.seen ++ hits }) := by
  rw [step] at h
  split at h
  · next hphase =>
    split at h
    · next hpage =>
      refine ⟨hphase, hpage, ?_⟩
      split at h
      · next hlast =>
        cases h
        exact .inl ⟨List.getLast?_eq_none_iff.mp hlast, rfl⟩
      · next last hlast =>
        cases h
        exact .inr ⟨last, hlast, rfl⟩
    · cases h
  · cases h

theorem step_check (h : c.step s .check = some s') :
    ∃ page, s.phase = .checking page ∧
      s' = { s with phase := .scanning, orphaned := s.orphaned ++ c.orphans s.rows page } := by
  rw [step] at h
  split at h
  · next page hphase =>
    cases h
    exact ⟨page, hphase, rfl⟩
  · cases h

theorem step_write {carried : List (String × Option String)}
    (h : c.step s (.write carried) = some s') :
    s.phase = .deleting ∧ s' = { s with
      phase := .ended
      index := s.index.filter fun doc =>
        !((s.orphaned.map Document.name).contains doc.name && carried.contains doc.name) } := by
  rw [step] at h
  split at h
  · next hphase =>
    cases h
    exact ⟨hphase, rfl⟩
  · cases h

theorem step_commit (h : c.step s (.commit change) = some s') :
    ∃ rows, change.apply s.rows = some rows ∧
      s' = { s with rows := rows, pending := s.pending ++ c.streamed change } := by
  obtain ⟨rows, hrows, rfl⟩ := Option.map_eq_some_iff.mp h
  exact ⟨rows, hrows, rfl⟩

theorem step_stream (h : c.step s .stream = some s') :
    ∃ op rest, s.pending = op :: rest ∧
      s' = { s with index := c.written s.index op, pending := rest } := by
  rw [step] at h
  split at h
  · cases h
  · next op rest hpending =>
    cases h
    exact ⟨op, rest, hpending, rfl⟩

/-! ## Every run -/

/-- What holds while a pass goes on with care. -/
structure Held (c : Pass κ ρ) (s : State κ ρ) : Prop where
  /-- the index has each document once -/
  nodup : (s.index.map Document.name).Nodup
  /-- documents are deleted where that was asked for -/
  deletes : s.phase = .deleting → c.delete = true
  /-- what is being checked was visited -/
  page : ∀ page, s.phase = .checking page → ∀ doc ∈ page, doc ∈ s.seen
  /-- what is reported was visited -/
  seen : ∀ doc ∈ s.orphaned, doc ∈ s.seen
  /-- a visited document keeps its key -/
  key : c.delete = true → s.phase ≠ .ended → ∀ doc ∈ s.seen, ∀ doc' ∈ s.index,
    doc.name = doc'.name → doc.key = doc'.key
  /-- a row that came back is still to be written -/
  back : c.delete = true → s.phase ≠ .ended → ∀ doc ∈ s.orphaned, ∀ row ∈ s.rows,
    c.present row = true → c.key row = doc.key →
      (c.document row).name = doc.name ∧ .write row ∈ s.pending

theorem Held.scan {hits : List (Document κ)} (hs : c.Held s)
    (h : c.step s (.scan hits) = some s') : c.Held s' := by
  obtain ⟨hphase, hpage, hnext⟩ := step_scan h
  have hgoes : s.phase ≠ .ended := Phase.goes (by rw [hphase]; rfl)
  rcases hnext with ⟨-, rfl⟩ | ⟨last, -, rfl⟩
  · refine ⟨hs.nodup, fun hdeleting => ?_, fun page hchecking => ?_, hs.seen,
      fun hdelete _ => hs.key hdelete hgoes, fun hdelete _ => hs.back hdelete hgoes⟩
    · dsimp only at hdeleting
      split at hdeleting
      · next hboth => exact (Bool.and_eq_true_iff.mp hboth).1
      · cases hdeleting
    · dsimp only at hchecking
      split at hchecking <;> cases hchecking
  · refine ⟨hs.nodup, fun hdeleting => (by cases hdeleting), fun page hchecking doc hdoc => ?_,
      fun doc hdoc => List.mem_append_left _ (hs.seen doc hdoc),
      fun hdelete _ doc hdoc doc' hdoc' hname => ?_, fun hdelete _ => hs.back hdelete hgoes⟩
    · cases hchecking
      exact List.mem_append_right _ hdoc
    · rcases List.mem_append.mp hdoc with hdoc | hdoc
      · exact hs.key hdelete hgoes doc hdoc doc' hdoc' hname
      · have hstored := List.mem_of_mem_filter (hpage.stored doc hdoc).1
        rw [List.inj_on_of_nodup_map hs.nodup hstored hdoc' hname]

theorem Held.check (hs : c.Held s) (hcareful : c.Careful s .check)
    (h : c.step s .check = some s') : c.Held s' := by
  obtain ⟨page, hphase, rfl⟩ := step_check h
  have hgoes : s.phase ≠ .ended := Phase.goes (by rw [hphase]; rfl)
  refine ⟨hs.nodup, fun hdeleting => (by cases hdeleting),
    fun page hchecking => (by cases hchecking), fun doc hdoc => ?_,
    fun hdelete _ => hs.key hdelete hgoes, fun hdelete _ doc hdoc row hrow hpresent hkey => ?_⟩
  · rcases List.mem_append.mp hdoc with hdoc | hdoc
    · exact hs.seen doc hdoc
    · exact hs.page page hphase doc (Table.mem_orphans hdoc).1
  · rcases List.mem_append.mp hdoc with hdoc | hdoc
    · exact hs.back hdelete hgoes doc hdoc row hrow hpresent hkey
    · rw [Careful, hphase] at hcareful
      exact absurd hkey ((Table.mem_orphans hdoc).2 hcareful row hrow hpresent)

theorem Held.commit (hs : c.Held s) (hcareful : c.Careful s (.commit change))
    (h : c.step s (.commit change) = some s') : c.Held s' := by
  obtain ⟨rows, hrows, rfl⟩ := step_commit h
  refine ⟨hs.nodup, hs.deletes, hs.page, hs.seen, hs.key,
    fun hdelete hgoes doc hdoc row hrow hpresent hkey => ?_⟩
  rcases Change.mem_apply hrows hrow with hrow | hrow
  · obtain ⟨hname, hpending⟩ := hs.back hdelete hgoes doc hdoc row hrow hpresent hkey
    exact ⟨hname, List.mem_append_left _ hpending⟩
  · exact ⟨hcareful hdelete hgoes row hrow hpresent doc hdoc hkey.symm,
      List.mem_append_right _ (Table.mem_streamed hrow hpresent)⟩

theorem Held.stream (hs : c.Held s) (hcareful : c.Careful s .stream)
    (h : c.step s .stream = some s') : c.Held s' := by
  obtain ⟨op, rest, hpending, rfl⟩ := step_stream h
  rw [Careful, hpending] at hcareful
  refine ⟨Table.nodup_written op hs.nodup, hs.deletes, hs.page, hs.seen,
    fun hdelete hgoes doc hdoc doc' hdoc' hname => ?_,
    fun hdelete hgoes doc hdoc row hrow hpresent hkey => ?_⟩
  · rcases Table.mem_written hdoc' with hdoc' | ⟨row, rfl, rfl⟩
    · exact hs.key hdelete hgoes doc hdoc doc' hdoc' hname
    · exact (hcareful hdelete hgoes).1 doc hdoc hname
  · obtain ⟨hname, hmem⟩ := hs.back hdelete hgoes doc hdoc row hrow hpresent hkey
    refine ⟨hname, ?_⟩
    rw [hpending] at hmem
    rcases List.mem_cons.mp hmem with rfl | hmem
    · exact absurd hkey.symm ((hcareful hdelete hgoes).2 hrow doc hdoc)
    · exact hmem

theorem Held.write {carried : List (String × Option String)} (hs : c.Held s)
    (h : c.step s (.write carried) = some s') : c.Held s' := by
  obtain ⟨-, rfl⟩ := step_write h
  refine ⟨hs.nodup.sublist (List.filter_sublist.map _), fun hdeleting => (by cases hdeleting),
    fun page hchecking => (by cases hchecking), hs.seen,
    fun _ hgoes => absurd rfl hgoes, fun _ hgoes => absurd rfl hgoes⟩

theorem held {s : State κ ρ} (h : c.system.ReachUnder c.Careful s) : c.Held s := by
  apply h.invariant
  · rintro s ⟨hnodup, hphase, -, hseen, horphaned⟩
    refine ⟨hnodup, fun hdeleting => ?_, fun page hchecking => ?_, ?_, ?_, ?_⟩
    · rw [hphase] at hdeleting
      cases hdeleting
    · rw [hphase] at hchecking
      cases hchecking
    · rw [horphaned]
      exact fun _ hdoc => absurd hdoc List.not_mem_nil
    · rw [hseen]
      exact fun _ _ _ hdoc => absurd hdoc List.not_mem_nil
    · rw [horphaned]
      exact fun _ _ _ hdoc => absurd hdoc List.not_mem_nil
  · intro s a s' hs hcareful hstep
    cases a with
    | scan hits => exact hs.scan hstep
    | check => exact hs.check hcareful hstep
    | write carried => exact hs.write hstep
    | commit change => exact hs.commit hcareful hstep
    | stream => exact hs.stream hcareful hstep

/-- A careful step is exact. -/
theorem Held.exact (hs : c.Held s) {a : Action κ ρ} (hcareful : c.Careful s a)
    (h : c.step s a = some s') : c.Exact s a s' := by
  cases a with
  | scan hits =>
    obtain ⟨-, -, ⟨-, rfl⟩ | ⟨last, -, rfl⟩⟩ := step_scan h
    · exact ⟨fun _ hdoc => .inl hdoc, fun _ hwrite => by cases hwrite⟩
    · exact ⟨fun _ hdoc => .inl hdoc, fun _ hwrite => by cases hwrite⟩
  | check =>
    obtain ⟨page, hphase, rfl⟩ := step_check h
    refine ⟨fun doc hdoc => ?_, fun _ hwrite => by cases hwrite⟩
    rw [Careful, hphase] at hcareful
    exact (List.mem_append.mp hdoc).imp_right fun hdoc => (Table.mem_orphans hdoc).2 hcareful
  | write carried =>
    obtain ⟨hphase, rfl⟩ := step_write h
    refine ⟨fun _ hdoc => .inl hdoc, fun _ _ doc hdoc hgone row hrow hpresent hkey => ?_⟩
    have hreported : doc.name ∈ s.orphaned.map Document.name := by
      by_contra hnot
      refine hgone (List.mem_filter.mpr ⟨hdoc, ?_⟩)
      rw [Bool.not_eq_true', Bool.and_eq_false_iff, ← Bool.not_eq_true, List.contains_iff_mem]
      exact .inl hnot
    obtain ⟨reported, hmem, hname⟩ := List.mem_map.mp hreported
    have hgoes : s.phase ≠ .ended := by
      intro hended
      rw [hphase] at hended
      cases hended
    have hkeys := hs.key (hs.deletes hphase) hgoes reported (hs.seen reported hmem) doc hdoc hname
    rw [← hname]
    exact hs.back (hs.deletes hphase) hgoes reported hmem row hrow hpresent (hkey.trans hkeys.symm)
  | commit change =>
    obtain ⟨rows, -, rfl⟩ := step_commit h
    exact ⟨fun _ hdoc => .inl hdoc, fun _ hwrite => by cases hwrite⟩
  | stream =>
    obtain ⟨op, rest, -, rfl⟩ := step_stream h
    exact ⟨fun _ hdoc => .inl hdoc, fun _ hwrite => by cases hwrite⟩

/-- A document was visited, or the pages have not come to its key. -/
structure Visits (name : String × Option String) (k : κ) (s : State κ ρ) : Prop where
  /-- up to the last key of the last page -/
  upTo : ∀ last ∈ s.after, k ≤ last → ∃ doc ∈ s.seen, doc.name = name ∧ doc.key = k
  /-- and after the last page -/
  atEnd : s.phase.scans = false → ∃ doc ∈ s.seen, doc.name = name ∧ doc.key = k

theorem Visits.step {name : String × Option String} {k : κ} (hs : Visits name k s)
    {a : Action κ ρ} (hcareful : c.Careful s a) (hstays : s.phase.scans = true → c.Stays name k s)
    (h : c.step s a = some s') : Visits name k s' := by
  cases a with
  | scan hits =>
    obtain ⟨hphase, hpage, hnext⟩ := step_scan h
    obtain ⟨doc, hdoc, hscope, rfl, rfl⟩ := hstays (by rw [hphase]; rfl)
    have hstored : doc ∈ s.index.filter c.inScope := List.mem_filter.mpr ⟨hdoc, hscope⟩
    rcases hnext with ⟨rfl, rfl⟩ | ⟨last, hlast, rfl⟩
    · obtain ⟨last, hafter, hle⟩ := hpage.ends c.page_pos hstored
      exact ⟨hs.upTo, fun _ => hs.upTo last hafter hle⟩
    · refine ⟨fun k hk hle => ?_, fun hends => by cases hends⟩
      cases hk
      rcases hpage.covers hcareful hlast hstored hle with hmem | ⟨last, hafter, hle⟩
      · exact ⟨doc, List.mem_append_right _ hmem, rfl, rfl⟩
      · obtain ⟨visited, hvisited, hsame⟩ := hs.upTo last hafter hle
        exact ⟨visited, List.mem_append_left _ hvisited, hsame⟩
  | check =>
    obtain ⟨page, -, rfl⟩ := step_check h
    exact ⟨hs.upTo, fun hends => by cases hends⟩
  | write carried =>
    obtain ⟨hphase, rfl⟩ := step_write h
    exact ⟨hs.upTo, fun _ => hs.atEnd (by rw [hphase]; rfl)⟩
  | commit change =>
    obtain ⟨rows, -, rfl⟩ := step_commit h
    exact ⟨hs.upTo, hs.atEnd⟩
  | stream =>
    obtain ⟨op, rest, -, rfl⟩ := step_stream h
    exact ⟨hs.upTo, hs.atEnd⟩

/-- A run of care in which a document stays while the index is read. -/
def CarefulWith (c : Pass κ ρ) (name : String × Option String) (k : κ) (s : State κ ρ)
    (a : Action κ ρ) : Prop :=
  c.Careful s a ∧ (s.phase.scans = true → c.Stays name k s)

/-- **In every careful run each step is exact, and a document that stays while the index is read
has been visited when it is.** -/
theorem careful_exact (c : Pass κ ρ) :
    (∀ s a s', c.system.ReachUnder c.Careful s → c.Careful s a → c.system.step s a = some s' →
      c.Exact s a s') ∧
    ∀ name k s, c.system.ReachUnder (c.CarefulWith name k) s → s.phase.scans = false →
      ∃ doc ∈ s.seen, doc.name = name ∧ doc.key = k := by
  refine ⟨fun s a s' hs hcareful hstep => (held hs).exact hcareful hstep,
    fun name k s hs hends => ?_⟩
  have hvisits : Visits name k s := by
    apply hs.invariant
    · rintro s ⟨-, hphase, hafter, -, -⟩
      refine ⟨fun last hlast => ?_, fun hends => ?_⟩
      · rw [hafter] at hlast
        cases hlast
      · rw [hphase] at hends
        cases hends
    · intro s a s' hs hguard hstep
      exact hs.step hguard.1 hguard.2 hstep
  exact hvisits.atEnd hends

/-! ### One orphan -/

/-- Users, filed under their numbers. -/
def users : Pass ℕ ℕ where
  document n := ⟨toString n, none, n, []⟩
  keyText n := toString n
  softDelete := none
  filter := none
  scope := none
  json n := .int n
  page := 1000
  page_pos := by decide
  delete := true

/-- The pass begins. -/
def users.begin (rows index : List ℕ) : State ℕ ℕ :=
  ⟨rows, index.map users.document, [], .scanning, none, [], []⟩

/-- Two documents, one with a row: the other one is deleted. -/
theorem users_exact :
    ∃ s s', users.system.ReachUnder users.Careful s ∧
      users.system.step s (.write [("1", none)]) = some s' ∧
      s'.index = [users.document 2] ∧ users.Exact s (.write [("1", none)]) s' ∧
      ∃ doc ∈ s.seen, doc.name = ("2", none) ∧ doc.key = 2 := by
  let both := [users.document 1, users.document 2]
  have hstays : ∀ pending phase after seen orphaned,
      users.Stays ("2", none) 2 ⟨[2], both, pending, phase, after, seen, orphaned⟩ :=
    fun _ _ _ _ _ => ⟨users.document 2, by simp [both], rfl, rfl, rfl⟩
  have hfirst : users.Careful (users.begin [2] [1, 2]) (.scan both) := by
    change KeysetScan.Whole Document.key _ _ _
    decide
  have hlegible : users.Careful ⟨[2], both, [], .checking both, some 2, both, []⟩ .check := by
    change ∀ row ∈ [2], _
    decide
  have hlast : users.Careful ⟨[2], both, [], .scanning, some 2, both, [users.document 1]⟩
      (.scan []) := by
    change KeysetScan.Whole Document.key _ _ _
    decide
  have hbegin : users.system.ReachUnder (users.CarefulWith ("2", none) 2)
      (users.begin [2] [1, 2]) :=
    .initial ⟨by decide, rfl, rfl, rfl, rfl⟩
  have hreach : users.system.ReachUnder (users.CarefulWith ("2", none) 2)
      ⟨[2], both, [], .deleting, some 2, both, [users.document 1]⟩ :=
    ((hbegin.step
      ⟨hfirst, fun _ => hstays ..⟩ rfl).step ⟨hlegible, fun _ => hstays ..⟩ rfl).step
      ⟨hlast, fun _ => hstays ..⟩ rfl
  have hcareful := hreach.mono fun _ _ h => h.1
  exact ⟨_, _, hcareful, rfl, rfl, (careful_exact users).1 _ _ _ hcareful trivial rfl,
    (careful_exact users).2 _ _ _ hreach rfl⟩

/-- A user comes back after the page was checked, and the stream writes the document before it is
deleted. -/
theorem users_loses : ∃ s s', 
    users.system.run (users.begin [] [1]) [.scan [users.document 1], .check,
      .commit (.insert 1), .stream, .scan []] = some s ∧
    users.system.step s (.write [("1", none)]) = some s' ∧
    s'.rows = [1] ∧ s'.index = [] ∧ s'.pending = [] ∧
    ¬ users.Exact s (.write [("1", none)]) s' := by
  refine ⟨⟨[1], [users.document 1], [], .deleting, some 1, [users.document 1],
    [users.document 1]⟩, _, ?_, rfl, rfl, rfl, rfl, fun h => ?_⟩
  · rfl
  · have hpending := (h.deletes _ rfl (users.document 1) (by decide) (by decide) 1 (by decide)
      (by decide) rfl).2
    cases hpending

/-- Two documents of one key, on pages of one: the second is not visited. -/
example : ({ users with page := 1, page_pos := Nat.one_pos }.system.run
    ⟨[], [users.document 1, { users.document 1 with id := "old" }], [], .scanning, none, [], []⟩
    [.scan [users.document 1], .check, .scan []]).map State.seen = some [users.document 1] := by
  decide +kernel

end Pass

end Reconcile

end Pg2osync
