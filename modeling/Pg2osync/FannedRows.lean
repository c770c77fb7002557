import Pg2osync.Evolution
import Pg2osync.LastWrite

/-!
# Rows of several documents

A fanned row is a document for each element of its array, and an update of one is the
difference of two rows: the documents of the new one are written, and those of the old one
that are not among them are removed. This says what the operations of an update or a delete
leave under every key that either row has.
-/

namespace Pg2osync

/-! ## The documents of a row -/

section

variable (rules : Rules) (table : TableName) (target : IndexTarget)

/-- The documents a row is to have: where each is filed and what it holds, in the order of the
array. The columns in `shaped` have been through the transforms. -/
def documentsOf (pk row : Json) (shaped : List String) :
    Except CoreError (List (DocKey × Json)) := do
  let base ← derivedId table pk (some row) none rules
  let index ← renderedIndex target table pk (some row) none
  let placed ← place rules table base row
  return placed.map fun p => (⟨index, p.id, p.routing⟩, (shapeDoc rules table shaped p).1)

/-- The row a change replaced: the key it had and its before-image. -/
def RowKind.replaced : RowKind → Option (Json × Json)
  | .insert _ _ => none
  | .update pk previousPk _ _ before => before.map fun row => (previousPk.getD pk, row)
  | .delete pk before => before.map fun row => (pk, row)

/-- The documents of the row a change leaves: none of a deleted row, nor of one that does not
pass the filter. -/
def documentsAfter (kind : RowKind) (previous : Option Json) :
    Except CoreError (List (DocKey × Json)) :=
  match kind with
  | .insert pk row => documentsOf rules table target pk row []
  | .update pk _ row _ _ =>
    let (row, completed) := (completion kind previous rules table).getD (row, [])
    if (rules.filters table).all fun passes => passes row then
      documentsOf rules table target pk row completed
    else .ok []
  | .delete _ _ => .ok []

end

variable {rules : Rules} {table : TableName} {target : IndexTarget}

/-- A row names itself whatever it replaced. -/
theorem derivedId_row (pk row : Json) (before : Option Json) :
    derivedId table pk (some row) before rules = derivedId table pk (some row) none rules := by
  unfold derivedId
  cases rules.idTemplates table with
  | some template => rfl
  | none => rfl

theorem documentsOf_eq {pk row : Json} {base index : String} {placed : List Placed}
    (hbase : derivedId table pk (some row) none rules = .ok base)
    (hindex : renderedIndex target table pk (some row) none = .ok index)
    (hplaced : place rules table base row = .ok placed) (shaped : List String) :
    documentsOf rules table target pk row shaped =
      .ok (placed.map fun p => (⟨index, p.id, p.routing⟩, (shapeDoc rules table shaped p).1)) := by
  rw [documentsOf, hbase, hindex]
  simp only [bind, Except.bind, hplaced]
  rfl

/-! ## The operations of a change -/

/-- Operations take some documents to others: whatever is stored, each key of either holds
afterwards the last new document there is for it, or nothing, and no other key is touched. -/
def Replaces (live : VersionedTarget) (old new : List (DocKey × Json)) (ops : List DocumentOp) :
    Prop :=
  ∀ docs key, ops.foldl (applyOp live) docs key =
    if key ∈ old.map Prod.fst ∨ key ∈ new.map Prod.fst then LastWrite.lastWrite new key
    else docs key

variable {version : Option ℕ} (live : VersionedTarget)

/-- The writes of a row are writes of its documents. -/
theorem foldl_finishDocs (index : String) (placed : List Placed) (shaped : List String)
    (docs : Documents) :
    (finishDocs rules table version index placed shaped).1.foldl (applyOp live) docs =
      (placed.map fun p => ((⟨index, p.id, p.routing⟩ : DocKey),
        (shapeDoc rules table shaped p).1)).foldl LastWrite.write docs := by
  rw [finishDocs, List.foldl_map, List.foldl_map]
  rfl

/-- The deletes of a row are removals of its documents. -/
theorem foldl_deletes (index : String) (placed : List Placed) (docs : Documents) :
    (placed.map fun p => DocumentOp.delete index p.id p.routing version).foldl (applyOp live)
      docs = (placed.map fun p => (⟨index, p.id, p.routing⟩ : DocKey)).foldl LastWrite.remove
        docs := by
  rw [List.foldl_map, List.foldl_map]
  rfl

/-- What an update takes for left behind is what the new row does not have: a document in
another index, or one whose id and routing are no new one's. -/
theorem left_behind_iff (index oldIndex : String) (newDocs : List Placed) (p : Placed)
    (shaped : List String) :
    (oldIndex ≠ index ||
        !(newDocs.map fun q => (q.id, q.routing)).contains (p.id, p.routing)) = true ↔
      (⟨oldIndex, p.id, p.routing⟩ : DocKey) ∉ (newDocs.map fun q =>
        ((⟨index, q.id, q.routing⟩ : DocKey), (shapeDoc rules table shaped q).1)).map Prod.fst := by
  rw [List.map_map, List.mem_map, Bool.or_eq_true, decide_eq_true_iff, Bool.not_eq_true',
    ← Bool.not_eq_true, List.contains_iff_mem, List.mem_map, ← not_and_or, not_iff_not]
  constructor
  · rintro ⟨rfl, q, hq, heq⟩
    obtain ⟨hid, hrouting⟩ := Prod.mk.inj heq
    exact ⟨q, hq, by simp [hid, hrouting]⟩
  · rintro ⟨q, hq, heq⟩
    obtain ⟨hindex, hid, hrouting⟩ := DocKey.mk.inj heq
    exact ⟨hindex.symm, q, hq, Prod.ext hid hrouting⟩

variable {live} {fan : FanOut} (hfan : rules.fanOuts table = some fan)

include hfan in
/-- An update leaves the documents of the new row, and of the old one only those. -/
theorem foldl_materializeUpdate {pk row before : Json} {previousPk : Option Json}
    {completed : List String} {ops : List DocumentOp} {left : List String}
    (h : materializeUpdate rules table version target pk previousPk row completed (some before) =
      .ok (ops, left)) :
    ∃ old new, documentsOf rules table target (previousPk.getD pk) before [] = .ok old ∧
      documentsOf rules table target pk row completed = .ok new ∧ Replaces live old new ops := by
  obtain ⟨base, hbase, h⟩ := Except.bind_eq_ok h
  obtain ⟨index, hindex, h⟩ := Except.bind_eq_ok h
  obtain ⟨newDocs, hnew, h⟩ := Except.bind_eq_ok h
  obtain ⟨removals, hremovals, h⟩ := Except.bind_eq_ok h
  cases h
  rw [updateRemovals, hfan] at hremovals
  obtain ⟨oldBase, hbase', hremovals⟩ := Except.bind_eq_ok hremovals
  obtain ⟨oldIndex, hindex', hremovals⟩ := Except.bind_eq_ok hremovals
  obtain ⟨old, hold, hremovals⟩ := Except.bind_eq_ok hremovals
  cases hremovals
  rw [derivedId_before] at hbase'
  rw [derivedId_row] at hbase
  have hold' : place rules table oldBase before = .ok old := by
    cases hplace : place rules table oldBase before with
    | error e => rw [hplace] at hold; cases hold
    | ok placed => rw [hplace] at hold; cases hold; rfl
  refine ⟨_, _, documentsOf_eq hbase' hindex' hold' [],
    documentsOf_eq hbase hindex hnew completed, fun docs key => ?_⟩
  rw [List.foldl_append, foldl_finishDocs, foldl_deletes]
  refine LastWrite.foldl_write_remove _ (fun k => ?_) docs key
  rw [List.map_map, List.mem_map, List.mem_map]
  constructor
  · rintro ⟨p, hp, rfl⟩
    obtain ⟨hmem, hbehind⟩ := List.mem_filter.mp hp
    exact ⟨⟨p, hmem, rfl⟩, (left_behind_iff index oldIndex newDocs p completed).mp hbehind⟩
  · rintro ⟨⟨p, hmem, rfl⟩, hnot⟩
    exact ⟨p, List.mem_filter.mpr
      ⟨hmem, (left_behind_iff index oldIndex newDocs p completed).mpr hnot⟩, rfl⟩

include hfan in
/-- A delete removes the documents of the old row. -/
theorem foldl_materializeDelete {pk before : Json} {ops : List DocumentOp}
    (h : materializeDelete rules table version target pk (some before) = .ok ops) :
    ∃ old, documentsOf rules table target pk before [] = .ok old ∧ Replaces live old [] ops := by
  obtain ⟨base, hbase, h⟩ := Except.bind_eq_ok h
  obtain ⟨index, hindex, h⟩ := Except.bind_eq_ok h
  rw [hfan] at h
  obtain ⟨placed, hplaced, h⟩ := Except.bind_eq_ok h
  cases h
  rw [derivedId_before] at hbase
  refine ⟨_, documentsOf_eq hbase hindex hplaced [], fun docs key => ?_⟩
  rw [foldl_deletes]
  refine LastWrite.foldl_write_remove [] (fun k => ?_) docs key
  simp

include hfan in
/-- **A change of a fanned row replaces the documents of the old row by those of the new one.** -/
theorem materialize_fanned {kind : RowKind} {oldPk before : Json}
    (hreplaced : kind.replaced = some (oldPk, before)) {previous : Option Json}
    {ops : List DocumentOp} {left : List String}
    (h : materialize target table kind rules previous version = .ok (ops, left)) :
    ∃ old new, documentsOf rules table target oldPk before [] = .ok old ∧
      documentsAfter rules table target kind previous = .ok new ∧ Replaces live old new ops := by
  rw [materialize] at h
  split at h
  · cases h
  · cases kind with
    | insert pk row => cases hreplaced
    | update pk previousPk row unchanged before' =>
      obtain rfl : before' = some before := by
        cases before' with
        | none => cases hreplaced
        | some row' => cases hreplaced; rfl
      cases hreplaced
      rw [documentsAfter]
      have hrow : ((completion (.update pk previousPk row unchanged (some before)) previous rules
          table).map Prod.fst).getD row = ((completion (.update pk previousPk row unchanged
            (some before)) previous rules table).getD (row, [])).1 := by
        cases completion (.update pk previousPk row unchanged (some before)) previous rules table <;>
          rfl
      cases hfilter : rules.filters table with
      | none =>
        rw [hfilter] at h
        exact foldl_materializeUpdate hfan h
      | some passes =>
        rw [hfilter] at h
        simp only [filterOut, hrow] at h
        by_cases hpasses : passes ((completion (.update pk previousPk row unchanged (some before))
            previous rules table).getD (row, [])).1 = true
        · rw [if_pos hpasses] at h
          dsimp only [Option.all]
          rw [if_pos hpasses]
          exact foldl_materializeUpdate hfan h
        · rw [if_neg hpasses] at h
          dsimp only [Option.all]
          rw [if_neg hpasses]
          obtain ⟨removed, hremoved, heq⟩ := Except.map_eq_ok h
          cases heq
          obtain ⟨old, hold, hleaves⟩ :
              ∃ old, documentsOf rules table target (previousPk.getD pk) before [] = .ok old ∧
                Replaces live old [] ops :=
            foldl_materializeDelete hfan hremoved
          exact ⟨old, [], hold, rfl, hleaves⟩
    | delete pk before' =>
      obtain rfl : before' = some before := by
        cases before' with
        | none => cases hreplaced
        | some row' => cases hreplaced; rfl
      cases hreplaced
      have hkind : filterOut (.delete oldPk (some before)) none (rules.filters table) =
          .delete oldPk (some before) := by
        cases rules.filters table <;> rfl
      simp only [completion, Option.map_none, hkind] at h
      obtain ⟨removed, hremoved, heq⟩ := Except.map_eq_ok h
      cases heq
      obtain ⟨old, hold, hleaves⟩ :
          ∃ old, documentsOf rules table target oldPk before [] = .ok old ∧
            Replaces live old [] ops :=
        foldl_materializeDelete hfan hremoved
      exact ⟨old, [], hold, rfl, hleaves⟩

/-- The rules of a section that makes a document of each tag. -/
def tagged : Rules :=
  { Rules.bare with
    fanOuts := fun _ => some ⟨"tags", none,
      ⟨[.literal "user-", .column "id", .literal "-", .column "tags"], false⟩⟩ }

/-- A user and the user's tags. -/
def taggedUser (tags : List String) : Json :=
  .obj [("id", .int 1), ("tags", .arr (tags.map .str))]

/-- The document of one tag. -/
def userTag (tag : String) : Json :=
  .obj [("id", .int 1), ("tags", .str tag)]

/-- A user who drops one tag and has another twice. -/
theorem materialize_fanned_tagged :
    ∃ old new, documentsOf tagged ("public", "users") (.fixed "users") (.int 1)
        (taggedUser ["a", "b"]) [] = .ok old ∧
      documentsAfter tagged ("public", "users") (.fixed "users")
        (.update (.int 1) none (taggedUser ["b", "b"]) [] (some (taggedUser ["a", "b"]))) none =
          .ok new ∧
      Replaces ⟨fun _ doc => doc, fun _ _ _ => none, []⟩ old new
        [.upsert "users" "user-1-b" none (userTag "b") (some 7) none,
          .upsert "users" "user-1-b" none (userTag "b") (some 7) none,
          .delete "users" "user-1-a" none (some 7)] :=
  materialize_fanned rfl rfl rfl

end Pg2osync
