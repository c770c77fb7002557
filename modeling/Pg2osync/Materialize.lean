import Pg2osync.Mapping

/-!
# From a row change to document operations

A row change becomes the operations that bring the target from the row's old state
to its new one: its documents are written, and what it no longer owns is deleted
afterwards. An update whose large unchanged columns the source left out is completed
from the document the target holds under the row's previous name; the table's filter
then decides what kind of change it is at all.
-/

namespace Pg2osync

/-- What happened to a row. -/
inductive RowKind : Type where
  /-- it is new, or copied by a load -/
  | insert (pk doc : Json) : RowKind
  /-- it changed; `unchangedToast` names the columns left out of `doc` -/
  | update (pk : Json) (previousPk : Option Json) (doc : Json) (unchangedToast : List String)
      (before : Option Json) : RowKind
  /-- it is gone -/
  | delete (pk : Json) (before : Option Json) : RowKind
  deriving DecidableEq

/-- A single committed row change. -/
structure RowChange : Type where
  /-- the table -/
  table : TableName
  /-- what happened -/
  kind : RowKind
  /-- the position it became visible at -/
  version : Option ℕ
  deriving DecidableEq

/-- An error of the write path, with the table it is about. -/
def halt {α : Type} (table : TableName) (result : Except String α) : Except CoreError α :=
  result.mapError fun e => .other (table.1 ++ "." ++ table.2 ++ ": " ++ e)

/-! ## Names of a row -/

/-- What a name needs of the template it is rendered by. -/
structure RowTemplate : Type where
  /-- the name, from a row -/
  render : Json → Except String String
  /-- the name, from a key -/
  renderFromPk : Json → Except String String
  /-- whether a key is enough -/
  isPkOnly : Bool

/-- A document id's template. -/
def IdTemplate.toRow (template : IdTemplate) : RowTemplate :=
  ⟨template.render, template.renderFromPk, template.pkOnly⟩

/-- An index's template. -/
def IndexTarget.toRow (target : IndexTarget) : RowTemplate :=
  ⟨target.render, target.renderFromPk, target.isPkOnly⟩

/-- `render_for_row`: the name for one row state, from the row when there is one,
from the before-image for a key-only event, and else from the key. -/
def renderForRow (what : String) (table : TableName) (template : RowTemplate) (pk : Json)
    (doc before : Option Json) : Except CoreError String :=
  match doc, before with
  | some doc, _ => halt table (template.render doc)
  | none, some before => halt table (template.render before)
  | none, none =>
    if template.isPkOnly || pk.asObject.isSome then halt table (template.renderFromPk pk)
    else halt table (.error ("the configured " ++ what ++
      " needs columns outside the primary key, but this event carries no before-image; " ++
      "the table needs REPLICA IDENTITY FULL"))

/-- `derived_id`. -/
def derivedId (table : TableName) (pk : Json) (doc before : Option Json) (rules : Rules) :
    Except CoreError String :=
  match rules.idTemplates table with
  | some template => renderForRow "id" table template.toRow pk doc before
  | none =>
    match rules.appendOnly table, doc.or before with
    | true, some row => .ok (rules.contentId row)
    | _, _ => .ok (pkToId pk)

/-- A before-image has the name of the row. -/
theorem derivedId_before (table : TableName) (pk doc : Json) (rules : Rules) :
    derivedId table pk none (some doc) rules = derivedId table pk (some doc) none rules := by
  rw [derivedId, derivedId]
  cases rules.idTemplates table with
  | some template => rfl
  | none => rfl

/-- `rendered_index`. -/
def renderedIndex (target : IndexTarget) (table : TableName) (pk : Json)
    (doc before : Option Json) : Except CoreError String :=
  renderForRow "index" table target.toRow pk doc before

/-! ## Completion -/

/-- The index of an update's previous state. -/
def completionIndex (target : IndexTarget) (oldPk doc : Json) (before : Option Json) :
    Except String String :=
  match before with
  | some before => target.render before
  | none => if target.isPkOnly then target.renderFromPk oldPk else target.render doc

/-- The routing of an update's previous state; what goes wrong with a join ends the
completion, what goes wrong with a routing column leaves the routing out. -/
def completionRouting (rules : Rules) (table : TableName) (oldPk : Json) (before : Option Json) :
    Except String (Option String) :=
  let joined := match rules.joins table with
    | some join => join.routingForKey before oldPk
    | none => .ok none
  joined.map fun routing => routing.or
    ((rules.routings table).bind fun rule => (rule.renderFromKey before oldPk).toOption)

/-- The id of an update's previous state. -/
def completionId (rules : Rules) (table : TableName) (pk : Json) (previousPk before : Option Json) :
    Option String :=
  match rules.idTemplates table with
  | none =>
    match previousPk.map pkToId with
    | some previous => if previous ≠ pkToId pk then some previous else some (pkToId pk)
    | none => some (pkToId pk)
  | some template =>
    if template.pkOnly then (template.renderFromPk (previousPk.getD pk)).toOption
    else (before.bind fun b => (template.render b).toOption).or
      (template.renderFromPk pk).toOption

/-- `completion_key`: where the stored copy is that completes a change, and the
routing it is stored under, if one is needed. -/
def completionKey (kind : RowKind) (rules : Rules) (mapping : TableMapping) (table : TableName) :
    Option ((String × String) × Option String) :=
  match kind with
  | .update pk previousPk doc unchanged before =>
    if unchanged.isEmpty || rules.appendOnly table then none
    else (mapping.targetFor table).bind fun target =>
      let oldPk := previousPk.getD pk
      (completionIndex target oldPk doc before).toOption.bind fun index =>
        (completionRouting rules table oldPk before).toOption.bind fun routing =>
          (completionId rules table pk previousPk before).map fun id => ((index, id), routing)
  | _ => none

/-- One unchanged column, from the stored document. -/
def completeColumn (rename : Option Rename) (stored : List (String × Json))
    (acc : List (String × Json) × List String) (column : String) :
    List (String × Json) × List String :=
  match Json.lookup (Rename.targetName rename column) stored with
  | some value => (Json.insertField column value acc.1, acc.2 ++ [column])
  | none => acc

/-- `complete_toast`: the completed document, and the columns that came from the
stored one. -/
def completeToast (doc : Json) (unchanged : List String) (previous : Option Json) (rules : Rules)
    (table : TableName) : Json × List String :=
  match previous, doc with
  | some (.obj stored), .obj fields =>
    let (fields, completed) :=
      unchanged.foldl (completeColumn (rules.renames table) stored) (fields, [])
    (.obj fields, completed)
  | _, _ => (doc, [])

/-- The completion of a change, if it is an update that needs one. -/
def completion (kind : RowKind) (previous : Option Json) (rules : Rules) (table : TableName) :
    Option (Json × List String) :=
  match kind with
  | .update _ _ doc unchanged _ =>
    if unchanged.isEmpty then none else some (completeToast doc unchanged previous rules table)
  | _ => none

/-- `filter_out`: what a change really is once the filter has judged the new state. -/
def filterOut (kind : RowKind) (completed : Option Json) (filter : Option (Json → Bool)) :
    RowKind :=
  match filter, kind with
  | some matches_, .insert pk doc =>
    if matches_ doc then kind else .delete pk (some doc)
  | some matches_, .update pk previousPk doc _ before =>
    if matches_ (completed.getD doc) then kind
    else .delete (previousPk.getD pk) (before.or (some doc))
  | _, _ => kind

/-! ## The documents of a row -/

/-- One document a row expands to, before it is shaped. -/
structure Placed : Type where
  /-- its id -/
  id : String
  /-- the row it is made of -/
  doc : Json
  /-- the join field's value and the routing it implies -/
  filed : Option (Json × Option String)
  /-- where it is written -/
  routing : Option String

/-- The join field and the routing of one document. -/
def placeOne (rules : Rules) (table : TableName) (raw : Json) (id : String) (doc : Json) :
    Except CoreError Placed :=
  match rules.joins table, rules.routings table with
  | some join, _ => (halt table (join.routingForDoc doc)).map fun filed =>
      ⟨id, doc, some filed, filed.2⟩
  | none, some rule => (halt table (rule.render raw)).map fun routing =>
      ⟨id, doc, none, some routing⟩
  | none, none => .ok ⟨id, doc, none, none⟩

/-- The documents one row becomes. -/
def place (rules : Rules) (table : TableName) (base : String) (raw : Json) :
    Except CoreError (List Placed) := do
  let docs ← match rules.fanOuts table with
    | none => .ok [(base, raw)]
    | some fan => halt table (fan.docs base raw)
  docs.mapM fun d => placeOne rules table raw d.1 d.2

/-- The routing of the document a row already owns, for the events that carry a key
and, at best, a before-image. -/
def keyRouting (rules : Rules) (table : TableName) (before : Option Json) (pk : Json) :
    Except CoreError (Option String) :=
  match rules.joins table, rules.routings table with
  | some join, _ => halt table (join.routingForKey before pk)
  | none, some rule => halt table ((rule.renderFromKey before pk).map some)
  | none, none => .ok none

/-- The join field, over everything else. -/
def fileUnder (join : Option JoinRule) (filed : Option (Json × Option String)) : Json → Json
  | .obj fields =>
    match filed, join with
    | some (value, _), some rule => .obj (Json.insertField rule.field value fields)
    | _, _ => .obj fields
  | doc => doc

/-- A document as the target gets it; the columns in `shaped` have been through the
transforms once. The columns that could not be converted come back beside it. -/
def shapeDoc (rules : Rules) (table : TableName) (shaped : List String) (placed : Placed) :
    Json × List String :=
  let doc := (rules.projections table).elim placed.doc fun rule => rule.apply placed.doc
  let (doc, left) := (rules.transforms table).elim (doc, []) fun rule => rule.applyExcept shaped doc
  let doc := (rules.renames table).elim doc fun rule => rule.apply doc
  let doc := (rules.flattens table).elim doc fun names => flattenFields names doc
  let doc := (rules.constants table).elim doc fun constants => addConstants constants doc
  (fileUnder (rules.joins table) placed.filed doc, left)

section

variable (rules : Rules) (table : TableName) (version : Option ℕ)

/-- The writes of a row's documents. -/
def finishDocs (index : String) (docs : List Placed) (shaped : List String) :
    List DocumentOp × List String :=
  (docs.map fun placed => .upsert index placed.id placed.routing
      (shapeDoc rules table shaped placed).1 version (rules.pipelines table),
    docs.flatMap fun placed => (shapeDoc rules table shaped placed).2)

/-- What an update of a fanned row removes: the documents of its before-image that
its new state does not hold. -/
def fannedRemovals (target : IndexTarget) (index : String) (newDocs : List Placed) (oldPk : Json) :
    Option Json → Except CoreError (List DocumentOp)
  | none => .ok []
  | some before => do
    let oldBase ← derivedId table oldPk none (some before) rules
    let oldIndex ← renderedIndex target table oldPk none (some before)
    let held := newDocs.map fun placed => (placed.id, placed.routing)
    let old ← (place rules table oldBase before).mapError fun e =>
      .other (e.display ++ " (the before-image of a fanned row)")
    return (old.filter fun placed => oldIndex ≠ index || !held.contains (placed.id, placed.routing))
      |>.map fun placed => .delete oldIndex placed.id placed.routing version

/-- The id of the document a row owned before an update; the current one where it
cannot be told. -/
def oldId (previousPk before : Option Json) (base : String) : String :=
  (match rules.idTemplates table with
  | none => previousPk.map pkToId
  | some template =>
    if template.pkOnly then previousPk.bind fun pk => (template.renderFromPk pk).toOption
    else before.bind fun b => (template.render b).toOption).getD base

/-- The index of the document a row owned before an update. -/
def oldIndex (target : IndexTarget) (oldPk : Json) (before : Option Json) (index : String) :
    String :=
  (match before with
  | some b => (target.render b).toOption
  | none => if target.isPkOnly then (target.renderFromPk oldPk).toOption else none).getD index

/-- What an update of a row that is one document removes: the document at its old
place, where that is not its new one. -/
def movedRemoval (target : IndexTarget) (index base : String) (routing : Option String)
    (oldPk : Json) (previousPk before : Option Json) : Except CoreError (List DocumentOp) := do
  let oldRouting ← keyRouting rules table before oldPk
  let old := (oldIndex target oldPk before index, oldId rules table previousPk before base,
    oldRouting)
  return if old ≠ (index, base, routing) then [.delete old.1 old.2.1 old.2.2 version] else []

/-- What an update removes, once its new documents are known. -/
def updateRemovals (target : IndexTarget) (index base : String) (newDocs : List Placed)
    (oldPk : Json) (previousPk before : Option Json) : Except CoreError (List DocumentOp) :=
  match rules.fanOuts table with
  | some _ => fannedRemovals rules table version target index newDocs oldPk before
  | none => movedRemoval rules table version target index base (newDocs.head?.bind Placed.routing)
      oldPk previousPk before

/-- An update: write first, delete second. -/
def materializeUpdate (target : IndexTarget) (pk : Json) (previousPk : Option Json) (doc : Json)
    (completed : List String) (before : Option Json) :
    Except CoreError (List DocumentOp × List String) := do
  let base ← derivedId table pk (some doc) before rules
  let index ← renderedIndex target table pk (some doc) before
  let newDocs ← place rules table base doc
  let writes := finishDocs rules table version index newDocs completed
  let removals ← updateRemovals rules table version target index base newDocs (previousPk.getD pk)
    previousPk before
  return (writes.1 ++ removals, writes.2)

/-- A delete, with the cascade of a parent. -/
def materializeDelete (target : IndexTarget) (pk : Json) (before : Option Json) :
    Except CoreError (List DocumentOp) := do
  let base ← derivedId table pk none before rules
  let index ← renderedIndex target table pk none before
  match rules.fanOuts table with
  | none =>
    let routing ← keyRouting rules table before pk
    let cascade := match rules.joins table with
      | some ⟨field, name, none⟩ => [.deleteChildren index field name base version]
      | _ => []
    return .delete index base routing version :: cascade
  | some _ =>
    match before with
    | none => halt table (.error ("a fanned row's delete needs its before-image, which this " ++
        "event does not carry; the table needs REPLICA IDENTITY FULL"))
    | some row =>
      let docs ← place rules table base row
      return docs.map fun placed => .delete index placed.id placed.routing version

end

/-- What arrives on an append-only table that its documents cannot follow. -/
def refusedOnAppendOnly : RowKind → Option String
  | .insert .. => none
  | .update .. => some "an UPDATE"
  | .delete .. => some "a DELETE"

/-- `materialize`: one row change as document operations, and the columns whose
transform could not convert the value. -/
def materialize (target : IndexTarget) (table : TableName) (kind : RowKind) (rules : Rules)
    (previous : Option Json) (version : Option ℕ) :
    Except CoreError (List DocumentOp × List String) :=
  match rules.appendOnly table, refusedOnAppendOnly kind with
  | true, some what => halt table (.error (what ++
      " arrived on an append-only table; nothing can say which document it is"))
  | _, _ =>
    let completion := completion kind previous rules table
    match filterOut kind (completion.map Prod.fst) (rules.filters table) with
    | .insert pk doc => do
      let base ← derivedId table pk (some doc) none rules
      let index ← renderedIndex target table pk (some doc) none
      let docs ← place rules table base doc
      return finishDocs rules table version index docs []
    | .update pk previousPk doc _ before =>
      let (doc, completed) := completion.getD (doc, [])
      materializeUpdate rules table version target pk previousPk doc completed before
    | .delete pk before =>
      (materializeDelete rules table version target pk before).map fun ops => (ops, [])

/-! ## The version of an operation is the row's -/

section

variable {rules : Rules} {table : TableName} {version : Option ℕ} {target : IndexTarget}

variable {op : DocumentOp}

theorem finishDocs_version {index : String} {docs : List Placed} {shaped : List String}
    (hop : op ∈ (finishDocs rules table version index docs shaped).1) : op.version = version := by
  obtain ⟨placed, -, rfl⟩ := List.mem_map.mp hop
  rfl

variable {ops : List DocumentOp} {before : Option Json}

theorem fannedRemovals_version {index : String} {newDocs : List Placed} {oldPk : Json}
    (h : fannedRemovals rules table version target index newDocs oldPk before = .ok ops)
    (hop : op ∈ ops) : op.version = version := by
  cases before with
  | none => cases h; cases hop
  | some before =>
    obtain ⟨oldBase, -, h⟩ := Except.bind_eq_ok h
    obtain ⟨oldIndex, -, h⟩ := Except.bind_eq_ok h
    obtain ⟨old, -, h⟩ := Except.bind_eq_ok h
    cases h
    obtain ⟨placed, -, rfl⟩ := List.mem_map.mp hop
    rfl

theorem movedRemoval_version {index base : String} {routing : Option String} {oldPk : Json}
    {previousPk before : Option Json}
    (h : movedRemoval rules table version target index base routing oldPk previousPk before = .ok ops)
    (hop : op ∈ ops) : op.version = version := by
  obtain ⟨oldRouting, -, h⟩ := Except.bind_eq_ok h
  cases h
  split at hop
  · rw [List.mem_singleton.mp hop]
    rfl
  · cases hop

theorem materializeUpdate_version {pk : Json} {previousPk : Option Json} {doc : Json}
    {completed : List String} {left : List String}
    (h : materializeUpdate rules table version target pk previousPk doc completed before =
      .ok (ops, left)) (hop : op ∈ ops) : op.version = version := by
  obtain ⟨base, -, h⟩ := Except.bind_eq_ok h
  obtain ⟨index, -, h⟩ := Except.bind_eq_ok h
  obtain ⟨newDocs, -, h⟩ := Except.bind_eq_ok h
  obtain ⟨removals, hremovals, h⟩ := Except.bind_eq_ok h
  cases h
  obtain hwrite | hremoval := List.mem_append.mp hop
  · exact finishDocs_version hwrite
  · unfold updateRemovals at hremovals
    split at hremovals
    · exact fannedRemovals_version hremovals hremoval
    · exact movedRemoval_version hremovals hremoval

theorem materializeDelete_version {pk : Json}
    (h : materializeDelete rules table version target pk before = .ok ops) (hop : op ∈ ops) :
    op.version = version := by
  obtain ⟨base, -, h⟩ := Except.bind_eq_ok h
  obtain ⟨index, -, h⟩ := Except.bind_eq_ok h
  split at h
  · obtain ⟨routing, -, h⟩ := Except.bind_eq_ok h
    cases h
    obtain rfl | hcascade := List.mem_cons.mp hop
    · rfl
    · split at hcascade
      · rw [List.mem_singleton.mp hcascade]
        rfl
      · cases hcascade
  · split at h
    · cases h
    · obtain ⟨docs, -, h⟩ := Except.bind_eq_ok h
      cases h
      obtain ⟨placed, -, rfl⟩ := List.mem_map.mp hop
      rfl

/-- **Every operation of a change carries the change's version.** -/
theorem materialize_version {kind : RowKind} {previous : Option Json} {left : List String}
    (h : materialize target table kind rules previous version = .ok (ops, left)) (hop : op ∈ ops) :
    op.version = version := by
  unfold materialize at h
  split at h
  · cases h
  · dsimp only at h
    split at h
    · obtain ⟨base, -, h⟩ := Except.bind_eq_ok h
      obtain ⟨index, -, h⟩ := Except.bind_eq_ok h
      obtain ⟨docs, -, h⟩ := Except.bind_eq_ok h
      have hwrites : (finishDocs rules table version index docs []).1 = ops :=
        congrArg Prod.fst (Except.ok.inj h)
      exact finishDocs_version (hwrites ▸ hop)
    · exact materializeUpdate_version h hop
    · obtain ⟨removed, hdelete, h⟩ := Except.map_eq_ok h
      cases h
      exact materializeDelete_version hdelete hop

end

end Pg2osync
