import Pg2osync.Concurrency
import Pg2osync.Materialize
import Pg2osync.Transition

/-!
# A table and its events

A table evolves one row at a time, and the source describes each step by an event:
the row as it is now, the key it had, the whole row it replaced where the table's
replica identity says so, and the large columns it left out. A section of the
configuration names the rows' documents; the startup check refuses it where a name
could not be rendered from what the events carry.

The documents are a store that takes every operation as it comes, one document under
each index, id and routing.
-/

namespace Pg2osync

/-- A row: its columns and their values, in the order of an object's fields. -/
abbrev Row := List (String × Json)

/-- What is stored under each key. -/
abbrev Documents := DocKey → Option Json

/-! ## The store -/

/-- One operation on a store that takes everything. -/
def applyOp (target : VersionedTarget) (docs : Documents) : DocumentOp → Documents
  | .upsert index id routing doc _ _ => Function.update docs ⟨index, id, routing⟩ (some doc)
  | .delete index id routing _ => Function.update docs ⟨index, id, routing⟩ none
  | .deleteChildren index field name parentId version => fun key =>
    if (docs key).any (target.isChild (.deleteChildren index field name parentId version) key) then
      none
    else docs key

/-- The live documents that operations remove, at whichever of them. -/
def strikes (target : VersionedTarget) (live : List DocKey) : Documents → List DocumentOp →
    List DocKey
  | _, [] => []
  | docs, op :: rest =>
    live.filter (fun key => (docs key).isSome && (applyOp target docs op key).isNone) ++
      strikes target live (applyOp target docs op) rest

/-! ## The table and its section -/

/-- A table, as its source and its section describe it. -/
structure KeyedTable : Type where
  /-- its name -/
  table : TableName
  /-- its primary key, as the catalogue reports it -/
  catalogKey : List String
  /-- the columns of its replica identity -/
  identity : List String
  /-- whether the whole old row arrives with an update or a delete -/
  full : Bool
  /-- `primary_key`, or its default -/
  declaredKey : String
  /-- the rules of its section, among others -/
  rules : Rules
  /-- where its documents go -/
  target : IndexTarget

namespace KeyedTable

variable (t : KeyedTable)

/-- `pk_columns_for`. -/
def pkColumns : List String :=
  if t.rules.appendOnly t.table then [] else [t.declaredKey]

/-- The columns that make the key of an event. -/
def keyColumns : List String :=
  if t.full && !t.catalogKey.isEmpty then t.catalogKey else t.identity

/-- `extract_pk`: a scalar for a key of one column, an object for a longer one. -/
def extractPk (row : Row) : Option Json :=
  match row.filter fun f => t.keyColumns.contains f.1 with
  | [] => none
  | [f] => some f.2
  | fields => some (.obj fields)

/-- A column of both keys, the declared and the real one. -/
def inBothKeys (column : String) : Bool :=
  t.catalogKey.contains column && t.pkColumns.contains column

/-- The template of the index, where there is one. -/
def indexTemplate : Option IdTemplate :=
  match t.target with
  | .fixed _ => none
  | .template _ template => some template

/-- The parent of a join child. -/
def joinParent : Option JoinParent :=
  (t.rules.joins t.table).bind JoinRule.parent

/-- The columns that decide where a row's document is filed. -/
def namingColumns : List String :=
  ((t.rules.idTemplates t.table).map IdTemplate.columns).getD [] ++
    (t.indexTemplate.map IdTemplate.columns).getD [] ++
    (t.joinParent.map fun parent => [parent.column]).getD [] ++
    ((t.rules.routings t.table).map fun rule => [rule.column]).getD []

/-- What the configuration makes of the section: a template is key-only by the
declared key, and so is a column. A section that is not fanned names its parent by a
column. -/
def declared : Bool :=
  ((t.rules.idTemplates t.table).all fun template =>
    template.pkOnly = template.columns.all t.pkColumns.contains) &&
  (t.indexTemplate.all fun template =>
    template.pkOnly = template.columns.all t.pkColumns.contains) &&
  (t.joinParent.all fun parent =>
    !parent.element && parent.keyColumn = t.pkColumns.contains parent.column) &&
  ((t.rules.routings t.table).all fun rule => rule.keyColumn = t.pkColumns.contains rule.column)

/-- `check_derived_identity_requirements`: unless the whole old row arrives, every name
is rendered from columns of both keys. -/
def startupCheck : Bool :=
  t.rules.appendOnly t.table || t.full || t.namingColumns.all t.inBothKeys

/-! ## Where a row's document belongs -/

/-- The id of a row. -/
def idOf (row : Row) : Except String String :=
  match t.rules.idTemplates t.table with
  | some template => template.render (.obj row)
  | none =>
    if t.rules.appendOnly t.table then .ok (t.rules.contentId (.obj row))
    else (t.extractPk row).elim (.error "no key") fun pk => .ok (pkToId pk)

/-- The routing of a row. -/
def routingOf (row : Row) : Except String (Option String) :=
  match t.rules.joins t.table, t.rules.routings t.table with
  | some join, _ => (join.routingForDoc (.obj row)).map Prod.snd
  | none, some rule => (rule.render (.obj row)).map some
  | none, none => .ok none

/-- Where a row's document belongs. -/
def keyOf (row : Row) : Except String DocKey :=
  (t.target.render (.obj row)).bind fun index =>
    (t.idOf row).bind fun id => (t.routingOf row).map fun routing => ⟨index, id, routing⟩

/-- Where the documents of some rows belong. -/
def places (rows : List Row) : List DocKey :=
  rows.filterMap fun row => (t.keyOf row).toOption

/-- Every row has a key, and a place that no other row has. -/
def wellNamed (rows : List Row) : Bool :=
  (rows.all fun row => (t.keyOf row).toOption.isSome) && decide (t.places rows).Nodup &&
    rows.all fun row => t.rules.appendOnly t.table || (t.extractPk row).isSome

/-! ## Events -/

/-- A row without some of its columns' values. -/
def leaveOut (columns : List String) (row : Row) : Row :=
  row.map fun f => if columns.contains f.1 then (f.1, .null) else f

/-- How the table changes next. -/
inductive Change : Type where
  /-- a row is inserted -/
  | insert (row : Row) : Change
  /-- a row is updated; `leftOut` names the columns whose values are not sent again -/
  | update (nth : ℕ) (row : Row) (leftOut : List String) (keySent : Bool) : Change
  /-- a row is deleted -/
  | delete (nth : ℕ) : Change

/-- Large columns of the row may be left out when they did not change and the old row does
not arrive with them; a key is always sent. -/
def mayLeaveOut (old row : Row) (leftOut : List String) : Bool :=
  leftOut.all fun column => !t.full && !t.catalogKey.contains column &&
    !t.identity.contains column && (Json.lookup column row).isSome &&
    Json.lookup column old = Json.lookup column row

/-- The rows after a change, and the event that describes it, if the table can change
so. -/
def describe (rows : List Row) : Change → Option (List Row × RowKind)
  | .insert row =>
    if t.rules.appendOnly t.table then some (rows ++ [row], .insert .null (.obj row))
    else (t.extractPk row).map fun pk => (rows ++ [row], .insert pk (.obj row))
  | .update nth row leftOut keySent =>
    rows[nth]?.bind fun old => (t.extractPk old).bind fun oldPk => (t.extractPk row).bind fun pk =>
      if !t.rules.appendOnly t.table && t.mayLeaveOut old row leftOut && (keySent || oldPk = pk) then
        some (rows.set nth row, .update pk (if keySent then some oldPk else none)
          (.obj (leaveOut leftOut row)) leftOut (if t.full then some (.obj old) else none))
      else none
  | .delete nth =>
    rows[nth]?.bind fun old => (t.extractPk old).bind fun pk =>
      if t.rules.appendOnly t.table then none
      else some (rows.eraseIdx nth, .delete pk (if t.full then some (.obj old) else none))

end KeyedTable

/-! ## The table beside its documents -/

/-- A table and the documents its events have left. -/
structure Mirror : Type where
  /-- the live rows -/
  rows : List Row
  /-- the documents, unless an event could not be materialised -/
  docs : Except CoreError Documents
  /-- ghost: the live rows' documents that were ever removed -/
  struck : List DocKey

namespace KeyedTable

variable (t : KeyedTable) (target : VersionedTarget)

/-- An event is materialised and its operations are applied in their order. -/
def materialized (rows : List Row) (kind : RowKind) (previous : Option Json) (version : Option ℕ)
    (s : Mirror) : Mirror :=
  match s.docs, materialize t.target t.table kind t.rules previous version with
  | .ok docs, .ok (ops, _) =>
    { rows, docs := .ok (ops.foldl (applyOp target) docs),
      struck := s.struck ++ strikes target (t.places rows) docs ops }
  | .ok _, .error e => { s with rows, docs := .error e }
  | .error _, _ => { s with rows }

/-- A table under a section without a filter, one document a row, and a store that is
empty at first. An action is a change, the document read back for it and its version. -/
def mirrorSystem : Transition.System Mirror (Change × Option Json × Option ℕ) where
  initial s := s = ⟨[], .ok fun _ => none, []⟩
  step s action := (t.describe s.rows action.1).bind fun next =>
    if t.wellNamed next.1 then
      some (t.materialized target next.1 next.2 action.2.1 action.2.2 s)
    else none

/-- **The documents mirror the table**: every event was materialised, there is a
document exactly where a live row's belongs, and none of theirs was ever removed. -/
structure Mirrors (s : Mirror) : Prop where
  /-- one document for each live row -/
  docs : ∃ docs, s.docs = .ok docs ∧ ∀ key, (docs key).isSome ↔ key ∈ t.places s.rows
  /-- removed by nothing -/
  struck : s.struck = []

/-! ## What a key tells -/

/-- A key-only template renders from the key of a row what it renders from the row. -/
def tellsId (row : Row) : Bool :=
  (t.rules.idTemplates t.table).all fun template => !template.pkOnly ||
    (t.extractPk row).all fun pk => template.renderFromPk pk = template.render (.obj row)

/-- So does the index. -/
def tellsIndex (row : Row) : Bool :=
  (t.extractPk row).all fun pk => t.target.renderFromPk pk = t.target.render (.obj row)

/-- And so does the routing. -/
def tellsRouting (row : Row) : Bool :=
  (t.extractPk row).all fun pk =>
    match t.rules.joins t.table, t.rules.routings t.table with
    | some join, _ => join.routingForKey none pk = (join.routingForDoc (.obj row)).map Prod.snd
    | none, some rule => rule.renderFromKey none pk = rule.render (.obj row)
    | none, none => true

/-- Whatever is rendered from a key for a change is what the row itself renders: the old
id of an update by a key-only template, and every name where the old row does not
arrive. -/
def keyTells (rows : List Row) : Change → Bool
  | .insert _ => true
  | .update nth row _ keySent => rows[nth]?.all fun old =>
    t.tellsId old && (keySent || t.tellsId row) && (t.full || t.tellsIndex old && t.tellsRouting old)
  | .delete nth => rows[nth]?.all fun old =>
    t.full || t.tellsId old && t.tellsIndex old && t.tellsRouting old

end KeyedTable

end Pg2osync
