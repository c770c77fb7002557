import Mathlib.Data.List.Sort
import Pg2osync.Core

/-!
# The rules of a table

What a row becomes in the target is decided by its section's rules: where its
documents go and under which id, which columns they keep and under which names,
whether the row is one document or one per element, which join field files it.
Identity renders from the row as the source sent it; projection, transforms,
renames, flattening and constants shape the document afterwards, in that order.

Each rule is looked up by table. A transform's operation and the hash of a keyless
row are functions here: what they compute is not the rules' business.
-/

namespace Pg2osync

/-- A source table: schema and name. -/
abbrev TableName := String × String

namespace Json

/-- `Map::remove` on a field list. -/
def removeField (key : String) (fields : List (String × Json)) : List (String × Json) :=
  fields.filter fun f => f.1 ≠ key

/-- `Map::extend`: every field of the second object is inserted. -/
def extendFields (fields more : List (String × Json)) : List (String × Json) :=
  more.foldl (fun fields f => insertField f.1 f.2 fields) fields

theorem lookup_filter (p : String → Bool) (key : String) (fields : List (String × Json)) :
    lookup key (fields.filter fun f => p f.1) = if p key then lookup key fields else none := by
  induction fields with
  | nil => simp [lookup]
  | cons f rest ih =>
    obtain ⟨k, v⟩ := f
    by_cases hk : k = key
    · subst hk
      cases hp : p k <;> simp [hp, lookup, ih]
    · cases hp : p k <;> simp [hp, lookup, hk, ih]

theorem extendFields_ordered {acc : List (String × Json)} (h : Ordered acc)
    (pairs : List (String × Json)) : Ordered (extendFields acc pairs) := by
  induction pairs generalizing acc with
  | nil => exact h
  | cons pair rest ih => exact ih (h.insertField pair.1 pair.2)

theorem lookup_extendFields_of_notMem {acc pairs : List (String × Json)} {key : String}
    (h : key ∉ pairs.map Prod.fst) :
    lookup key (extendFields acc pairs) = lookup key acc := by
  induction pairs generalizing acc with
  | nil => rfl
  | cons pair rest ih =>
    rw [List.map_cons, List.mem_cons, not_or] at h
    exact (ih h.2).trans (lookup_insertField_ne h.1 pair.2 acc)

theorem lookup_extendFields_of_mem {acc pairs : List (String × Json)} {key : String} {value : Json}
    (hnodup : (pairs.map Prod.fst).Nodup) (h : (key, value) ∈ pairs) :
    lookup key (extendFields acc pairs) = some value := by
  induction pairs generalizing acc with
  | nil => cases h
  | cons pair rest ih =>
    rw [List.map_cons, List.nodup_cons] at hnodup
    obtain rfl | h := List.mem_cons.mp h
    · exact (lookup_extendFields_of_notMem hnodup.1).trans
        (lookup_insertField_self key value acc)
    · exact ih hnodup.2 h

/-- `scalar_display`: a string as it is, any other value as its text. -/
def scalarDisplay : Json → String
  | .str s => s
  | other => other.render

end Json

/-! ## Shaping a document -/

/-- Which columns a section keeps. -/
inductive Projection : Type where
  /-- only these -/
  | include_ (columns : List String) : Projection
  /-- all but these -/
  | exclude (columns : List String) : Projection

/-- Whether a projection keeps a column. -/
def Projection.keeps : Projection → String → Bool
  | .include_ columns, name => columns.contains name
  | .exclude columns, name => !columns.contains name

/-- `Projections::apply`. -/
def Projection.apply (rule : Projection) : Json → Json
  | .obj fields => .obj (fields.filter fun f => rule.keeps f.1)
  | doc => doc

/-- What a transform made of a value. -/
inductive Applied : Type where
  /-- a new value -/
  | converted (value : Json) : Applied
  /-- the value already had the shape -/
  | alreadyShaped : Applied
  /-- the operation cannot convert it -/
  | unconvertible : Applied
  /-- it cannot, and a default stands in -/
  | defaulted (value : Json) : Applied
  /-- it cannot, and the value must not be published -/
  | refused : Applied

/-- A section's transforms: an operation for each of some columns. -/
abbrev TransformRules := List (String × (Json → Applied))

/-- One transform on a field list, with the column if it could not be converted. -/
def applyTransform (column : String) (op : Json → Applied) (fields : List (String × Json)) :
    List (String × Json) × List String :=
  match Json.lookup column fields with
  | none | some .null => (fields, [])
  | some value =>
    match op value with
    | .converted new => (Json.insertField column new fields, [])
    | .alreadyShaped => (fields, [])
    | .unconvertible => (fields, [column])
    | .defaulted new => (Json.insertField column new fields, [column])
    | .refused => (Json.insertField column (.str "***") fields, [column])

/-- `Transforms::apply_except`: the columns in `shaped` are left alone. The columns
whose value could not be converted come back beside the document. -/
def TransformRules.applyExcept (rules : TransformRules) (shaped : List String) :
    Json → Json × List String
  | .obj fields =>
    let (fields, left) := rules.foldl (fun (fields, left) (column, op) =>
      if shaped.contains column then (fields, left)
      else
        let (fields, missed) := applyTransform column op fields
        (fields, left ++ missed)) (fields, [])
    (.obj fields, left)
  | doc => (doc, [])

/-- A section's renames: its own fields, and those inside embedded children. -/
structure Rename : Type where
  /-- new names of the document's fields -/
  columns : List (String × String)
  /-- new names inside a field's objects -/
  nested : List (String × List (String × String))

/-- `rename_keys`: every renamed key leaves before any lands. -/
def renameKeys (map : List (String × String)) (fields : List (String × Json)) :
    List (String × Json) :=
  let moved := map.filterMap fun (source, target) =>
    (Json.lookup source fields).map fun value => (target, value)
  Json.extendFields (map.foldl (fun fields m => Json.removeField m.1 fields) fields) moved

/-- Renames inside one embedded field. -/
def renameNested (columns : List (String × String)) : Json → Json
  | .arr rows => .arr (rows.map fun row => match row with
    | .obj fields => .obj (renameKeys columns fields)
    | other => other)
  | .obj row => .obj (renameKeys columns row)
  | other => other

/-- `Renames::target_name`: the name a column is stored under. -/
def Rename.targetName (rule : Option Rename) (column : String) : String :=
  match rule with
  | some rule => ((rule.columns.find? fun m => m.1 = column).map Prod.snd).getD column
  | none => column

/-- `Renames::apply`. -/
def Rename.apply (rule : Rename) : Json → Json
  | .obj fields => .obj (rule.nested.foldl (fun fields (field, columns) =>
      match Json.lookup field fields with
      | some value => Json.insertField field (renameNested columns value) fields
      | none => fields) (renameKeys rule.columns fields))
  | doc => doc

/-- `Flattens::apply`: each named child is lifted onto the document. -/
def flattenFields (names : List String) : Json → Json
  | .obj fields => .obj (names.foldl (fun fields name =>
      match Json.lookup name fields with
      | some (.obj element) => Json.extendFields (Json.removeField name fields) element
      | _ => Json.removeField name fields) fields)
  | doc => doc

/-- `Constants::apply`. -/
def addConstants (constants : List (String × Json)) : Json → Json
  | .obj fields => .obj (Json.extendFields fields constants)
  | doc => doc

/-! ## Names rendered from a row -/

/-- A piece of a template. -/
inductive IdPart : Type where
  /-- text -/
  | literal (text : String) : IdPart
  /-- a column's value -/
  | column (name : String) : IdPart
  deriving DecidableEq, Repr

/-- Literals and `{column}` placeholders. -/
structure IdTemplate : Type where
  /-- its pieces -/
  parts : List IdPart
  /-- whether every placeholder names a key column -/
  pkOnly : Bool

namespace IdTemplate

/-- The columns a template names, each once. -/
def columns (template : IdTemplate) : List String :=
  (template.parts.filterMap fun part => match part with
    | .literal _ => none
    | .column name => some name).eraseDups

/-- One piece, of a row. -/
def renderPart (fields : List (String × Json)) : IdPart → Except String String
  | .literal text => .ok text
  | .column name =>
    match Json.lookup name fields with
    | none => .error ("column " ++ name ++ " is missing from the row")
    | some .null => .error ("column " ++ name ++ " is NULL")
    | some value => .ok value.scalarDisplay

/-- `IdTemplate::render`: the name of the row a document describes. -/
def render (template : IdTemplate) : Json → Except String String
  | .obj fields => (template.parts.mapM (renderPart fields)).map String.join
  | _ => .error "id template needs a row document, not a bare value"

/-- `IdTemplate::render_from_pk`: the name, from a key alone. -/
def renderFromPk (template : IdTemplate) : Json → Except String String
  | .obj fields => template.render (.obj fields)
  | .null => .error "the key tuple is NULL"
  | scalar =>
    match template.columns with
    | [name] =>
      if template.pkOnly then template.render (.obj [(name, scalar)])
      else .error ("column " ++ name ++
        " is not part of the key, so a bare key cannot render the id")
    | columns => .error ("id template names " ++ toString columns.length ++
        " columns but the key is a single value")

end IdTemplate

/-- A lowercase letter of the ASCII alphabet. -/
def asciiLower (c : Char) : Bool :=
  'a' ≤ c && c ≤ 'z'

/-- `check_index_name`. Its last rule, on a leading underscore or dot, is behind the
first and cannot fail. -/
def checkIndexName (name : String) : Except String Unit :=
  if !(name.toList.head?.any asciiLower) then .error "must start with a lowercase letter"
  else if !(name.toList.all fun c => asciiLower c || c.isDigit || c = '_' || c = '-') then
    .error "may only contain lowercase [a-z0-9_-]"
  else .ok ()

/-- Where a table's documents go. -/
inductive IndexTarget : Type where
  /-- one index -/
  | fixed (name : String) : IndexTarget
  /-- an index that the row renders -/
  | template (spec : String) (template : IdTemplate) : IndexTarget

namespace IndexTarget

/-- A rendered name, if it is one an index may have. -/
def usable (spec : String) (rule : IdTemplate) (name : String) : Except String String :=
  match checkIndexName name with
  | .ok () => .ok name
  | .error why => .error ("the index template " ++ spec.quote ++ " rendered " ++ name.quote ++
      " from " ++ String.intercalate ", " rule.columns ++
      ", which is not a usable index name: " ++ why)

/-- `IndexTarget::render`. -/
def render (target : IndexTarget) (doc : Json) : Except String String :=
  match target with
  | .fixed name => .ok name
  | .template spec rule => (rule.render doc).bind (usable spec rule)

/-- `IndexTarget::render_from_pk`. -/
def renderFromPk (target : IndexTarget) (pk : Json) : Except String String :=
  match target with
  | .fixed name => .ok name
  | .template spec rule => (rule.renderFromPk pk).bind (usable spec rule)

/-- Whether a bare key can render this. -/
def isPkOnly : IndexTarget → Bool
  | .fixed _ => true
  | .template _ rule => rule.pkOnly

/-- `IndexTarget::pattern`: what a TRUNCATE of the table has to clear. -/
def pattern : IndexTarget → String
  | .fixed name => name
  | .template _ rule => rule.parts.foldl (fun out part => match part with
      | .literal text => out ++ text
      | .column _ => if out.toList.getLast? = some '*' then out else out ++ "*") ""

end IndexTarget

/-- What follows the leftmost occurrence of a text. -/
def afterFirst (literal : List Char) : List Char → Option (List Char)
  | [] => if literal.isPrefixOf [] then some [] else none
  | c :: rest =>
    if literal.isPrefixOf (c :: rest) then some ((c :: rest).drop literal.length)
    else afterFirst literal rest

/-- The literals after the first star: each at its leftmost occurrence, the last one
at the end. -/
def matchLiterals : List (List Char) → List Char → Bool
  | [], _ => true
  | [literal], rest => literal.isSuffixOf rest
  | literal :: next :: more, rest =>
    match afterFirst literal rest with
    | some rest => matchLiterals (next :: more) rest
    | none => false

/-- `index_matches_pattern`. -/
def indexMatchesPattern (pattern name : String) : Bool :=
  match pattern.toList.splitOn '*' with
  | [] | [_] => pattern = name
  | first :: literals =>
    first.isPrefixOf name.toList && matchLiterals literals (name.toList.drop first.length)

/-- `pk_to_id`: a key as a document id. -/
def pkToId : Json → String
  | .null => "__null__"
  | .str s => s
  | .obj fields =>
    let parts := fields.map fun f => f.1 ++ "=" ++ f.2.scalarDisplay
    String.intercalate "," (parts.insertionSort fun a b => !Json.keyBefore b a)
  | other => other.render

/-! ## One row, several documents -/

/-- The characters `str::trim` removes. -/
def isWhitespace (c : Char) : Bool :=
  let n := c.toNat
  9 ≤ n && n ≤ 13 || n = 0x20 || n = 0x85 || n = 0xA0 || n = 0x1680 || 0x2000 ≤ n && n ≤ 0x200A ||
    n = 0x2028 || n = 0x2029 || n = 0x202F || n = 0x205F || n = 0x3000

/-- `str::trim`. -/
def trim (text : List Char) : List Char :=
  ((text.dropWhile isWhitespace).reverse.dropWhile isWhitespace).reverse

/-- `str::split`, on a separator that is not empty; `piece` is what has been read of
the current one and `fuel` at least the length of the text. -/
def splitText (separator : List Char) : ℕ → List Char → List Char → List (List Char)
  | 0, piece, rest => [piece ++ rest]
  | _ + 1, piece, [] => [piece]
  | fuel + 1, piece, c :: rest =>
    if separator.isPrefixOf (c :: rest) then
      piece :: splitText separator fuel [] ((c :: rest).drop separator.length)
    else splitText separator fuel (piece ++ [c]) rest

/-- One array column and the id its element documents are filed under. -/
structure FanOut : Type where
  /-- the column -/
  field : String
  /-- the separator, where the column is a delimited string -/
  by_ : Option String
  /-- the id -/
  id : IdTemplate

/-- The pieces of a delimited string. -/
def delimited (by_ s : String) : List Json :=
  ((splitText by_.toList s.toList.length [] s.toList).map trim).filter (· ≠ [])
    |>.map fun piece => .str (String.ofList piece)

/-- One element's document: the row without the array, and the element over it. -/
def elementDoc (field : String) (parent : List (String × Json)) : Json → Json
  | .obj fields => .obj (Json.extendFields (Json.removeField field parent) fields)
  | scalar => .obj (Json.insertField field scalar (Json.removeField field parent))

/-- The element documents with their ids. -/
def FanOut.elements (rule : FanOut) (parent : List (String × Json)) (items : List Json) :
    Except String (List (String × Json)) :=
  items.mapM fun item =>
    let doc := elementDoc rule.field parent item
    (rule.id.render doc).map fun id => (id, doc)

/-- `fan_out_docs`: the documents one row expands to. -/
def FanOut.docs (rule : FanOut) (baseId : String) : Json → Except String (List (String × Json))
  | .obj parent =>
    match Json.lookup rule.field parent, rule.by_ with
    | none, _ => .ok []
    | some .null, _ => .ok [(baseId, .obj parent)]
    | some (.arr items), none => rule.elements parent items
    | some (.str s), some by_ => rule.elements parent (delimited by_ s)
    | some (.arr _), some by_ => .error ("fan_out column " ++ rule.field ++
        " holds an array, but by " ++ by_.quote ++ " splits a delimited string; remove by")
    | some _, some _ => .error ("fan_out column " ++ rule.field ++
        " is neither a string nor NULL, and by splits a string")
    | some _, none => .error ("fan_out column " ++ rule.field ++
        " is neither an array nor NULL")
  | _ => .error "fan-out needs a row document, not a bare value"

/-! ## Join fields and routing -/

/-- How a foreign key becomes the parent's document id. -/
inductive ParentId : Type where
  /-- as the parent's own key does -/
  | key : ParentId
  /-- by the parent's template -/
  | template (template : IdTemplate) : ParentId

/-- `ParentId::render`. -/
def ParentId.render : ParentId → Json → Except String String
  | .key, value => .ok (pkToId value)
  | .template rule, value => rule.renderFromPk value

/-- Where a child's parent is found. -/
structure JoinParent : Type where
  /-- the column that names it -/
  column : String
  /-- the parent's relation name -/
  name : String
  /-- the parent section's id rule -/
  id : ParentId
  /-- whether the column is part of the key -/
  keyColumn : Bool
  /-- whether the parent is the fanned element -/
  element : Bool

/-- One table's place in a join field. -/
structure JoinRule : Type where
  /-- the join field -/
  field : String
  /-- the table's relation name -/
  name : String
  /-- the parent, unset on the parent itself -/
  parent : Option JoinParent

namespace JoinRule

/-- `routing_for_doc`: the join field's value in a row's document, and the routing
the document is written under. -/
def routingForDoc (rule : JoinRule) (raw : Json) : Except String (Json × Option String) :=
  match rule.parent, raw with
  | none, _ => .ok (.str rule.name, none)
  | some parent, .obj fields =>
    match Json.lookup parent.column fields with
    | none => .error ("column " ++ parent.column ++ " is missing from the row")
    | some .null => .error ("column " ++ parent.column ++
        " is NULL, so the parent document has no name")
    | some key => (parent.id.render key).map fun parentId =>
        (.obj [("name", .str rule.name), ("parent", .str parentId)], some parentId)
  | some _, _ => .error "a join child needs a row document, not a bare value"

/-- `routing_for_key`: the routing a key-only event's document is filed under. -/
def routingForKey (rule : JoinRule) (before : Option Json) (pk : Json) :
    Except String (Option String) :=
  match rule.parent with
  | none => .ok none
  | some parent =>
    if parent.element then .error ("the parent of " ++ rule.name ++
      " is the fanned element, which a key alone does not carry")
    else match before, pk.get parent.column with
      | some before, _ => (rule.routingForDoc before).map Prod.snd
      | none, some key => (parent.id.render key).map some
      | none, none =>
        if parent.keyColumn && pk.asObject.isNone then (parent.id.render pk).map some
        else .error ("a join child's delete needs its " ++ parent.column ++
          ", but this event carries no before-image;              the table needs REPLICA " ++
          "IDENTITY FULL")

end JoinRule

/-- The column whose value decides a document's shard. -/
structure RoutingColumn : Type where
  /-- the column -/
  column : String
  /-- whether it is part of the key -/
  keyColumn : Bool

namespace RoutingColumn

/-- A routing value, unless it is empty. -/
def usable (rule : RoutingColumn) (routing : String) : Except String String :=
  if routing = "" then .error ("column " ++ rule.column ++
    " is empty, so the document has no routing")
  else .ok routing

/-- The routing that a value of the column gives. -/
def ofValue (rule : RoutingColumn) : Json → Except String String
  | .null => .error ("column " ++ rule.column ++ " is NULL, so the document has no routing")
  | value => rule.usable value.scalarDisplay

/-- `RoutingColumn::render`. -/
def render (rule : RoutingColumn) : Json → Except String String
  | .obj fields =>
    match Json.lookup rule.column fields with
    | none => .error ("column " ++ rule.column ++ " is missing from the row")
    | some value => rule.ofValue value
  | _ => .error "a routing column needs a row document, not a bare value"

/-- `RoutingColumn::render_from_key`. -/
def renderFromKey (rule : RoutingColumn) (before : Option Json) (pk : Json) :
    Except String String :=
  match before, pk.get rule.column with
  | some before, _ => rule.render before
  | none, some value => rule.ofValue value
  | none, none =>
    if rule.keyColumn && pk.asObject.isNone then rule.usable pk.scalarDisplay
    else .error ("a routed row's delete needs its " ++ rule.column ++
      ", but this event carries no before-image; the table needs REPLICA IDENTITY FULL")

end RoutingColumn

/-! ## The rules together -/

/-- The per-table rules. -/
structure Rules : Type where
  /-- which columns are kept -/
  projections : TableName → Option Projection
  /-- how values are reshaped -/
  transforms : TableName → Option TransformRules
  /-- how fields are renamed -/
  renames : TableName → Option Rename
  /-- which children are lifted -/
  flattens : TableName → Option (List String)
  /-- which fields come from no column -/
  constants : TableName → Option (List (String × Json))
  /-- the document ids -/
  idTemplates : TableName → Option IdTemplate
  /-- which rows are several documents -/
  fanOuts : TableName → Option FanOut
  /-- the join fields -/
  joins : TableName → Option JoinRule
  /-- which rows are documents at all -/
  filters : TableName → Option (Json → Bool)
  /-- the ingest pipelines -/
  pipelines : TableName → Option String
  /-- the routing columns -/
  routings : TableName → Option RoutingColumn
  /-- which tables are append-only -/
  appendOnly : TableName → Bool
  /-- the id of a row that has no key, a hash of its content -/
  contentId : Json → String

/-- The rules of sections that name nothing but their tables. -/
def Rules.bare : Rules where
  projections _ := none
  transforms _ := none
  renames _ := none
  flattens _ := none
  constants _ := none
  idTemplates _ := none
  fanOuts _ := none
  joins _ := none
  filters _ := none
  pipelines _ := none
  routings _ := none
  appendOnly _ := false
  contentId := Json.render

/-- Where each table's documents go, and which indices several tables write. -/
structure TableMapping : Type where
  /-- the targets -/
  targets : List (TableName × IndexTarget)

namespace TableMapping

/-- `target_for`: of two entries for a table the later one holds. -/
def targetFor (mapping : TableMapping) (table : TableName) : Option IndexTarget :=
  (mapping.targets.reverse.find? fun t => t.1 = table).map Prod.snd

/-- The fixed indices, once for each table. -/
def fixedNames (mapping : TableMapping) : List String :=
  mapping.targets.filterMap fun t => match t.2 with
    | .fixed name => some name
    | .template _ _ => none

/-- `is_shared`: more than one table writes to the index. -/
def isShared (mapping : TableMapping) (index : String) : Bool :=
  1 < mapping.fixedNames.count index

end TableMapping

end Pg2osync
