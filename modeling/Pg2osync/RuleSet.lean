import Pg2osync.LoadProgress
import Pg2osync.Validate

/-!
# From the sections to the rules

The engine looks its rules up by table. Every kind of rule is collected from the
sections into a map of its own, in which a later section of a table takes the place of
an earlier one, and the loader keeps one progress document for each table. A section
has what it declares where no other section names its table, and is read where no
other one's progress document is its own.

What a transform's operation computes, and how the key ring and a keyless row's
content make it depend on the environment, is a parameter.
-/

namespace Pg2osync

namespace Config

/-! ## Maps by table -/

/-- A `HashMap` of the pairs: the last value of a key holds. -/
def fromPairs {κ α : Type} [DecidableEq κ] (pairs : List (κ × α)) (key : κ) : Option α :=
  (pairs.reverse.find? fun p => p.1 = key).map Prod.snd

/-- One kind of rule of the sections that declare one, by table. -/
def collect {α : Type} (rule : String → TableSync → Except String (Option α))
    (sync : Dictionary String TableSync) : Except String (TableName → Option α) :=
  (sync.entries.mapM fun e => (rule e.1 e.2).map fun value =>
    value.map fun a => (splitQualified e.2.table, a)).map fun found => fromPairs found.reduceOption

/-- The error of a rule, with what it is about in front. -/
def orBail {α : Type} (context : String) : Except String α → Except String α
  | .ok a => .ok a
  | .error e => .error (context ++ e)

theorem orBail_ok {α : Type} {context : String} {x : Except String α} {a : α}
    (h : orBail context x = .ok a) : x = .ok a := by
  rcases x with e | b
  · cases h
  · exact h

/-! ## The rules of one section -/

/-- `pk_columns_for`. -/
def pkColumnsFor (tbl : TableSync) : List String :=
  if tbl.appendOnly then [] else [tbl.primaryKey.getD "id"]

/-- The rule of `projections`. -/
def projectionRule (_ : String) (tbl : TableSync) : Except String (Option Projection) :=
  .ok (match tbl.columns, tbl.excludeColumns with
    | some cols, _ => some (.include_ cols)
    | none, [] => none
    | none, excluded => some (.exclude excluded))

/-- The rule of `transforms`. -/
def transformRule (interpret : TransformOp → Except String (Json → Applied)) (key : String)
    (tbl : TableSync) : Except String (Option TransformRules) :=
  if tbl.transform.isEmpty then .ok none
  else
    (tbl.transform.entries.mapM fun e =>
      (orBail (at_ key ".transform" ++ e.1 ++ ": ") (TransformSpec.parse e.2)).bind fun op =>
        (interpret op).map fun apply => (e.1, apply)).map some

/-- The rule of `renames`. -/
def renameRule (_ : String) (tbl : TableSync) : Except String (Option Rename) :=
  let nested := (tbl.children.filter fun child => !child.fields.isEmpty).map fun child =>
    (child.field, child.fields.entries)
  .ok (if tbl.fields.isEmpty && nested.isEmpty then none else some ⟨tbl.fields.entries, nested⟩)

/-- The rule of `flattens`. -/
def flattenRule (_ : String) (tbl : TableSync) : Except String (Option (List String)) :=
  let fields := (tbl.children.filter (·.flatten)).map ChildJoin.field
  .ok (if fields = [] then none else some fields)

/-- The rule of `constants`. -/
def constantRule (key : String) (tbl : TableSync) :
    Except String (Option (List (String × Json))) :=
  let (schema, table) := splitQualified tbl.table
  if tbl.constants.isEmpty then .ok none
  else
    (tbl.constants.entries.mapM fun e =>
      (orBail (at_ key ".constants" ++ e.1 ++ ": ") (Constant.render schema table e.2)).map
        fun rendered => (e.1, rendered)).map some

/-- The rule of `id_templates`. -/
def idRule (key : String) (tbl : TableSync) : Except String (Option IdTemplate) :=
  match tbl.id with
  | none => .ok none
  | some spec => (orBail (at_ key "" ++ "id " ++ spec.quote ++ " is not a usable id: ")
      (IdTemplate.parse spec (pkColumnsFor tbl))).map some

/-- The rule of `fan_outs`. -/
def fanOutRule (key : String) (tbl : TableSync) : Except String (Option Pg2osync.FanOut) :=
  match tbl.fanOut with
  | none => .ok none
  | some fan => (orBail (at_ key ".fan_out" ++ "id " ++ fan.id.quote ++ " is not a usable id: ")
      (IdTemplate.parse fan.id [])).map fun id => some ⟨fan.field, fan.by_, id⟩

/-- The parent section of an index: the first one whose join names no parent. -/
def parentOf (sync : Dictionary String TableSync) (index : String) :
    Option (String × TableSync × JoinSpec) :=
  sync.entries.findSome? fun (key, tbl) =>
    match tbl.join with
    | some join =>
      if tbl.indexName key = index ∧ join.parent = none then some (key, tbl, join) else none
    | none => none

/-- How a child renders its parent's id. -/
def parentIdRule (key : String) (tbl : TableSync) : Except String Pg2osync.ParentId :=
  match tbl.id with
  | none => .ok .key
  | some spec => (orBail (at_ key "" ++ "id " ++ spec.quote ++ " is not a usable id: ")
      (IdTemplate.parse spec (pkColumnsFor tbl))).map .template

/-- The rule of `joins`: a child's carries its parent section's relation name and id. -/
def joinRule (sync : Dictionary String TableSync) (key : String) (tbl : TableSync) :
    Except String (Option JoinRule) :=
  match tbl.join with
  | none => .ok none
  | some join =>
    match join.parentColumn tbl.fanOut with
    | none => .ok (some ⟨join.field, join.name, none⟩)
    | some column =>
      match parentOf sync (tbl.indexName key) with
      | none => .error (at_ key "" ++ "join names a parent through " ++ column ++
          ", but no other [sync.*] section writes index " ++ (tbl.indexName key).quote ++
          " as its parent")
      | some (parentKey, parent, parentJoin) =>
        (parentIdRule parentKey parent).map fun id => some ⟨join.field, join.name,
          some ⟨column, parentJoin.name, id,
            !join.isElementParent && (pkColumnsFor tbl).contains column, join.isElementParent⟩⟩

/-- The rule of `table_filters`. -/
def filterRule (key : String) (tbl : TableSync) : Except String (Option Filter) :=
  match tbl.filter with
  | none => .ok none
  | some spec => (orBail (at_ key "" ++ "where " ++ spec.quote ++ ": ") (Filter.parse spec)).map some

/-- The rule of `pipelines`. -/
def pipelineRule (_ : String) (tbl : TableSync) : Except String (Option String) :=
  .ok tbl.pipeline

/-- The rule of `routings`. -/
def routingRule (_ : String) (tbl : TableSync) : Except String (Option RoutingColumn) :=
  .ok (tbl.routing.map fun column => ⟨column, (pkColumnsFor tbl).contains column⟩)

/-- The rule of `append_only_tables`. -/
def appendOnlyRule (_ : String) (tbl : TableSync) : Except String (Option Unit) :=
  .ok (if tbl.appendOnly then some () else none)

/-! ## The rules together -/

/-- The rules as the engine looks them up, and the targets in section order. -/
structure RuleSet : Type where
  mapping : TableMapping
  rules : Rules

/-- `table_mapping`. -/
def tableMapping (sync : Dictionary String TableSync) : Except String TableMapping :=
  (sync.entries.mapM fun e =>
    (orBail (at_ e.1 "") (TableSync.indexTarget e.2 e.1 (pkColumnsFor e.2))).map fun target =>
      (splitQualified e.2.table, target)).map TableMapping.mk

/-- `rule_set`. -/
def ruleSet (interpret : TransformOp → Except String (Json → Applied)) (contentId : Json → String)
    (cfg : AppConfig) : Except String RuleSet := do
  let mapping ← tableMapping cfg.sync
  let projections ← collect projectionRule cfg.sync
  let transforms ← collect (transformRule interpret) cfg.sync
  let renames ← collect renameRule cfg.sync
  let flattens ← collect flattenRule cfg.sync
  let constants ← collect constantRule cfg.sync
  let idTemplates ← collect idRule cfg.sync
  let fanOuts ← collect fanOutRule cfg.sync
  let joins ← collect (joinRule cfg.sync) cfg.sync
  let filters ← collect filterRule cfg.sync
  let pipelines ← collect pipelineRule cfg.sync
  let routings ← collect routingRule cfg.sync
  let appendOnly ← collect appendOnlyRule cfg.sync
  return ⟨mapping, {
    projections, transforms, renames, flattens, constants, idTemplates, fanOuts, joins
    filters := fun table => (filters table).map Filter.isMatch
    pipelines, routings
    appendOnly := fun table => (appendOnly table).isSome
    contentId }⟩

/-- One spec for each index. -/
structure IndexSpec : Type where
  name : String
  mapping : Option Json
  /-- whether the name is a glob -/
  pattern : Bool
  deriving DecidableEq

/-- One section's part in `index_specs`: an index already there takes the section's
mapping if it has none. -/
def addSpec (name : String) (mapping : Option Json) (pattern : Bool) :
    List IndexSpec → List IndexSpec
  | [] => [⟨name, mapping, pattern⟩]
  | spec :: rest =>
    if spec.name = name then { spec with mapping := spec.mapping <|> mapping } :: rest
    else spec :: addSpec name mapping pattern rest

/-- `index_specs`. -/
def indexSpecs (sync : Dictionary String TableSync) : Except String (List IndexSpec) :=
  sync.entries.foldlM (fun specs e =>
    (orBail (at_ e.1 "") (TableSync.indexTarget e.2 e.1 (pkColumnsFor e.2))).map fun target =>
      match target with
      | .fixed name => addSpec name e.2.mapping false specs
      | .template _ _ => addSpec target.pattern e.2.mapping true specs) []

/-- `index_names`. -/
def indexNames (sync : Dictionary String TableSync) : Except String (List String) :=
  (indexSpecs sync).map fun specs => specs.map IndexSpec.name

/-- `fixed_index_names`: the indices whose settings an initial load may relax. -/
def fixedIndexNames (sync : Dictionary String TableSync) : Except String (List String) :=
  (indexSpecs sync).map fun specs => (specs.filter fun spec => !spec.pattern).map IndexSpec.name

/-- `stream_id`. -/
def streamId (cfg : AppConfig) : StreamId :=
  if cfg.source.flavor = "mysql" then ⟨"mysql", toString cfg.source.serverId, ""⟩
  else ⟨"postgres", cfg.source.slotName, cfg.source.publication⟩

end Config

end Pg2osync
