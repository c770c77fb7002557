import Pg2osync.Filtered
import Pg2osync.Template

/-!
# The documents mirror the table

Where the events' keys tell the names that the rows themselves have, every live row
has its one document, at its own place, and no operation removes a live row's
document on the way.

A name depends on the columns it is rendered from and on nothing else, and the
columns that an update leaves out are none of these.
-/

namespace Pg2osync

open KeyedTable Json

/-! ## A name depends on its columns -/

theorem List.mapM_except_congr {α β ε : Type} {f g : α → Except ε β} {l : List α}
    (h : ∀ x ∈ l, f x = g x) : l.mapM f = l.mapM g := by
  induction l with
  | nil => rfl
  | cons x rest ih =>
    rw [List.mapM_cons, List.mapM_cons, h x List.mem_cons_self,
      ih fun y hy => h y (List.mem_cons_of_mem x hy)]

variable {a b : Row}

theorem IdTemplate.render_congr {template : IdTemplate}
    (h : ∀ column ∈ template.columns, lookup column a = lookup column b) :
    template.render (.obj a) = template.render (.obj b) := by
  have hparts : ∀ part ∈ template.parts, renderPart a part = renderPart b part := by
    intro part hpart
    cases part with
    | literal text => rfl
    | column name => rw [renderPart, renderPart, h name (mem_columns.mpr hpart)]
  rw [render, render, List.mapM_except_congr hparts]

theorem IndexTarget.render_congr {target : IndexTarget}
    (h : ∀ spec template, target = .template spec template →
      ∀ column ∈ template.columns, lookup column a = lookup column b) :
    target.render (.obj a) = target.render (.obj b) := by
  cases target with
  | fixed name => rfl
  | template spec template =>
    rw [IndexTarget.render, IndexTarget.render, IdTemplate.render_congr (h spec template rfl)]

theorem JoinRule.routingForDoc_congr {join : JoinRule} (h : ∀ parent, join.parent = some parent →
      lookup parent.column a = lookup parent.column b) :
    join.routingForDoc (.obj a) = join.routingForDoc (.obj b) := by
  cases hparent : join.parent with
  | none => simp only [JoinRule.routingForDoc, hparent]
  | some parent => simp only [JoinRule.routingForDoc, hparent, h parent hparent]

variable {rule : RoutingColumn}

theorem RoutingColumn.render_congr (h : lookup rule.column a = lookup rule.column b) :
    rule.render (.obj a) = rule.render (.obj b) := by
  rw [RoutingColumn.render, RoutingColumn.render, h]

namespace KeyedTable

variable {t : KeyedTable} {column : String}

theorem mem_namingColumns_id {template : IdTemplate}
    (h : t.rules.idTemplates t.table = some template) (hcolumn : column ∈ template.columns) :
    column ∈ t.namingColumns := by
  simp only [namingColumns, h, List.mem_append]
  exact .inl (.inl (.inl hcolumn))

theorem mem_namingColumns_index {spec : String} {template : IdTemplate}
    (h : t.target = .template spec template) (hcolumn : column ∈ template.columns) :
    column ∈ t.namingColumns := by
  simp only [namingColumns, indexTemplate, h, List.mem_append]
  exact .inl (.inl (.inr hcolumn))

theorem mem_namingColumns_parent {join : JoinRule} {parent : JoinParent}
    (h : t.rules.joins t.table = some join) (hparent : join.parent = some parent) :
    parent.column ∈ t.namingColumns := by
  simp [namingColumns, joinParent, h, hparent]

theorem mem_namingColumns_routing (h : t.rules.routings t.table = some rule) :
    rule.column ∈ t.namingColumns := by
  simp [namingColumns, h]

/-- Two rows that agree on what names them. -/
def Agree (t : KeyedTable) (a b : Row) : Prop :=
  ∀ column ∈ t.namingColumns, Json.lookup column a = Json.lookup column b

theorem Agree.index (h : t.Agree a b) : t.target.render (.obj a) = t.target.render (.obj b) :=
  IndexTarget.render_congr fun _ _ htarget column hcolumn =>
    h column (mem_namingColumns_index htarget hcolumn)

theorem Agree.template (h : t.Agree a b) {template : IdTemplate}
    (htemplate : t.rules.idTemplates t.table = some template) :
    template.render (.obj a) = template.render (.obj b) :=
  IdTemplate.render_congr fun column hcolumn => h column (mem_namingColumns_id htemplate hcolumn)

theorem Agree.join (h : t.Agree a b) {join : JoinRule} (hjoin : t.rules.joins t.table = some join) :
    join.routingForDoc (.obj a) = join.routingForDoc (.obj b) :=
  JoinRule.routingForDoc_congr fun _ hparent => h _ (mem_namingColumns_parent hjoin hparent)

theorem Agree.routing (h : t.Agree a b) (hrule : t.rules.routings t.table = some rule) :
    rule.render (.obj a) = rule.render (.obj b) :=
  RoutingColumn.render_congr (h _ (mem_namingColumns_routing hrule))

/-! ## The completed row agrees with the row -/

theorem lookup_leaveOut {columns : List String} (h : column ∉ columns) (row : Row) :
    lookup column (leaveOut columns row) = lookup column row := by
  induction row with
  | nil => rfl
  | cons f rest ih =>
    obtain ⟨name, value⟩ := f
    rw [leaveOut, List.map_cons]
    by_cases hname : name = column
    · subst hname
      simp [lookup, h]
    · split
      · rw [lookup, if_neg hname, lookup, if_neg hname]
        exact ih
      · rw [lookup, if_neg hname, lookup, if_neg hname]
        exact ih

theorem lookup_completeColumns {rename : Option Rename} {stored : List (String × Json)}
    {columns : List String} (h : column ∉ columns) (acc : List (String × Json) × List String) :
    lookup column (columns.foldl (completeColumn rename stored) acc).1 =
      lookup column acc.1 := by
  induction columns generalizing acc with
  | nil => rfl
  | cons c rest ih =>
    rw [List.foldl_cons, ih fun hmem => h (List.mem_cons_of_mem c hmem)]
    have hne : column ≠ c := fun heq => h (heq ▸ List.mem_cons_self)
    unfold completeColumn
    split
    · exact lookup_insertField_ne hne _ _
    · rfl

/-- The completed row is an object that differs from the row in columns that were left
out. -/
theorem completeToast_obj (fields : Row) (unchanged : List String) (previous : Option Json)
    (rules : Rules) (table : TableName) :
    ∃ row, (completeToast (.obj fields) unchanged previous rules table).1 = .obj row ∧
      ∀ column, column ∉ unchanged → lookup column row = lookup column fields := by
  unfold completeToast
  split
  · next stored fields' _ heq =>
    cases heq
    exact ⟨_, rfl, fun column hcolumn => lookup_completeColumns hcolumn _⟩
  · exact ⟨fields, rfl, fun _ _ => rfl⟩

/-! ## What an event is materialised to -/

variable {key : DocKey} {row : Row}

theorem keyOf_eq_ok (h : t.keyOf row = .ok key) :
    t.target.render (.obj row) = .ok key.index ∧ t.idOf row = .ok key.id ∧
      t.routingOf row = .ok key.routing := by
  obtain ⟨index, hindex, h⟩ := Except.bind_eq_ok h
  obtain ⟨id, hid, h⟩ := Except.bind_eq_ok h
  obtain ⟨routing, hrouting, rfl⟩ := Except.map_eq_ok h
  exact ⟨hindex, hid, hrouting⟩

theorem halt_ok {α : Type} {table : TableName} {result : Except String α} {a : α}
    (h : result = .ok a) : halt table result = .ok a := by
  rw [h]
  rfl

theorem place_eq {rules : Rules} {table : TableName} (hfan : rules.fanOuts table = none)
    (base : String) (raw : Json) :
    place rules table base raw = (placeOne rules table raw base raw).map fun placed => [placed] := by
  unfold place
  rw [hfan]
  cases hone : placeOne rules table raw base raw <;>
    simp [List.mapM_cons, hone, bind, Except.bind, Except.map, pure, Except.pure]

variable {d row : Row}

/-- The document of a row that agrees with another is filed like the other's. -/
theorem placeOne_ok (hagree : t.Agree d row) (id : String) {routing : Option String}
    (hrouting : t.routingOf row = .ok routing) :
    ∃ placed, placeOne t.rules t.table (.obj d) id (.obj d) = .ok placed ∧ placed.id = id ∧
      placed.routing = routing ∧ placed.doc = .obj d ∧
      ∀ join, t.rules.joins t.table = some join → join.parent = none →
        placed.filed = some (.str join.name, none) := by
  unfold placeOne
  unfold routingOf at hrouting
  cases hjoin : t.rules.joins t.table with
  | some join =>
    simp only [hjoin] at hrouting ⊢
    rw [hagree.join hjoin]
    obtain ⟨filed, hfiled, hrouted⟩ := Except.map_eq_ok hrouting
    rw [hfiled]
    refine ⟨⟨id, .obj d, some filed, filed.2⟩, rfl, rfl, hrouted, rfl, ?_⟩
    rintro other ⟨⟩ hparent
    simp only [JoinRule.routingForDoc, hparent] at hfiled
    exact congrArg some (Except.ok.inj hfiled).symm
  | none =>
    simp only [hjoin] at hrouting ⊢
    cases hrule : t.rules.routings t.table with
    | none =>
      simp only [hrule] at hrouting ⊢
      exact ⟨⟨id, .obj d, none, none⟩, rfl, rfl, Except.ok.inj hrouting, rfl, fun _ hcase => by cases hcase⟩
    | some rule =>
      simp only [hrule] at hrouting ⊢
      rw [hagree.routing hrule]
      obtain ⟨value, hvalue, hrouted⟩ := Except.map_eq_ok hrouting
      rw [hvalue]
      exact ⟨⟨id, .obj d, none, some value⟩, rfl, rfl, hrouted, rfl, fun _ hcase => by cases hcase⟩

variable {pk : Json} {before : Option Json}

theorem derivedId_of_doc (hagree : t.Agree d row) {id : String} (hid : t.idOf row = .ok id)
    (hcontent : t.rules.appendOnly t.table = true → d = row)
    (hpk : t.rules.appendOnly t.table = false → t.extractPk row = some pk) :
    derivedId t.table pk (some (.obj d)) before t.rules = .ok id := by
  unfold derivedId
  unfold idOf at hid
  cases htemplate : t.rules.idTemplates t.table with
  | some template =>
    simp only [htemplate] at hid ⊢
    rw [← hagree.template htemplate] at hid
    exact halt_ok hid
  | none =>
    simp only [htemplate] at hid ⊢
    cases happend : t.rules.appendOnly t.table with
    | true =>
      simp only [happend, if_true] at hid
      obtain rfl := hcontent happend
      simpa using hid
    | false =>
      simpa [happend, hpk happend] using hid

theorem renderedIndex_of_doc (hagree : t.Agree d row) {index : String}
    (hindex : t.target.render (.obj row) = .ok index) :
    renderedIndex t.target t.table pk (some (.obj d)) before = .ok index := by
  rw [← hagree.index] at hindex
  exact halt_ok hindex

/-- A section of one document a row, whose rows are all documents. -/
def Plain (t : KeyedTable) : Prop :=
  t.rules.fanOuts t.table = none ∧ t.rules.filters t.table = none

theorem Plain.matchesRow (h : t.Plain) (row : Row) : t.matchesRow row = true := by
  simp [KeyedTable.matchesRow, h.2]

/-- The write of a row under its key. -/
def writeOf (t : KeyedTable) (key : DocKey) (version : Option ℕ) (shaped : List String)
    (placed : Placed) : DocumentOp :=
  .upsert key.index key.id key.routing (shapeDoc t.rules t.table shaped placed).1 version
    (t.rules.pipelines t.table)

/-- The removal of what is under a key. -/
def removalOf (key : DocKey) (version : Option ℕ) : DocumentOp :=
  .delete key.index key.id key.routing version

/-- What an update is materialised to, once its row is complete and what it replaces is
known. -/
theorem materializeUpdate_ok (hfan : t.rules.fanOuts t.table = none) (hagree : t.Agree d row)
    {key oldKey : DocKey} (hkey : t.keyOf row = .ok key)
    (happend : t.rules.appendOnly t.table = false) (hpk : t.extractPk row = some pk)
    {previousPk before : Option Json} (completed : List String) (version : Option ℕ)
    (hindex : oldIndex t.target (previousPk.getD pk) before key.index = oldKey.index)
    (hid : oldId t.rules t.table previousPk before key.id = oldKey.id)
    (hrouting : keyRouting t.rules t.table before (previousPk.getD pk) = .ok oldKey.routing) :
    ∃ placed left, placeOne t.rules t.table (.obj d) key.id (.obj d) = .ok placed ∧
      materializeUpdate t.rules t.table version t.target pk previousPk (.obj d) completed before =
        .ok (t.writeOf key version completed placed ::
          (if oldKey ≠ key then [removalOf oldKey version] else []), left) := by
  obtain ⟨hkeyIndex, hkeyId, hkeyRouting⟩ := keyOf_eq_ok hkey
  obtain ⟨placed, hplaced, hplacedId, hplacedRouting, -, -⟩ :=
    placeOne_ok hagree key.id hkeyRouting
  have hmoved : ((oldKey.index, oldKey.id, oldKey.routing) ≠ (key.index, key.id, key.routing)) ↔
      oldKey ≠ key := by
    obtain ⟨_, _, _⟩ := oldKey
    obtain ⟨_, _, _⟩ := key
    simp
  refine ⟨placed, (shapeDoc t.rules t.table completed placed).2, hplaced, ?_⟩
  unfold materializeUpdate
  rw [derivedId_of_doc hagree hkeyId (fun h => absurd h (by simp [happend])) fun _ => hpk,
    renderedIndex_of_doc hagree hkeyIndex]
  simp only [bind, Except.bind, place_eq hfan, hplaced, Except.map, updateRemovals, hfan,
    movedRemoval, List.head?_cons, Option.bind_some, hplacedRouting, hindex, hid, hrouting]
  simp only [pure, Except.pure, finishDocs, List.map_cons, List.map_nil, List.flatMap_cons,
    List.flatMap_nil, List.append_nil, hplacedId, hplacedRouting, List.singleton_append]
  simp only [hmoved]
  rfl

/-- What a join parent's removal cascades to. -/
def cascadeOf (t : KeyedTable) (key : DocKey) (version : Option ℕ) : List DocumentOp :=
  match t.rules.joins t.table with
  | some ⟨field, name, none⟩ => [.deleteChildren key.index field name key.id version]
  | _ => []

/-- What a delete is materialised to, once the names of the row are known. -/
theorem materializeDelete_ok (hfan : t.rules.fanOuts t.table = none) (version : Option ℕ)
    (hid : derivedId t.table pk none before t.rules = .ok key.id)
    (hindex : renderedIndex t.target t.table pk none before = .ok key.index)
    (hrouting : keyRouting t.rules t.table before pk = .ok key.routing) :
    materializeDelete t.rules t.table version t.target pk before =
      .ok (removalOf key version :: t.cascadeOf key version) := by
  unfold materializeDelete
  rw [hid, hindex]
  simp only [bind, Except.bind, hfan, hrouting]
  rfl

theorem filterOut_matches (hmatches : t.matchesRow row = true) (pk : Json) :
    filterOut (.insert pk (.obj row)) none (t.rules.filters t.table) = .insert pk (.obj row) := by
  unfold matchesRow at hmatches
  cases hfilter : t.rules.filters t.table with
  | none => rfl
  | some filter =>
    rw [hfilter, Option.all_some] at hmatches
    simp [filterOut, hmatches]

/-- What the insert of a row that matches is materialised to. -/
theorem materialize_insert (hfan : t.rules.fanOuts t.table = none)
    (hmatches : t.matchesRow row = true) (hkey : t.keyOf row = .ok key)
    (hpk : t.rules.appendOnly t.table = false → t.extractPk row = some pk) (previous : Option Json)
    (version : Option ℕ) :
    ∃ placed left, placeOne t.rules t.table (.obj row) key.id (.obj row) = .ok placed ∧
      materialize t.target t.table (.insert pk (.obj row)) t.rules previous version =
        .ok ([t.writeOf key version [] placed], left) := by
  obtain ⟨hkeyIndex, hkeyId, hkeyRouting⟩ := keyOf_eq_ok hkey
  have hagree : t.Agree row row := fun _ _ => rfl
  obtain ⟨placed, hplaced, hplacedId, hplacedRouting, -, -⟩ :=
    placeOne_ok hagree key.id hkeyRouting
  refine ⟨placed, (shapeDoc t.rules t.table [] placed).2, hplaced, ?_⟩
  simp only [materialize, refusedOnAppendOnly, completion, Option.map_none,
    filterOut_matches hmatches, derivedId_of_doc hagree hkeyId (fun _ => rfl) hpk,
    renderedIndex_of_doc hagree hkeyIndex, bind, Except.bind, place_eq hfan, hplaced, Except.map]
  simp [pure, Except.pure, finishDocs, writeOf, hplacedId, hplacedRouting]

/-! ## The names of a row that was replaced or is gone -/

/-- What arrives of an old row. -/
def beforeOf (t : KeyedTable) (old : Row) : Option Json :=
  if t.full then some (.obj old) else none

theorem namingColumns_inBothKeys (hcheck : t.startupCheck = true)
    (happend : t.rules.appendOnly t.table = false) (hfull : t.full = false)
    (hcolumn : column ∈ t.namingColumns) :
    t.catalogKey.contains column = true ∧ t.pkColumns.contains column = true := by
  simp only [startupCheck, happend, hfull, Bool.false_or, List.all_eq_true] at hcheck
  have hboth := hcheck column hcolumn
  rwa [inBothKeys, Bool.and_eq_true] at hboth

theorem pkOnly_id (hdeclared : t.declared = true) (hcheck : t.startupCheck = true)
    (happend : t.rules.appendOnly t.table = false) (hfull : t.full = false) {template : IdTemplate}
    (htemplate : t.rules.idTemplates t.table = some template) : template.pkOnly = true := by
  simp only [declared, htemplate, Option.all_some, Bool.and_eq_true, decide_eq_true_eq] at hdeclared
  rw [hdeclared.1.1.1, List.all_eq_true]
  exact fun column hcolumn =>
    (namingColumns_inBothKeys hcheck happend hfull (mem_namingColumns_id htemplate hcolumn)).2

theorem pkOnly_index (hdeclared : t.declared = true) (hcheck : t.startupCheck = true)
    (happend : t.rules.appendOnly t.table = false) (hfull : t.full = false) :
    t.target.isPkOnly = true := by
  cases htarget : t.target with
  | fixed name => rfl
  | template spec template =>
    simp only [declared, indexTemplate, htarget, Option.all_some, Bool.and_eq_true,
      decide_eq_true_eq] at hdeclared
    rw [IndexTarget.isPkOnly, hdeclared.1.1.2, List.all_eq_true]
    exact fun column hcolumn =>
      (namingColumns_inBothKeys hcheck happend hfull (mem_namingColumns_index htarget hcolumn)).2

theorem element_eq_false (hdeclared : t.declared = true) {join : JoinRule} {parent : JoinParent}
    (hjoin : t.rules.joins t.table = some join) (hparent : join.parent = some parent) :
    parent.element = false := by
  simp only [declared, joinParent, hjoin, Option.bind_some, hparent, Option.all_some,
    Bool.and_eq_true, Bool.not_eq_true'] at hdeclared
  exact hdeclared.1.2.1

/-- Whatever names a row also names a before-image of it. -/
theorem keyRouting_of_before (hdeclared : t.declared = true) {d : Row} {routing : Option String}
    (hrouting : t.routingOf d = .ok routing) (pk : Json) :
    keyRouting t.rules t.table (some (.obj d)) pk = .ok routing := by
  unfold keyRouting
  unfold routingOf at hrouting
  cases hjoin : t.rules.joins t.table with
  | some join =>
    simp only [hjoin] at hrouting ⊢
    refine halt_ok ?_
    cases hparent : join.parent with
    | none =>
      simp only [JoinRule.routingForDoc, hparent] at hrouting
      simp only [JoinRule.routingForKey, hparent]
      exact hrouting
    | some parent =>
      simp [JoinRule.routingForKey, hparent, element_eq_false hdeclared hjoin hparent, hrouting]
  | none =>
    simp only [hjoin] at hrouting ⊢
    cases hrule : t.rules.routings t.table with
    | none =>
      simp only [hrule] at hrouting ⊢
      rw [Except.ok.inj hrouting]
    | some rule =>
      simp only [hrule] at hrouting ⊢
      exact halt_ok (by simpa [RoutingColumn.renderFromKey] using hrouting)

variable {old : Row}

/-- The routing of an old row, from the row or from its key. -/
theorem keyRouting_ok (hdeclared : t.declared = true) (hpk : t.extractPk old = some pk)
    (htells : t.full = true ∨ t.tellsRouting old = true) {routing : Option String}
    (hrouting : t.routingOf old = .ok routing) :
    keyRouting t.rules t.table (t.beforeOf old) pk = .ok routing := by
  unfold beforeOf
  split
  · exact keyRouting_of_before hdeclared hrouting pk
  · next hfull =>
    have htold := htells.resolve_left hfull
    unfold keyRouting
    unfold routingOf at hrouting
    cases hjoin : t.rules.joins t.table with
    | some join =>
      simp only [tellsRouting, hpk, Option.all_some, hjoin, decide_eq_true_eq] at htold hrouting ⊢
      exact halt_ok (htold.trans hrouting)
    | none =>
      cases hrule : t.rules.routings t.table with
      | none =>
        simp only [hjoin, hrule] at hrouting ⊢
        rw [Except.ok.inj hrouting]
      | some rule =>
        simp only [tellsRouting, hpk, Option.all_some, hjoin, hrule, decide_eq_true_eq]
          at htold hrouting ⊢
        exact halt_ok (by rw [htold, hrouting])

section

variable (hdeclared : t.declared = true) (hcheck : t.startupCheck = true)
  (happend : t.rules.appendOnly t.table = false) {old : Row} {key : DocKey}
  (hkey : t.keyOf old = .ok key) {pk : Json} (hpk : t.extractPk old = some pk)
include hdeclared hcheck happend hkey hpk

theorem oldIndex_ok (htells : t.full = true ∨ t.tellsIndex old = true) (index : String) :
    oldIndex t.target pk (t.beforeOf old) index = key.index := by
  have hindex := (keyOf_eq_ok hkey).1
  cases hfull : t.full with
  | true => simp [oldIndex, beforeOf, hfull, hindex, Except.toOption]
  | false =>
    have htold := htells.resolve_left (by simp [hfull])
    simp only [tellsIndex, hpk, Option.all_some, decide_eq_true_eq] at htold
    simp [oldIndex, beforeOf, hfull, pkOnly_index hdeclared hcheck happend hfull, htold, hindex,
      Except.toOption]

theorem oldId_ok (htells : t.tellsId old = true) {newKey : DocKey} (hnew : t.keyOf row = .ok newKey)
    {newPk : Json} (hnewPk : t.extractPk row = some newPk) {keySent : Bool}
    (hsent : keySent = true ∨ pk = newPk) (htellsNew : keySent = true ∨ t.tellsId row = true) :
    oldId t.rules t.table (if keySent then some pk else none) (t.beforeOf old) newKey.id =
      key.id := by
  have hid := (keyOf_eq_ok hkey).2.1
  have hnewId := (keyOf_eq_ok hnew).2.1
  unfold oldId
  unfold idOf at hid hnewId
  cases htemplate : t.rules.idTemplates t.table with
  | none =>
    simp only [htemplate, happend, Bool.false_eq_true, if_false, hpk, hnewPk, Option.elim_some,
      Except.ok.injEq] at hid hnewId
    cases keySent with
    | true => simpa using hid
    | false =>
      obtain rfl := hsent.resolve_left (by simp)
      simp [← hid, ← hnewId]
  | some template =>
    simp only [htemplate] at hid hnewId
    cases hpkOnly : template.pkOnly with
    | true =>
      simp only [tellsId, htemplate, Option.all_some, hpkOnly, Bool.not_true, Bool.false_or, hpk,
        decide_eq_true_eq] at htells
      cases keySent with
      | true => simp [hpkOnly, htells, hid, Except.toOption]
      | false =>
        -- the key did not change, so neither did what is rendered from it
        obtain rfl := hsent.resolve_left (by simp)
        have htold := htellsNew.resolve_left (by simp)
        simp only [tellsId, htemplate, Option.all_some, hpkOnly, Bool.not_true, Bool.false_or,
          hnewPk, decide_eq_true_eq] at htold
        rw [← htells, htold, hnewId] at hid
        simpa [hpkOnly] using Except.ok.inj hid
    | false =>
      -- then the old row arrives
      have hfull : t.full = true := by
        by_contra hfull
        rw [Bool.not_eq_true] at hfull
        rw [pkOnly_id hdeclared hcheck happend hfull htemplate] at hpkOnly
        cases hpkOnly
      simp [hpkOnly, beforeOf, hfull, hid, Except.toOption]

theorem derivedId_gone (htells : t.full = true ∨ t.tellsId old = true) :
    derivedId t.table pk none (t.beforeOf old) t.rules = .ok key.id := by
  have hid := (keyOf_eq_ok hkey).2.1
  unfold derivedId
  unfold idOf at hid
  cases htemplate : t.rules.idTemplates t.table with
  | none => simpa [htemplate, happend, hpk] using hid
  | some template =>
    simp only [htemplate] at hid ⊢
    unfold renderForRow beforeOf
    cases hfull : t.full with
    | true => exact halt_ok hid
    | false =>
      have hpkOnly := pkOnly_id hdeclared hcheck happend hfull htemplate
      have htold := htells.resolve_left (by simp [hfull])
      simp only [tellsId, htemplate, Option.all_some, hpkOnly, Bool.not_true, Bool.false_or, hpk,
        decide_eq_true_eq] at htold
      simp only [IdTemplate.toRow, hpkOnly, Bool.true_or, if_true, Bool.false_eq_true, if_false]
      exact halt_ok (htold.trans hid)

theorem renderedIndex_gone (htells : t.full = true ∨ t.tellsIndex old = true) :
    renderedIndex t.target t.table pk none (t.beforeOf old) = .ok key.index := by
  have hindex := (keyOf_eq_ok hkey).1
  unfold renderedIndex renderForRow beforeOf
  cases hfull : t.full with
  | true => exact halt_ok hindex
  | false =>
    have htold := htells.resolve_left (by simp [hfull])
    simp only [tellsIndex, hpk, Option.all_some, decide_eq_true_eq] at htold
    simp only [IndexTarget.toRow, pkOnly_index hdeclared hcheck happend hfull, Bool.true_or, if_true,
      Bool.false_eq_true, if_false]
    exact halt_ok (htold.trans hindex)

end

/-- What was left out names nothing. -/
theorem not_mem_leftOut (hcheck : t.startupCheck = true)
    (happend : t.rules.appendOnly t.table = false) {old row : Row} {leftOut : List String}
    (hleft : t.mayLeaveOut old row leftOut = true) (hcolumn : column ∈ t.namingColumns) :
    column ∉ leftOut := by
  intro hmem
  have hout := List.all_eq_true.mp hleft column hmem
  simp only [Bool.and_eq_true, Bool.not_eq_true'] at hout
  obtain ⟨⟨⟨⟨hfull, hkey⟩, -⟩, -⟩, -⟩ := hout
  rw [(namingColumns_inBothKeys hcheck happend hfull hcolumn).1] at hkey
  cases hkey

/-- However an update is completed, the completed row is named as the row is. -/
theorem completion_agree (hcheck : t.startupCheck = true)
    (happend : t.rules.appendOnly t.table = false) {old row : Row} {leftOut : List String}
    (hleft : t.mayLeaveOut old row leftOut = true) (pk : Json) (previousPk before : Option Json)
    (previous : Option Json) :
    ∃ d completed, (completion (.update pk previousPk (.obj (leaveOut leftOut row)) leftOut before)
        previous t.rules t.table).getD (.obj (leaveOut leftOut row), []) = (.obj d, completed) ∧
      t.Agree d row := by
  unfold completion
  dsimp only
  split
  · refine ⟨_, _, rfl, fun column hcolumn => ?_⟩
    exact lookup_leaveOut (not_mem_leftOut hcheck happend hleft hcolumn) row
  · obtain ⟨d, hd, hsame⟩ := completeToast_obj (leaveOut leftOut row) leftOut previous t.rules t.table
    refine ⟨d, (completeToast (.obj (leaveOut leftOut row)) leftOut previous t.rules t.table).2,
      Prod.ext hd rfl, fun column hcolumn => ?_⟩
    have hout := not_mem_leftOut hcheck happend hleft hcolumn
    rw [hsame column hout, lookup_leaveOut hout]

/-- The completed row is what the filter judges. -/
theorem filterOut_update {previousPk before previous : Option Json} {doc : Json}
    {leftOut completed : List String} {d : Row}
    (hcompleted : (completion (.update pk previousPk doc leftOut before) previous t.rules
      t.table).getD (doc, []) = (.obj d, completed)) (hmatches : t.matchesRow d = true) :
    filterOut (.update pk previousPk doc leftOut before)
        ((completion (.update pk previousPk doc leftOut before) previous t.rules t.table).map
          Prod.fst) (t.rules.filters t.table) = .update pk previousPk doc leftOut before := by
  have hjudged : ((completion (.update pk previousPk doc leftOut before) previous t.rules
      t.table).map Prod.fst).getD doc = .obj d :=
    (Option.getD_map Prod.fst (doc, []) _).trans (congrArg Prod.fst hcompleted)
  unfold matchesRow at hmatches
  cases hfilter : t.rules.filters t.table with
  | none => rfl
  | some filter =>
    rw [hfilter, Option.all_some] at hmatches
    simp [filterOut, hjudged, hmatches]

/-- What an update is materialised to, if the completed row matches. -/
theorem materialize_update (hfan : t.rules.fanOuts t.table = none) (hdeclared : t.declared = true)
    (hcheck : t.startupCheck = true) (happend : t.rules.appendOnly t.table = false)
    {old row d : Row} {oldKey key : DocKey} (hold : t.keyOf old = .ok oldKey)
    (hkey : t.keyOf row = .ok key) {oldPk pk : Json} (holdPk : t.extractPk old = some oldPk)
    (hpk : t.extractPk row = some pk) {leftOut completed : List String} {keySent : Bool}
    (hsent : keySent = true ∨ oldPk = pk) (hid : t.tellsId old = true)
    (hidNew : keySent = true ∨ t.tellsId row = true)
    (hother : t.full = true ∨ t.tellsIndex old = true ∧ t.tellsRouting old = true)
    {previous : Option Json} (version : Option ℕ)
    (hcompleted : (completion (.update pk (if keySent then some oldPk else none)
        (.obj (leaveOut leftOut row)) leftOut (t.beforeOf old)) previous t.rules t.table).getD
          (.obj (leaveOut leftOut row), []) = (.obj d, completed))
    (hagree : t.Agree d row) (hmatches : t.matchesRow d = true) :
    ∃ placed left, placeOne t.rules t.table (.obj d) key.id (.obj d) = .ok placed ∧
      materialize t.target t.table (.update pk (if keySent then some oldPk else none)
          (.obj (leaveOut leftOut row)) leftOut (t.beforeOf old)) t.rules previous version =
        .ok (t.writeOf key version completed placed ::
          (if oldKey ≠ key then [removalOf oldKey version] else []), left) := by
  have hgetD : (if keySent then some oldPk else none : Option Json).getD pk = oldPk := by
    cases keySent with
    | true => rfl
    | false => exact (hsent.resolve_left (by simp)).symm
  have hindex : oldIndex t.target ((if keySent then some oldPk else none : Option Json).getD pk)
      (t.beforeOf old) key.index = oldKey.index := by
    rw [hgetD]
    exact oldIndex_ok hdeclared hcheck happend hold holdPk (hother.imp_right And.left) key.index
  have hrouting : keyRouting t.rules t.table (t.beforeOf old)
      ((if keySent then some oldPk else none : Option Json).getD pk) = .ok oldKey.routing := by
    rw [hgetD]
    exact keyRouting_ok hdeclared holdPk (hother.imp_right And.right) (keyOf_eq_ok hold).2.2
  have hnamed := oldId_ok hdeclared hcheck happend hold holdPk hid hkey hpk hsent hidNew
  obtain ⟨placed, left, hplaced, hops⟩ :=
    materializeUpdate_ok hfan hagree hkey happend hpk completed version hindex hnamed hrouting
  refine ⟨placed, left, hplaced, ?_⟩
  have hjudged := filterOut_update hcompleted hmatches
  unfold materialize
  simp only [happend, refusedOnAppendOnly, hjudged, hcompleted]
  exact hops

/-- What a delete is materialised to. -/
theorem materialize_delete (hfan : t.rules.fanOuts t.table = none) (hdeclared : t.declared = true)
    (hcheck : t.startupCheck = true) (happend : t.rules.appendOnly t.table = false)
    (hold : t.keyOf old = .ok key) (hpk : t.extractPk old = some pk)
    (htells : t.full = true ∨ t.tellsId old = true ∧ t.tellsIndex old = true ∧
      t.tellsRouting old = true) (previous : Option Json) (version : Option ℕ) :
    materialize t.target t.table (.delete pk (t.beforeOf old)) t.rules previous version =
      .ok (removalOf key version :: t.cascadeOf key version, []) := by
  have hops := materializeDelete_ok hfan version
    (derivedId_gone hdeclared hcheck happend hold hpk (htells.imp_right And.left))
    (renderedIndex_gone hdeclared hcheck happend hold hpk (htells.imp_right fun h => h.2.1))
    (keyRouting_ok hdeclared hpk (htells.imp_right fun h => h.2.2) (keyOf_eq_ok hold).2.2)
  have hjudged : filterOut (.delete pk (t.beforeOf old)) none (t.rules.filters t.table) =
      .delete pk (t.beforeOf old) := by
    cases t.rules.filters t.table <;> rfl
  unfold materialize
  simp only [happend, refusedOnAppendOnly, completion, Option.map_none, hjudged, hops]
  rfl

/-! ## The store -/

section

variable {target : VersionedTarget} {docs : Documents} {live : List DocKey} {rest : List DocumentOp}

theorem applyOp_writeOf (key : DocKey) (version : Option ℕ) (shaped : List String)
    (placed : Placed) : applyOp target docs (t.writeOf key version shaped placed) =
      Function.update docs key (some (shapeDoc t.rules t.table shaped placed).1) := rfl

theorem applyOp_removalOf (key : DocKey) (version : Option ℕ) :
    applyOp target docs (removalOf key version) = Function.update docs key none := rfl

theorem strikes_cons {op : DocumentOp}
    (h : ∀ key ∈ live, (docs key).isSome → (applyOp target docs op key).isSome) :
    strikes target live docs (op :: rest) = strikes target live (applyOp target docs op) rest := by
  have hnone : live.filter (fun key => (docs key).isSome && (applyOp target docs op key).isNone) = [] := by
    refine List.filter_eq_nil_iff.mpr fun key hkey hboth => ?_
    rw [Bool.and_eq_true] at hboth
    simpa [Option.isSome_iff_ne_none.mp (h key hkey hboth.1)] using hboth.2
  rw [strikes, hnone, List.nil_append]

/-- A write removes nothing. -/
theorem strikes_writeOf (key : DocKey) (version : Option ℕ) (shaped : List String)
    (placed : Placed) : strikes target live docs (t.writeOf key version shaped placed :: rest) =
      strikes target live (applyOp target docs (t.writeOf key version shaped placed)) rest := by
  refine strikes_cons fun other _ hsome => ?_
  rw [applyOp_writeOf, Function.update_apply]
  split
  · rfl
  · exact hsome

/-- A removal removes what is not live. -/
theorem strikes_removalOf (hkey : key ∉ live) (version : Option ℕ) :
    strikes target live docs (removalOf key version :: rest) =
      strikes target live (applyOp target docs (removalOf key version)) rest := by
  refine strikes_cons fun other hother hsome => ?_
  have hne : other ≠ key := fun heq => hkey (heq ▸ hother)
  rwa [applyOp_removalOf, Function.update_of_ne hne]

/-- A document that no cascade of the table takes for a child. -/
def Childless (t : KeyedTable) (doc : Json) : Prop :=
  ∀ join, t.rules.joins t.table = some join → join.parent = none →
    ((doc.index join.field).index "name").asStr = none

theorem childless_shapeDoc {raw doc : Json} {id : String} {placed : Placed}
    (hplaced : placeOne t.rules t.table raw id doc = .ok placed) (shaped : List String) :
    t.Childless (shapeDoc t.rules t.table shaped placed).1 := by
  intro join hjoin hparent
  have hfiled : placed.filed = some (.str join.name, none) := by
    simp only [placeOne, hjoin, JoinRule.routingForDoc, hparent] at hplaced
    cases hplaced
    rfl
  -- the join field is written over everything else
  have hlast : ∀ doc : Json, ((Json.index (fileUnder (some join) (some (.str join.name, none)) doc)
      join.field).index "name").asStr = none := by
    intro doc
    cases doc with
    | obj fields =>
      simp [fileUnder, Json.index, Json.get, lookup_insertField_self, asStr]
    | null | bool | int | float | str | arr => rfl
  unfold shapeDoc
  rw [hfiled, hjoin]
  exact hlast _

/-- The cascade of a removal finds nothing among the table's own documents. -/
theorem applyOp_cascadeOf (target : VersionedTarget) (live : List DocKey)
    (hchildless : ∀ key doc, docs key = some doc → t.Childless doc) (key : DocKey)
    (version : Option ℕ) :
    (t.cascadeOf key version).foldl (applyOp target) docs = docs ∧
      strikes target live docs (t.cascadeOf key version) = [] := by
  unfold cascadeOf
  split
  · next field name hjoin =>
    have hnone : applyOp target docs (.deleteChildren key.index field name key.id version) = docs := by
      funext other
      simp only [applyOp]
      split
      · next hany =>
        obtain ⟨doc, hdoc, hchild⟩ := Option.any_eq_true _ _ |>.mp hany
        have hname := hchildless other doc hdoc _ hjoin rfl
        simp [VersionedTarget.isChild, hname] at hchild
      · rfl
    refine ⟨hnone, ?_⟩
    rw [strikes_cons fun other _ hsome => by rwa [hnone], strikes]
  · exact ⟨rfl, rfl⟩

end

/-! ## The live rows' places -/

variable {rows : List Row}

theorem keyOf_of_wellNamed (h : t.wellNamed rows = true) (hrow : row ∈ rows) :
    ∃ key, t.keyOf row = .ok key := by
  simp only [wellNamed, Bool.and_eq_true, List.all_eq_true] at h
  have hsome := h.1.1 row hrow
  cases hkey : t.keyOf row with
  | error e => simp [hkey, Except.toOption] at hsome
  | ok key => exact ⟨key, rfl⟩

theorem places_nodup (h : t.wellNamed rows = true) : (t.places rows).Nodup := by
  simp only [wellNamed, Bool.and_eq_true, decide_eq_true_eq] at h
  exact h.1.2

theorem places_cons_ok (h : t.keyOf row = .ok key) (rest : List Row) :
    t.places (row :: rest) = key :: t.places rest :=
  List.filterMap_cons_some (by rw [h]; rfl)

theorem places_append (rows rows' : List Row) :
    t.places (rows ++ rows') = t.places rows ++ t.places rows' :=
  List.filterMap_append

/-- One row in the middle of the others. -/
theorem places_split {nth : ℕ} (hnth : rows[nth]? = some old) {oldKey : DocKey}
    (hold : t.keyOf old = .ok oldKey) : ∃ left right,
      t.places rows = left ++ oldKey :: right ∧
      t.places (rows.eraseIdx nth) = left ++ right ∧
      ∀ row key, t.keyOf row = .ok key → t.places (rows.set nth row) = left ++ key :: right := by
  obtain ⟨hlt, hget⟩ := List.getElem?_eq_some_iff.mp hnth
  refine ⟨t.places (rows.take nth), t.places (rows.drop (nth + 1)), ?_, ?_, ?_⟩
  · rw [← places_cons_ok hold, ← places_append, ← hget, List.getElem_cons_drop, List.take_append_drop]
  · rw [← places_append, List.eraseIdx_eq_take_drop_succ]
  · intro row key hkey
    rw [← places_cons_ok hkey, ← places_append, List.set_eq_take_append_cons_drop, if_pos hlt]

/-- What a change that the table can make comes to. -/
inductive Described (t : KeyedTable) (rows : List Row) : Change → List Row × RowKind → Prop
  | insert {row : Row} {pk : Json} :
    (t.rules.appendOnly t.table = false → t.extractPk row = some pk) →
      Described t rows (.insert row) (rows ++ [row], .insert pk (.obj row))
  | update {nth : ℕ} {old row : Row} {oldPk pk : Json} {leftOut : List String} {keySent : Bool} :
    rows[nth]? = some old → t.extractPk old = some oldPk → t.extractPk row = some pk →
    t.rules.appendOnly t.table = false → t.mayLeaveOut old row leftOut = true →
    keySent = true ∨ oldPk = pk →
      Described t rows (.update nth row leftOut keySent) (rows.set nth row,
        .update pk (if keySent then some oldPk else none) (.obj (leaveOut leftOut row)) leftOut
          (t.beforeOf old))
  | delete {nth : ℕ} {old : Row} {pk : Json} :
    rows[nth]? = some old → t.extractPk old = some pk → t.rules.appendOnly t.table = false →
      Described t rows (.delete nth) (rows.eraseIdx nth, .delete pk (t.beforeOf old))

theorem described {change : Change} {next : List Row × RowKind}
    (h : t.describe rows change = some next) : t.Described rows change next := by
  cases change with
  | insert row =>
    simp only [describe] at h
    split at h
    · next happend =>
      cases h
      exact .insert fun hkeyed => by
        rw [happend] at hkeyed
        cases hkeyed
    · obtain ⟨pk, hpk, rfl⟩ := Option.map_eq_some_iff.mp h
      exact .insert fun _ => hpk
  | update nth row leftOut keySent =>
    obtain ⟨old, hnth, h⟩ := Option.bind_eq_some_iff.mp h
    obtain ⟨oldPk, holdPk, h⟩ := Option.bind_eq_some_iff.mp h
    obtain ⟨pk, hpk, h⟩ := Option.bind_eq_some_iff.mp h
    obtain ⟨hallowed, h⟩ := Option.ite_none_right_eq_some.mp h
    cases h
    simp only [Bool.and_eq_true, Bool.not_eq_true', Bool.or_eq_true, decide_eq_true_eq] at hallowed
    exact .update hnth holdPk hpk hallowed.1.1 hallowed.1.2 hallowed.2
  | delete nth =>
    obtain ⟨old, hnth, h⟩ := Option.bind_eq_some_iff.mp h
    obtain ⟨pk, hpk, h⟩ := Option.bind_eq_some_iff.mp h
    obtain ⟨happend, h⟩ := Option.ite_none_left_eq_some.mp h
    cases h
    exact .delete hnth hpk (Bool.eq_false_iff.mpr happend)

/-! ## The invariant -/

/-- The documents are those of the live rows. -/
structure MirrorInv (t : KeyedTable) (s : Mirror) : Prop where
  /-- every live row has a place of its own -/
  named : t.wellNamed s.rows = true
  /-- there the documents are, and they are no one's children -/
  kept : ∃ docs, s.docs = .ok docs ∧ (∀ key, (docs key).isSome ↔ key ∈ t.places s.rows) ∧
    ∀ key doc, docs key = some doc → t.Childless doc
  /-- none was removed -/
  struck : s.struck = []

/-- An event whose operations do to the documents what it did to the rows. -/
theorem MirrorInv.materialized {target : VersionedTarget} {s : Mirror} (h : t.MirrorInv s)
    (hnamed : t.wellNamed rows = true) {kind : RowKind} {previous : Option Json}
    {version : Option ℕ} {ops : List DocumentOp} {left : List String}
    (hops : materialize t.target t.table kind t.rules previous version = .ok (ops, left))
    (heffect : ∀ docs, (∀ key, (docs key).isSome ↔ key ∈ t.places s.rows) →
      (∀ key doc, docs key = some doc → t.Childless doc) →
      (∀ key, ((ops.foldl (applyOp target) docs) key).isSome ↔ key ∈ t.places rows) ∧
      (∀ key doc, (ops.foldl (applyOp target) docs) key = some doc → t.Childless doc) ∧
      strikes target (t.places rows) docs ops = []) :
    t.MirrorInv (t.materialized target rows kind previous version s) := by
  obtain ⟨docs, hdocs, hplaces, hchildless⟩ := h.kept
  obtain ⟨hplaces', hchildless', hstrikes⟩ := heffect docs hplaces hchildless
  unfold KeyedTable.materialized
  rw [hdocs, hops]
  refine ⟨hnamed, ⟨_, rfl, hplaces', hchildless'⟩, ?_⟩
  change s.struck ++ strikes target (t.places rows) docs ops = []
  rw [h.struck, hstrikes, List.append_nil]

section

variable (hplain : t.Plain) (hdeclared : t.declared = true) (hcheck : t.startupCheck = true)
  {target : VersionedTarget} {s : Mirror}

include hplain in
theorem MirrorInv.insert (h : t.MirrorInv s)
    (hpk : t.rules.appendOnly t.table = false → t.extractPk row = some pk)
    (hnamed : t.wellNamed (s.rows ++ [row]) = true) (previous : Option Json) (version : Option ℕ) :
    t.MirrorInv (t.materialized target (s.rows ++ [row]) (.insert pk (.obj row)) previous version s) := by
  obtain ⟨key, hkey⟩ := keyOf_of_wellNamed hnamed (List.mem_append_right _ List.mem_cons_self)
  obtain ⟨placed, left, hplaced, hops⟩ := materialize_insert hplain.1 (hplain.matchesRow row) hkey hpk
    previous version
  refine h.materialized hnamed hops fun docs hplaces hchildless => ?_
  rw [List.foldl_cons, List.foldl_nil, applyOp_writeOf, strikes_writeOf, strikes]
  refine ⟨fun other => ?_, fun other doc hdoc => ?_, rfl⟩
  · rw [places_append, places_cons_ok hkey, Function.update_apply, List.mem_append, ← hplaces other]
    split
    · next heq => simp [heq]
    · next hne => simp [hne, places]
  · rw [Function.update_apply] at hdoc
    split at hdoc
    · cases hdoc
      exact childless_shapeDoc hplaced []
    · exact hchildless other doc hdoc

include hplain hdeclared hcheck in
theorem MirrorInv.update (h : t.MirrorInv s) (happend : t.rules.appendOnly t.table = false)
    {nth : ℕ} {old row : Row} (hnth : s.rows[nth]? = some old) {oldPk pk : Json}
    (holdPk : t.extractPk old = some oldPk) (hpk : t.extractPk row = some pk)
    {leftOut : List String} (hleft : t.mayLeaveOut old row leftOut = true) {keySent : Bool}
    (hsent : keySent = true ∨ oldPk = pk) (hid : t.tellsId old = true)
    (hidNew : keySent = true ∨ t.tellsId row = true)
    (hother : t.full = true ∨ t.tellsIndex old = true ∧ t.tellsRouting old = true)
    (hnamed : t.wellNamed (s.rows.set nth row) = true) (previous : Option Json)
    (version : Option ℕ) :
    t.MirrorInv (t.materialized target (s.rows.set nth row)
      (.update pk (if keySent then some oldPk else none) (.obj (leaveOut leftOut row)) leftOut
        (t.beforeOf old)) previous version s) := by
  obtain ⟨oldKey, hold⟩ := keyOf_of_wellNamed h.named (List.mem_of_getElem? hnth)
  have hmem : row ∈ s.rows.set nth row :=
    List.mem_set (List.getElem?_eq_some_iff.mp hnth).1 row
  obtain ⟨key, hkey⟩ := keyOf_of_wellNamed hnamed hmem
  obtain ⟨d, completed, hcompleted, hagree⟩ := completion_agree hcheck happend hleft pk
    (if keySent then some oldPk else none) (t.beforeOf old) previous
  obtain ⟨placed, left, hplaced, hops⟩ := materialize_update hplain.1 hdeclared hcheck happend hold
    hkey holdPk hpk hsent hid hidNew hother version hcompleted hagree (hplain.matchesRow d)
  obtain ⟨before, after, hbefore, -, hset⟩ := places_split hnth hold
  have hafter := hset row key hkey
  have hnodup := hbefore ▸ places_nodup h.named
  have hnodup' := hafter ▸ places_nodup hnamed
  refine h.materialized hnamed hops fun docs hplaces hchildless => ?_
  rw [hbefore] at hplaces
  rw [hafter, List.foldl_cons, applyOp_writeOf, strikes_writeOf, applyOp_writeOf]
  have hwritten : ∀ other doc, Function.update docs key (some (shapeDoc t.rules t.table completed
      placed).1) other = some doc → t.Childless doc := fun other doc hdoc => by
    rw [Function.update_apply] at hdoc
    split at hdoc
    · cases hdoc
      exact childless_shapeDoc hplaced completed
    · exact hchildless other doc hdoc
  by_cases hmoved : oldKey = key
  · -- the row stays where it is
    subst hmoved
    rw [if_neg (not_not.mpr rfl), List.foldl_nil, strikes]
    refine ⟨fun other => ?_, hwritten, rfl⟩
    rw [Function.update_apply]
    split
    · next heq => simp [heq]
    · exact hplaces other
  · -- it moved: its old document goes, and no live row is there
    have hgone : oldKey ∉ before ++ key :: after := by
      have := List.nodup_middle.mp hnodup
      simp only [List.mem_append, List.mem_cons, List.nodup_cons] at this ⊢
      tauto
    rw [if_pos hmoved, List.foldl_cons, List.foldl_nil, applyOp_removalOf,
      strikes_removalOf hgone, strikes]
    refine ⟨fun other => ?_, fun other doc hdoc => ?_, rfl⟩
    · rw [Function.update_apply]
      split
      · next heq => simp [heq, hgone]
      · next hne =>
        rw [Function.update_apply]
        split
        · next heq => simp [heq]
        · next hne' => simp [hplaces other, hne, hne']
    · rw [Function.update_apply] at hdoc
      split at hdoc
      · cases hdoc
      · exact hwritten other doc hdoc

include hplain hdeclared hcheck in
theorem MirrorInv.delete (h : t.MirrorInv s) (happend : t.rules.appendOnly t.table = false)
    {nth : ℕ} (hnth : s.rows[nth]? = some old) (hpk : t.extractPk old = some pk)
    (htells : t.full = true ∨ t.tellsId old = true ∧ t.tellsIndex old = true ∧
      t.tellsRouting old = true) (hnamed : t.wellNamed (s.rows.eraseIdx nth) = true)
    (previous : Option Json) (version : Option ℕ) :
    t.MirrorInv (t.materialized target (s.rows.eraseIdx nth) (.delete pk (t.beforeOf old)) previous
      version s) := by
  obtain ⟨key, hold⟩ := keyOf_of_wellNamed h.named (List.mem_of_getElem? hnth)
  have hops := materialize_delete hplain.1 hdeclared hcheck happend hold hpk htells previous version
  obtain ⟨before, after, hbefore, herase, -⟩ := places_split hnth hold
  have hnodup := List.nodup_middle.mp (hbefore ▸ places_nodup h.named)
  have hgone : key ∉ before ++ after := (List.nodup_cons.mp hnodup).1
  refine h.materialized hnamed hops fun docs hplaces hchildless => ?_
  rw [hbefore] at hplaces
  have hchildless' : ∀ other doc, Function.update docs key none other = some doc → t.Childless doc :=
    fun other doc hdoc => by
      rw [Function.update_apply] at hdoc
      split at hdoc
      · cases hdoc
      · exact hchildless other doc hdoc
  obtain ⟨hcascade, hstrikes⟩ :=
    applyOp_cascadeOf target (t.places (s.rows.eraseIdx nth)) hchildless' key version
  rw [herase] at hstrikes ⊢
  rw [List.foldl_cons, applyOp_removalOf, hcascade, strikes_removalOf hgone, applyOp_removalOf,
    hstrikes]
  refine ⟨fun other => ?_, hchildless', rfl⟩
  rw [Function.update_apply]
  split
  · next heq =>
    subst heq
    simpa using hgone
  · next hne => simp [hplaces other, hne]

include hplain hdeclared hcheck in
/-- **One change keeps the documents in step with the rows.** -/
theorem MirrorInv.step (h : t.MirrorInv s) {action : Change × Option Json × Option ℕ} {s' : Mirror}
    (htells : t.keyTells s.rows action.1 = true)
    (hstep : (t.mirrorSystem target).step s action = some s') : t.MirrorInv s' := by
  obtain ⟨change, previous, version⟩ := action
  obtain ⟨next, hdescribe, hstep⟩ := Option.bind_eq_some_iff.mp hstep
  obtain ⟨hnamed, hstep⟩ := Option.ite_none_right_eq_some.mp hstep
  cases hstep
  cases described hdescribe with
  | insert hpk => exact h.insert hplain hpk hnamed previous version
  | update hnth holdPk hpk happend hleft hsent =>
    simp only [keyTells, hnth, Option.all_some, Bool.and_eq_true, Bool.or_eq_true] at htells
    obtain ⟨⟨hid, hidNew⟩, hother⟩ := htells
    exact h.update hplain hdeclared hcheck happend hnth holdPk hpk hleft hsent hid hidNew hother
      hnamed previous version
  | delete hnth hpk happend =>
    simp only [keyTells, hnth, Option.all_some, Bool.and_eq_true, Bool.or_eq_true, and_assoc]
      at htells
    exact h.delete hplain hdeclared hcheck happend hnth hpk htells hnamed previous version

end

theorem MirrorInv.start {target : VersionedTarget} {s : Mirror}
    (h : (t.mirrorSystem target).initial s) : t.MirrorInv s := by
  obtain rfl := h
  refine ⟨rfl, ⟨_, rfl, fun key => ?_, fun key doc hdoc => by cases hdoc⟩, rfl⟩
  simp [places]

/-- **Where the keys tell the names, the documents mirror the table**, after every run
of its changes. -/
theorem mirrors {target : VersionedTarget} (hplain : t.Plain) (hdeclared : t.declared = true)
    (hcheck : t.startupCheck = true) {s : Mirror}
    (h : (t.mirrorSystem target).ReachUnder (fun s action => t.keyTells s.rows action.1 = true) s) :
    t.Mirrors s := by
  have hinv : t.MirrorInv s := h.invariant (fun _ hinitial => MirrorInv.start hinitial)
    fun _ _ _ hinv htells hstep => hinv.step hplain hdeclared hcheck htells hstep
  obtain ⟨docs, hdocs, hplaces, -⟩ := hinv.kept
  exact ⟨⟨docs, hdocs, hplaces⟩, hinv.struck⟩

end KeyedTable

/-! ## Runs that the kernel follows -/

/-- A section with an id template of one column. -/
def templated (column : String) (pkOnly : Bool) : Rules :=
  { Rules.bare with idTemplates := fun _ => some ⟨[.literal "u-", .column column], pkOnly⟩ }

/-- A table whose ids render from its key, under the default replica identity. -/
def usersById : KeyedTable :=
  ⟨("public", "users"), ["id"], ["id"], false, "id", templated "id" true, .fixed "users"⟩

/-- A table whose section declares another column for its key, so that it has to be
under a full replica identity. -/
def usersByCode : KeyedTable :=
  ⟨("public", "users"), ["id"], ["id"], true, "code", templated "code" true, .fixed "users"⟩

/-- A row of either table. -/
def user (code : String) (id : ℤ) : Row :=
  [("code", .str code), ("id", .int id)]

/-- Somewhere to write, without pipelines and joins. -/
def plainTarget : VersionedTarget := ⟨fun _ doc => doc, fun _ _ _ => none, []⟩

/-- Rows come, one of them moves to another id, the other goes. -/
def movingUsers : List (KeyedTable.Change × Option Json × Option ℕ) :=
  [(.insert (user "A" 1), none, some 1), (.insert (user "B" 2), none, some 2),
    (.update 0 (user "A" 3) ["code"] true, none, some 3), (.delete 1, none, some 4)]

/-- One document is left, under the id the first row moved to. -/
theorem movingUsers_mirrors : ∃ s,
    (usersById.mirrorSystem plainTarget).runUnder (fun s a => usersById.keyTells s.rows a.1)
      ⟨[], .ok fun _ => none, []⟩ movingUsers = some s ∧
    s.rows = [user "A" 3] ∧ usersById.Mirrors s := by
  have hrun : ((usersById.mirrorSystem plainTarget).runUnder
      (fun s a => usersById.keyTells s.rows a.1) ⟨[], .ok fun _ => none, []⟩ movingUsers).map
        (·.rows) = some [user "A" 3] := by decide +kernel
  obtain ⟨s, hs, hrows⟩ := Option.map_eq_some_iff.mp hrun
  exact ⟨s, hs, hrows, KeyedTable.mirrors ⟨rfl, rfl⟩ (by decide +kernel) (by decide +kernel)
    (.of_runUnder (.initial rfl) hs)⟩

/-- A row's code changes, which its id renders from. -/
def recodedUser : List (KeyedTable.Change × Option Json × Option ℕ) :=
  [(.insert (user "A" 1), none, some 1), (.update 0 (user "B" 1) [] true, none, some 2)]

/-- The old id is rendered from the key, which is another column: the document under the
old code stays. -/
theorem recodedUser_not_mirrors : usersByCode.Plain ∧ usersByCode.declared = true ∧
    usersByCode.startupCheck = true ∧
    ∃ s, (usersByCode.mirrorSystem plainTarget).Reachable s ∧ ¬ usersByCode.Mirrors s := by
  refine ⟨⟨rfl, rfl⟩, by decide +kernel, by decide +kernel, ?_⟩
  have hrun : ((usersByCode.mirrorSystem plainTarget).run ⟨[], .ok fun _ => none, []⟩
      recodedUser).map (fun s => (s.rows, s.docs.toOption.map fun docs =>
        (docs ⟨"users", "u-A", none⟩).isSome)) = some ([user "B" 1], some true) := by decide +kernel
  obtain ⟨s, hs, hend⟩ := Option.map_eq_some_iff.mp hrun
  obtain ⟨hrows, hstale⟩ := Prod.mk.inj hend
  refine ⟨s, Transition.System.reachable_of_run rfl hs, fun h => ?_⟩
  obtain ⟨docs, hdocs, hplaces⟩ := h.docs
  rw [hdocs] at hstale
  have hlive := (hplaces _).mp (Option.some.inj hstale)
  rw [hrows] at hlive
  revert hlive
  decide +kernel

end Pg2osync
