import Pg2osync.FilteredMirror
import Pg2osync.PollLoad

/-!
# What a row leaves of its document

A row that is one document comes to one operation, wherever it is sent from: a write at its
place, or a removal there when it is soft-deleted or the filter turns it down. A polled row
is shown once it is written; a copied one is shown, or refused.
-/

namespace Pg2osync

open VersionedTarget

/-! ## What a row comes to -/

theorem Except.of_toOption {ε α : Type} {x : Except ε α} {a : α} (h : x.toOption = some a) :
    x = .ok a := by
  cases x with
  | error e => cases h
  | ok b => exact congrArg Except.ok (Option.some.inj h)

variable {rules : Rules}

theorem placeOne_frame {table : TableName} {raw doc : Json} {id : String} {placed : Placed}
    (h : placeOne rules table raw id doc = .ok placed) : placed.id = id := by
  rw [placeOne] at h
  split at h
  · obtain ⟨filed, -, rfl⟩ := Except.map_eq_ok h
    rfl
  · obtain ⟨routing, -, rfl⟩ := Except.map_eq_ok h
    rfl
  · cases h
    rfl

/-- What is routed by a row is routed by it as a before-image. -/
theorem keyRouting_of_placeOne {table : TableName} (pk : Json) {doc : Json} {id : String}
    {placed : Placed} (hnamed : ∀ join parent, rules.joins table = some join →
      join.parent = some parent → parent.element = false)
    (h : placeOne rules table doc id doc = .ok placed) :
    keyRouting rules table (some doc) pk = .ok placed.routing := by
  cases hjoin : rules.joins table with
  | some join =>
    simp only [placeOne, hjoin] at h
    obtain ⟨filed, hfiled, rfl⟩ := Except.map_eq_ok h
    simp only [keyRouting, hjoin, JoinRule.routingForKey]
    cases hparent : join.parent with
    | none =>
      have hunset : join.routingForDoc doc = .ok (.str join.name, none) := by
        simp only [JoinRule.routingForDoc, hparent]
      rw [hunset] at hfiled
      cases hfiled
      rfl
    | some parent =>
      simp only [hnamed join parent hjoin hparent, Bool.false_eq_true, if_false]
      cases hdoc : join.routingForDoc doc with
      | error e => rw [hdoc] at hfiled; cases hfiled
      | ok named =>
        rw [hdoc] at hfiled
        cases hfiled
        rfl
  | none =>
    cases hrule : rules.routings table with
    | none =>
      simp only [placeOne, hjoin, hrule] at h
      cases h
      simp only [keyRouting, hjoin, hrule]
    | some rule =>
      simp only [placeOne, hjoin, hrule] at h
      obtain ⟨routing, hrouting, rfl⟩ := Except.map_eq_ok h
      simp only [keyRouting, hjoin, hrule, RoutingColumn.renderFromKey]
      cases hrender : rule.render doc with
      | error e => rw [hrender] at hrouting; cases hrouting
      | ok value =>
        rw [hrender] at hrouting
        cases hrouting
        rfl

theorem renderedIndex_before (target : IndexTarget) (table : TableName) (pk doc : Json) :
    renderedIndex target table pk none (some doc) =
      renderedIndex target table pk (some doc) none := rfl

variable {completions : Completions}

namespace Engine

variable {engine : Engine} {table : TableName} {pk doc : Json} {key : DocKey} {d : Json}

/-- A row's document, step by step. -/
theorem documentOf_eq_some (h : engine.documentOf table pk doc = some (key, d)) :
    ∃ target placed, engine.mapping.targetFor table = some target ∧
      derivedId table pk (some doc) none engine.rules = .ok key.id ∧
      renderedIndex target table pk (some doc) none = .ok key.index ∧
      placeOne engine.rules table doc key.id doc = .ok placed ∧ placed.id = key.id ∧
      placed.routing = key.routing ∧ (shapeDoc engine.rules table [] placed).1 = d := by
  obtain ⟨target, htarget, h⟩ := Option.bind_eq_some_iff.mp h
  obtain ⟨base, hbase, h⟩ := Except.bind_eq_ok (Except.of_toOption h)
  obtain ⟨index, hindex, h⟩ := Except.bind_eq_ok h
  obtain ⟨placed, hplaced, h⟩ := Except.bind_eq_ok h
  cases h
  have hid := placeOne_frame hplaced
  refine ⟨target, placed, htarget, ?_, hindex, ?_, rfl, rfl, rfl⟩
  · exact hid ▸ hbase
  · exact hid ▸ hplaced

/-- A row that the filter keeps is written at its place. -/
theorem opsOf_insert (hplain : engine.rules.fanOuts table = none)
    (h : engine.documentOf table pk doc = some (key, d)) (hkeeps : engine.keeps table doc = true)
    (completions : Completions) (version : Option ℕ) :
    engine.opsOf completions ⟨table, .insert pk doc, version⟩ =
      [.upsert key.index key.id key.routing d version (engine.rules.pipelines table)] := by
  obtain ⟨target, placed, htarget, hid, hindex, hplaced, hplacedId, hrouting, hd⟩ :=
    documentOf_eq_some h
  have hjudged : filterOut (.insert pk doc) none (engine.rules.filters table) = .insert pk doc := by
    rw [keeps] at hkeeps
    cases hfilter : engine.rules.filters table with
    | none => rfl
    | some filter =>
      rw [hfilter, Option.all_some] at hkeeps
      simp only [filterOut, hkeeps, if_true]
  simp only [opsOf, htarget, materialize, refusedOnAppendOnly, completion, Option.map_none,
    hjudged, hid, hindex, bind, Except.bind, KeyedTable.place_eq hplain, hplaced, Except.map]
  simp [pure, Except.pure, finishDocs, hplacedId, hrouting, hd]

/-- A delete of a row that is not fanned out is one operation, and a cascade's. -/
theorem materializeDelete_plain (hplain : rules.fanOuts table = none) {target : IndexTarget}
    {version : Option ℕ} {before : Option Json} {id index : String} {routing : Option String}
    (hid : derivedId table pk none before rules = .ok id)
    (hindex : renderedIndex target table pk none before = .ok index)
    (hrouting : keyRouting rules table before pk = .ok routing) :
    ∃ cascade, materializeDelete rules table version target pk before =
        .ok (.delete index id routing version :: cascade) ∧
      ∀ op ∈ cascade, op.isCascade = true := by
  rw [materializeDelete, hid, hindex]
  simp only [bind, Except.bind, hplain, hrouting]
  refine ⟨_, rfl, fun op hop => ?_⟩
  split at hop
  · rw [List.mem_singleton.mp hop]
    rfl
  · exact absurd hop List.not_mem_nil

/-- A row that is gone, or turned down by the filter, is removed from its place. -/
theorem opsOf_removal (hplain : engine.rules.fanOuts table = none)
    (hnamed : ∀ join parent, engine.rules.joins table = some join →
      join.parent = some parent → parent.element = false)
    (h : engine.documentOf table pk doc = some (key, d)) {kind : RowKind}
    (hkind : kind = .delete pk (some doc) ∨ kind = .insert pk doc ∧ engine.keeps table doc = false)
    {version : Option ℕ} {target : IndexTarget} {ops : List DocumentOp} {left : List String}
    (htarget : engine.mapping.targetFor table = some target)
    (hops : materialize target table kind engine.rules
      (engine.previousOf completions ⟨table, kind, version⟩) version = .ok (ops, left)) :
    ∃ cascade, engine.opsOf completions ⟨table, kind, version⟩ =
        .delete key.index key.id key.routing version :: cascade ∧
      ∀ op ∈ cascade, op.isCascade = true := by
  obtain ⟨other, placed, hother, hid, hindex, hplaced, -, hrouting, -⟩ := documentOf_eq_some h
  obtain rfl := Option.some.inj (htarget.symm.trans hother)
  have hremoved := keyRouting_of_placeOne pk hnamed hplaced
  have hopsOf : engine.opsOf completions ⟨table, kind, version⟩ = ops := by
    simp only [opsOf, htarget, hops]
  rw [hopsOf]
  obtain ⟨cascade, hdelete, hcascade⟩ : ∃ cascade,
      materializeDelete engine.rules table version target pk (some doc) =
        .ok (.delete key.index key.id key.routing version :: cascade) ∧
      ∀ op ∈ cascade, op.isCascade = true :=
    materializeDelete_plain hplain ((derivedId_before ..).trans hid)
      ((renderedIndex_before ..).trans hindex) (hrouting ▸ hremoved)
  have hjudged : filterOut kind ((completion kind (engine.previousOf completions
      ⟨table, kind, version⟩) engine.rules table).map Prod.fst) (engine.rules.filters table) =
        .delete pk (some doc) := by
    obtain rfl | ⟨rfl, hkeeps⟩ := hkind
    · cases engine.rules.filters table <;> rfl
    · rw [keeps] at hkeeps
      cases hfilter : engine.rules.filters table with
      | none => rw [hfilter] at hkeeps; cases hkeeps
      | some filter =>
        rw [hfilter, Option.all_some] at hkeeps
        simp only [filterOut, hkeeps, Bool.false_eq_true, if_false]
  rw [materialize] at hops
  split at hops
  · cases hops
  · simp only [hjudged, hdelete, Except.map, Except.ok.injEq, Prod.mk.injEq] at hops
    exact ⟨cascade, hops.1.symm, hcascade⟩

end Engine

/-! ## What the target holds -/

variable {op : DocumentOp}

namespace VersionedTarget

variable {target : VersionedTarget} {log : List Emitted} {origin : Origin} {key : DocKey}

theorem holding_append (more : List Emitted) :
    target.holding (log ++ more) key = more.foldl (target.takes key) (target.holding log key) :=
  List.foldl_append

/-- Only what was written is held. -/
theorem mem_writtenKeys (h : target.holding log key ≠ none) : key ∈ writtenKeys log := by
  induction log using List.reverseRecOn with
  | nil => exact absurd rfl h
  | append_singleton log emitted ih =>
    rw [holding_append, List.foldl_cons, List.foldl_nil] at h
    rw [writtenKeys, List.filterMap_append, List.mem_append]
    cases emitted with
    | truncated pattern version confined => exact .inl (ih h)
    | op origin op =>
      rw [takes, actOn] at h
      split at h
      · next hreaches =>
        cases hown : op.key with
        | some own =>
          rw [reaches, hown, decide_eq_true_eq] at hreaches
          right
          simp only [List.filterMap_cons, hown, hreaches, List.filterMap_nil, List.mem_singleton]
        | none =>
          -- a cascade reaches a document, which was written before it
          rw [reaches, hown] at hreaches
          refine .inl (ih fun hnone => ?_)
          rw [hnone] at hreaches
          cases hreaches
      · exact .inl (ih h)

/-- What reaches nothing changes nothing. -/
theorem foldl_takes_of_reaches {slot : Slot} {ops : List DocumentOp}
    (h : ∀ op ∈ ops, target.reaches op key slot = false) :
    (ops.map (Emitted.op origin)).foldl (target.takes key) slot = slot := by
  induction ops with
  | nil => rfl
  | cons op rest ih =>
    rw [List.map_cons, List.foldl_cons, takes, actOn, h op List.mem_cons_self]
    exact ih fun other hother => h other (List.mem_cons_of_mem op hother)

/-- A document operation is about its own key. -/
theorem reaches_of_key {own : DocKey} (hown : op.key = some own) (slot : Slot) :
    target.reaches op key slot = decide (own = key) := by
  rw [reaches, hown]

/-- A write is taken, or leaves everything as it is. -/
theorem writeSlot_cases (rank : Option ℕ) (content : Option Json) (slot : Slot) :
    (writeSlot rank content slot).content = content ∨
      slot ≠ none ∧ writeSlot rank content slot = slot := by
  cases rank with
  | none => exact .inl rfl
  | some v =>
    cases slot with
    | none => exact .inl (Register.Write.content_of v content)
    | some held =>
      obtain ⟨w, c⟩ := held
      rw [writeSlot, Register.writeMarked, Register.Write.version_of, Register.Write.content_of]
      by_cases hle : w ≤ v
      · rw [if_pos hle]
        exact .inl rfl
      · rw [if_neg hle]
        exact .inr ⟨Option.some_ne_none _, rfl⟩

theorem writeSlot_ne_none (rank : Option ℕ) (content : Option Json) (slot : Slot) :
    writeSlot rank content slot ≠ none := by
  cases rank with
  | none => exact Option.some_ne_none _
  | some v =>
    cases slot with
    | none => exact Option.some_ne_none _
    | some held =>
      rw [writeSlot, Register.writeMarked]
      split <;> exact Option.some_ne_none _

/-- One below what is held is refused. -/
theorem writeSlot_refused {v : ℕ} {content : Option Json} {held : ℕ × Option Json}
    (h : v < held.1) : writeSlot (some v) content (some held) = some held := by
  rw [writeSlot, Register.writeMarked, Register.Write.version_of]
  exact if_neg (Nat.not_le_of_lt h)

end VersionedTarget

/-! ## What a row leaves of its place -/

namespace PollMode

variable {ι κ ρ : Type} {m : PollMode ι κ ρ} {s s' : PollState ι ρ} {row : ρ} {key : DocKey}

/-- What the load and the poll say alike of a row. -/
theorem alike_spec (h : m.alike row = true) :
    ∃ own d, m.polledDocument row = some (own, d) ∧ m.place row = some own ∧
      (m.table (m.tableOf row)).selects row = m.live row ∧
      (m.live row = true → ∃ d', m.copiedDocument row = some (own, d') ∧
        m.engine.keeps (m.name row) ((m.table (m.tableOf row)).copiedDoc row) = true) := by
  simp only [alike, Bool.and_eq_true, decide_eq_true_eq, Bool.or_eq_true, Bool.not_eq_true'] at h
  obtain ⟨⟨hplace, hselects⟩, hcopied⟩ := h
  obtain ⟨own, hown⟩ := Option.isSome_iff_exists.mp hplace
  obtain ⟨⟨_, d⟩, hd, rfl⟩ := Option.map_eq_some_iff.mp hown
  refine ⟨_, d, hd, hown, hselects, fun hlive => ?_⟩
  obtain hdead | ⟨hname, hkeeps⟩ := hcopied
  · rw [hlive] at hdead
    cases hdead
  · rw [hown] at hname
    obtain ⟨⟨_, d'⟩, hd', rfl⟩ := Option.map_eq_some_iff.mp hname
    exact ⟨d', hd', hkeeps⟩

/-- A row that is soft-deleted, as the poll sends it. -/
theorem polled_gone (h : ((m.table (m.tableOf row)).deleted row).getD false = true) :
    m.polled row = ⟨m.name row, .delete
      (PollTable.extractPk ((m.table (m.tableOf row)).doc row)
        (m.table (m.tableOf row)).poll.pkColumns)
      (some ((m.table (m.tableOf row)).doc row)), none⟩ := by
  simp only [polled, PollTable.change, polledRow, h, if_true]
  rfl

/-- And one that is not. -/
theorem polled_present (h : ((m.table (m.tableOf row)).deleted row).getD false = false) :
    m.polled row = ⟨m.name row, .insert
      (PollTable.extractPk ((m.table (m.tableOf row)).doc row)
        (m.table (m.tableOf row)).poll.pkColumns) ((m.table (m.tableOf row)).doc row), none⟩ := by
  simp only [polled, PollTable.change, polledRow, h, Bool.false_eq_true, if_false]
  rfl

theorem filedUnder_polled (row : ρ) : m.engine.filedUnder (m.polled row) = m.place row := by
  cases hgone : ((m.table (m.tableOf row)).deleted row).getD false with
  | true =>
    rw [polled_gone hgone]
    rfl
  | false =>
    rw [polled_present hgone]
    rfl

theorem filedUnder_copied (halike : m.alike row = true) (hlive : m.live row = true) (lsn : Lsn) :
    m.engine.filedUnder (m.copied lsn row) = m.place row := by
  obtain ⟨own, d, -, hplace, -, hcopied⟩ := alike_spec halike
  obtain ⟨d', hd', -⟩ := hcopied hlive
  have hfiled : m.engine.filedUnder (m.copied lsn row) = (m.copiedDocument row).map Prod.fst := rfl
  rw [hfiled, hd', hplace]
  rfl

theorem leaves_upsert (row : ρ) (key : DocKey) (d : Json) (version : Option ℕ) :
    m.target.leaves (.upsert key.index key.id key.routing d version
      (m.engine.rules.pipelines (m.name row))) = some (m.stored row d) := by
  rw [stored]
  cases m.engine.rules.pipelines (m.name row) <;> rfl

/-- A cascade among the operations of a row finds nothing. -/
theorem reaches_of_strikesNothing {change : RowChange}
    (h : m.strikesNothing s completions change = true)
    (hop : op ∈ m.engine.opsOf completions change) (hcascade : op.isCascade = true) (key : DocKey) :
    m.target.reaches op key (m.slot s key) = false := by
  have hfound := List.all_eq_true.mp h op hop
  rw [hcascade, Bool.not_true, Bool.false_or, List.all_eq_true] at hfound
  by_cases hnone : m.slot s key = none
  · rw [hnone]
    cases op with
    | deleteChildren => rfl
    | upsert | delete => cases hcascade
  · have hkey := hfound key (mem_writtenKeys hnone)
    rwa [Bool.not_eq_true'] at hkey

theorem reaches_of_content_none (hcascade : op.isCascade = true) {slot : Slot}
    (hcontent : slot.content = none) (key : DocKey) : m.target.reaches op key slot = false := by
  cases op with
  | deleteChildren =>
    rw [reaches]
    simp only [DocumentOp.key, hcontent, Option.any_none]
  | upsert | delete => cases hcascade

variable {origin : Origin}

/-- What one write under a key does. -/
theorem holding_write {own : DocKey} (hown : op.key = some own) {cascade : List DocumentOp}
    {log : List Emitted} (hcascade : ∀ op' ∈ cascade, ∀ key, m.target.reaches op' key
      (if own = key then writeSlot op.rank (m.target.leaves op) (m.target.holding log key)
        else m.target.holding log key) = false) :
    m.target.holding (log ++ (op :: cascade).map (.op origin)) key =
      if own = key then writeSlot op.rank (m.target.leaves op) (m.target.holding log key)
      else m.target.holding log key := by
  have hfirst : m.target.actOn op key (m.target.holding log key) =
      if own = key then writeSlot op.rank (m.target.leaves op) (m.target.holding log key)
      else m.target.holding log key := by
    rw [actOn, reaches_of_key hown]
    by_cases hkey : own = key
    · rw [if_pos (decide_eq_true hkey), if_pos hkey]
    · rw [if_neg (by simpa using hkey), if_neg hkey]
  rw [holding_append, List.map_cons, List.foldl_cons, takes, hfirst]
  exact foldl_takes_of_reaches fun op' hop' => hcascade op' hop' key

/-- **A polled row is shown once it is written**, and nothing else changes. -/
theorem slot_polled (s s' : PollState ι ρ) (halike : m.alike row = true)
    (hplace : m.place row = some key)
    (hops : ∀ target, m.engine.mapping.targetFor (m.polled row).table = some target →
      ∃ ops left, materialize target (m.polled row).table (m.polled row).kind m.engine.rules
        (m.engine.previousOf completions (m.polled row)) (m.polled row).version = .ok (ops, left))
    (hstrikes : m.strikesNothing s completions (m.polled row) = true)
    (hlog : s'.engine.log = s.engine.log ++
      (m.engine.opsOf completions (m.polled row)).map (.op origin)) :
    (m.slot s' key).content ∈ m.shown row ∧
      ∀ other, other ≠ key → m.slot s' other = m.slot s other := by
  obtain ⟨own, d, hd, hown, -, -⟩ := alike_spec halike
  obtain rfl := Option.some.inj (hplace.symm.trans hown)
  have hplain := m.plain (m.tableOf row)
  -- one operation at the row's place, and cascades that find nothing
  have hdone : ∀ op cascade, m.engine.opsOf completions (m.polled row) = op :: cascade →
      op.key = some key → op.rank = none → m.target.leaves op ∈ m.shown row →
      (∀ op' ∈ cascade, op'.isCascade = true ∧ m.target.leaves op = none) →
      (m.slot s' key).content ∈ m.shown row ∧
        ∀ other, other ≠ key → m.slot s' other = m.slot s other := by
    intro op cascade hopsOf hopKey hrank hleaves hcascade
    have hslot : ∀ k, m.slot s' k = if key = k then
        writeSlot op.rank (m.target.leaves op) (m.slot s k) else m.slot s k := by
      intro k
      rw [slot, hlog, hopsOf]
      refine holding_write hopKey fun op' hop' other => ?_
      obtain ⟨his, hnone⟩ := hcascade op' hop'
      split
      · rw [hrank, hnone]
        exact reaches_of_content_none his rfl other
      · exact reaches_of_strikesNothing hstrikes (hopsOf ▸ List.mem_cons_of_mem op hop') his other
    refine ⟨?_, fun other hne => ?_⟩
    · rw [hslot, if_pos rfl, hrank]
      exact hleaves
    · rw [hslot, if_neg (Ne.symm hne)]
  cases hlive : m.live row with
  | true =>
    simp only [live, Bool.and_eq_true, Bool.not_eq_true'] at hlive
    obtain ⟨hpresent, hkeeps⟩ := hlive
    refine hdone _ [] (polled_present hpresent ▸ Engine.opsOf_insert hplain hd hkeeps completions none) rfl rfl ?_
      fun _ hmem => absurd hmem List.not_mem_nil
    rw [shown, live, hpresent, hkeeps, hd]
    exact List.mem_cons.mpr (.inl (leaves_upsert row key d none))
  | false =>
    obtain ⟨target, -, htarget, -⟩ := Engine.documentOf_eq_some hd
    obtain ⟨ops, left, hmaterialized⟩ := hops target htarget
    have hkind : (m.polled row).kind = .delete
          (PollTable.extractPk ((m.table (m.tableOf row)).doc row)
            (m.table (m.tableOf row)).poll.pkColumns) (some ((m.table (m.tableOf row)).doc row)) ∨
        (m.polled row).kind = .insert
          (PollTable.extractPk ((m.table (m.tableOf row)).doc row)
            (m.table (m.tableOf row)).poll.pkColumns) ((m.table (m.tableOf row)).doc row) ∧
          m.engine.keeps (m.name row) ((m.table (m.tableOf row)).doc row) = false := by
      cases hgone : ((m.table (m.tableOf row)).deleted row).getD false with
      | true => exact .inl (congrArg RowChange.kind (polled_gone hgone))
      | false =>
        rw [live, hgone, Bool.not_false, Bool.true_and] at hlive
        exact .inr ⟨congrArg RowChange.kind (polled_present hgone), hlive⟩
    obtain ⟨cascade, hopsOf, hcascade⟩ := Engine.opsOf_removal hplain
      (m.named (m.tableOf row)) hd hkind htarget hmaterialized
    refine hdone _ cascade hopsOf rfl rfl ?_ fun op' hop' => ⟨hcascade op' hop', rfl⟩
    rw [shown, hlive]
    exact List.mem_singleton.mpr rfl

/-- **A copied row is shown once it is taken**, and nothing else changes. -/
theorem slot_copied (s s' : PollState ι ρ) (halike : m.alike row = true) (hlive : m.live row = true)
    (hplace : m.place row = some key) (lsn : Lsn) (hlog : s'.engine.log = s.engine.log ++
      (m.engine.opsOf completions (m.copied lsn row)).map (.op origin)) :
    ∃ content ∈ m.shown row,
      m.slot s' key = writeSlot (externalVersion (some lsn)) content (m.slot s key) ∧
      ∀ other, other ≠ key → m.slot s' other = m.slot s other := by
  obtain ⟨own, d, -, hown, -, hcopied⟩ := alike_spec halike
  obtain rfl := Option.some.inj (hplace.symm.trans hown)
  obtain ⟨d', hd', hkeeps⟩ := hcopied hlive
  have hopsOf : m.engine.opsOf completions (m.copied lsn row) =
      [.upsert key.index key.id key.routing d' (some lsn) (m.engine.rules.pipelines (m.name row))] :=
    Engine.opsOf_insert (m.plain (m.tableOf row)) hd' hkeeps completions (some lsn)
  have hslot : ∀ k, m.slot s' k = if key = k then
      writeSlot (externalVersion (some lsn)) (some (m.stored row d')) (m.slot s k)
      else m.slot s k := by
    intro k
    rw [← leaves_upsert row key d' (some lsn), slot, hlog, hopsOf]
    exact holding_write rfl fun _ hmem => absurd hmem List.not_mem_nil
  refine ⟨some (m.stored row d'), ?_, ?_, fun other hne => ?_⟩
  · rw [shown, hlive, if_pos rfl, hd']
    exact List.mem_cons_of_mem _ (List.mem_singleton.mpr rfl)
  · rw [hslot, if_pos rfl]
  · rw [hslot, if_neg (Ne.symm hne)]

end PollMode

end Pg2osync
