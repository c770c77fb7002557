import Pg2osync.Postgres

/-!
# Convergence of the PostgreSQL target

The sink answers `orders_by_version`, so batches may arrive in any order and an
older operation may be applied after a newer one. A row decides by its own
`_version`, and a deleted row has none: the table ends up reflecting the newest
operation on every id exactly when no accepted upsert that a newer delete
outranks is applied after the last such delete (`converged_iff_settles`).
-/

namespace Pg2osync

/-! ## What convergence says -/

/-- `op` is the operation on `id` with the highest position. -/
def Newest (ops : List DocumentOp) (id : String) (op : DocumentOp) : Prop :=
  op ∈ ops ∧ op.id = id ∧ ∀ other ∈ ops, other.id = id → other.position ≤ op.position

/-- A cell holds what one operation on it says: the upsert's row, or no row. -/
def PgServer.Reflects (server : PgServer) (shape : TableShape) (table : String)
    (op : DocumentOp) (cell : Option PgRow) : Prop :=
  match op with
  | .upsert _ id _ doc version _ =>
    ∃ row, server.row shape table id doc version = .ok row ∧ cell = some row
  | _ => cell = none

/-- A table has converged: for each id it holds what the newest operation on the
id says, and nothing for an id no operation is on. -/
def PgServer.Converged (server : PgServer) (shape : TableShape) (table : String)
    (ops : List DocumentOp) (rows : PgTable) : Prop :=
  ∀ id, (∀ op, Newest ops id op → server.Reflects shape table op (rows id)) ∧
    ((∀ op ∈ ops, op.id ≠ id) → rows id = none)

/-- Every accepted upsert on `id` is followed, in the order of application, by a
delete of `id` at a higher position. -/
def PgServer.UpsertsOutlived (server : PgServer) (shape : TableShape) (table id : String)
    (ops : List DocumentOp) : Prop :=
  ∀ pre up post, ops = pre ++ up :: post → up.id = id →
    (server.accepted shape table up).isSome →
      ∃ del ∈ post, del.isDelete ∧ del.id = id ∧ up.position < del.position

/-- The order of application and the server allow convergence: a newest upsert
is accepted, and under a newest delete every accepted upsert is outlived. -/
def PgServer.Settles (server : PgServer) (shape : TableShape) (table : String)
    (ops : List DocumentOp) : Prop :=
  ∀ id op, Newest ops id op →
    if op.isDelete then server.UpsertsOutlived shape table id ops
    else (server.accepted shape table op).isSome

variable {op : DocumentOp}

theorem DocumentOp.OnRow.version_eq {table : String} (h : op.OnRow table) :
    op.version = some op.position := by
  obtain ⟨v, hv, hw⟩ := Option.bind_eq_some_iff.mp h.fits
  rw [hv, ← (i64TryFrom_eq_some hw).1]

namespace PgServer

variable {server : PgServer} {shape : TableShape} {table id : String} {ops : List DocumentOp}

variable {x : Json}

theorem isDelete_of_accepted (h : server.accepted shape table op = some x) :
    op.isDelete = false := by
  cases op with
  | upsert => rfl
  | delete => cases h
  | deleteChildren => cases h

theorem effectOn_eq_put {v : ℕ} :
    server.effectOn shape table id op = some (.put v x) ↔
      op.id = id ∧ server.accepted shape table op = some x ∧ op.position = v := by
  rw [effectOn]
  by_cases hid : op.id = id
  · rcases hdel : op.isDelete with _ | _
    · rcases server.accepted shape table op with _ | y <;> simp [hid, and_comm]
    · have hnone : server.accepted shape table op ≠ some x := by
        intro h
        rw [isDelete_of_accepted h] at hdel
        cases hdel
      simp [hid, hnone]
  · simp [hid]

theorem effectOn_eq_remove {v : ℕ} :
    server.effectOn shape table id op = some (.remove v) ↔
      op.id = id ∧ op.isDelete = true ∧ op.position = v := by
  rw [effectOn]
  by_cases hid : op.id = id
  · rcases hdel : op.isDelete with _ | _
    · rcases server.accepted shape table op with _ | y <;> simp
    · simp [hid]
  · simp [hid]

/-- The live puts of a cell, in terms of the operations. -/
theorem live_effects_iff {v : ℕ} :
    Register.Live (ops.filterMap (server.effectOn shape table id)) v x ↔
      ∃ pre up post, ops = pre ++ up :: post ∧ up.id = id ∧
        server.accepted shape table up = some x ∧ up.position = v ∧
          ∀ del ∈ post, del.isDelete → del.id = id → del.position < v := by
  constructor
  · rintro ⟨ws, vs, heq, hvs⟩
    obtain ⟨pre, tail, rfl, -, htail⟩ := List.filterMap_eq_append_iff.mp heq
    obtain ⟨skipped, up, post, rfl, -, hup, hpost⟩ := List.filterMap_eq_cons_iff.mp htail
    obtain ⟨hid, hacc, hpos⟩ := effectOn_eq_put.mp hup
    refine ⟨pre ++ skipped, up, post, by simp, hid, hacc, hpos, fun del hdel hisDel hdelId => ?_⟩
    apply hvs
    rw [← hpost]
    exact List.mem_filterMap.mpr ⟨del, hdel, effectOn_eq_remove.mpr ⟨hdelId, hisDel, rfl⟩⟩
  · rintro ⟨pre, up, post, rfl, hid, hacc, hpos, hpost⟩
    refine ⟨pre.filterMap (server.effectOn shape table id), post.filterMap (server.effectOn shape table id), ?_, fun u hu => ?_⟩
    · rw [List.filterMap_append, List.filterMap_cons, effectOn_eq_put.mpr ⟨hid, hacc, hpos⟩]
    · obtain ⟨del, hdel, heff⟩ := List.mem_filterMap.mp hu
      obtain ⟨hdelId, hisDel, rfl⟩ := effectOn_eq_remove.mp heff
      exact hpost del hdel hisDel hdelId

/-- A cell that ends empty: every accepted upsert on it was outlived. Positions
are distinct, so a delete that reaches an upsert's position is above it. -/
theorem runBare_eq_none_iff_outlived (hrows : ∀ op ∈ ops, op.OnRow table)
    (hdistinct : ∀ a ∈ ops, ∀ b ∈ ops, a.version = b.version → a = b) :
    Register.runBare (ops.filterMap (server.effectOn shape table id)) = none ↔
      server.UpsertsOutlived shape table id ops := by
  rw [Register.runBare_eq_none_iff]
  constructor
  · intro hdead pre up post heq hid hacc
    obtain ⟨x, hx⟩ := Option.isSome_iff_exists.mp hacc
    by_contra hnone
    refine hdead up.position x
      (live_effects_iff.mpr ⟨pre, up, post, heq, hid, hx, rfl, fun del hdel hisDel hdelId => ?_⟩)
    have hmem : up ∈ ops := by simp [heq]
    have hmem' : del ∈ ops := by simp [heq, hdel]
    have hle : del.position ≤ up.position := by
      by_contra hlt
      exact hnone ⟨del, hdel, hisDel, hdelId, by omega⟩
    refine lt_of_le_of_ne hle fun hpos => ?_
    have hsame : del = up := hdistinct del hmem' up hmem
      (by rw [(hrows del hmem').version_eq, (hrows up hmem).version_eq, hpos])
    rw [hsame, isDelete_of_accepted hx] at hisDel
    cases hisDel
  · intro hout v x hlive
    obtain ⟨pre, up, post, heq, hid, hx, hpos, hpost⟩ := live_effects_iff.mp hlive
    obtain ⟨del, hdel, hisDel, hdelId, hlt⟩ := hout pre up post heq hid (by rw [hx]; rfl)
    have := hpost del hdel hisDel hdelId
    omega

/-- A cell whose newest operation is an accepted upsert ends with its row. -/
theorem runBare_eq_of_newest (hrows : ∀ op ∈ ops, op.OnRow table)
    (hdistinct : ∀ a ∈ ops, ∀ b ∈ ops, a.version = b.version → a = b) (hnew : Newest ops id op)
    (hacc : server.accepted shape table op = some x) :
    Register.runBare (ops.filterMap (server.effectOn shape table id)) = some (op.position, x) := by
  obtain ⟨hmem, hid, htop⟩ := hnew
  have hput : server.effectOn shape table id op = some (.put op.position x) :=
    effectOn_eq_put.mpr ⟨hid, hacc, rfl⟩
  have hon : ∀ o ∈ ops, ∀ w, server.effectOn shape table id o = some w →
      o.id = id ∧ w.version = o.position := by
    intro o _ w hw
    cases w with
    | put v y =>
      obtain ⟨hoid, -, hpos⟩ := effectOn_eq_put.mp hw
      exact ⟨hoid, hpos.symm⟩
    | remove v =>
      obtain ⟨hoid, -, hpos⟩ := effectOn_eq_remove.mp hw
      exact ⟨hoid, hpos.symm⟩
  apply Register.runBare_of_top
  · exact List.mem_filterMap.mpr ⟨op, hmem, hput⟩
  · intro w hw
    obtain ⟨o, ho, heff⟩ := List.mem_filterMap.mp hw
    obtain ⟨hoid, hv⟩ := hon o ho w heff
    rw [hv]
    exact htop o ho hoid
  · intro w hw hpos
    obtain ⟨o, ho, heff⟩ := List.mem_filterMap.mp hw
    obtain ⟨hoid, hv⟩ := hon o ho w heff
    have hsame : o = op := hdistinct o ho op hmem
      (by rw [(hrows o ho).version_eq, (hrows op hmem).version_eq, ← hv, hpos])
    rw [hsame, hput] at heff
    exact (Option.some.inj heff).symm

theorem reflects_delete (h : op.isDelete = true) (cell : Option PgRow) :
    server.Reflects shape table op cell ↔ cell = none := by
  cases op with
  | delete => exact Iff.rfl
  | upsert => cases h
  | deleteChildren => cases h

theorem row_eq_ok {doc : Json} {version : Option ℕ} {row : PgRow}
    (h : server.row shape table id doc version = .ok row) :
    row.version = version.bind i64TryFrom := by
  rw [PgServer.row] at h
  split at h
  · cases h
  · split at h
    · cases h
    · injection h with h
      rw [← h]

/-- An operation that is not a delete says its accepted row. -/
theorem reflects_upsert (hop : op.OnRow table) (hdel : op.isDelete = false) (cell : Option PgRow) :
    server.Reflects shape table op cell ↔
      ∃ x, server.accepted shape table op = some x ∧ cell = some ⟨some op.position, x⟩ := by
  cases op with
  | delete => cases hdel
  | deleteChildren => cases hop.single
  | upsert index key routing doc version pipeline =>
    have hfits : version.bind i64TryFrom = _ := hop.fits
    rw [Reflects, accepted]
    rcases hrow : server.row shape table key doc version with why | row
    · simp
    · have hrowv := row_eq_ok hrow
      rw [hfits] at hrowv
      simp only [Except.ok.injEq, exists_eq_left', Option.some.injEq]
      rw [← hrowv]

end PgServer

/-- **The PostgreSQL target converges exactly when its history settles.** The
versions of a run of upserts and deletes on one table are distinct and fit an
`i64`; the table it leaves reflects the newest operation on every id if and only
if each newest upsert is accepted and, under each newest delete, every accepted
upsert is outlived by a later-applied delete. -/
theorem PostgresSink.converged_iff_settles {sink : PostgresSink} {shape : TableShape}
    {table : String} (hshape : sink.shapes table = some shape) {batches : List (List LsnOp)}
    (hrows : ∀ op ∈ applied batches, op.OnRow table)
    (hdistinct : ∀ a ∈ applied batches, ∀ b ∈ applied batches, a.version = b.version → a = b) :
    sink.server.Converged shape table (applied batches) (sink.run batches table) ↔
      sink.server.Settles shape table (applied batches) := by
  constructor
  · intro hconv id op hnew
    have hrefl := (hconv id).1 op hnew
    rw [run_cell hshape hrows] at hrefl
    rcases hdel : op.isDelete with _ | _
    · obtain ⟨x, hx, -⟩ := (PgServer.reflects_upsert (hrows op hnew.1) hdel _).mp hrefl
      rw [if_neg (by simp), hx]
      rfl
    · rw [if_pos rfl, ← PgServer.runBare_eq_none_iff_outlived hrows hdistinct]
      exact Option.map_eq_none_iff.mp ((PgServer.reflects_delete hdel _).mp hrefl)
  · intro hset id
    rw [run_cell hshape hrows]
    refine ⟨fun op hnew => ?_, fun hnone => ?_⟩
    · have hcond := hset id op hnew
      rcases hdel : op.isDelete with _ | _
      · rw [if_neg (by simp [hdel])] at hcond
        obtain ⟨x, hx⟩ := Option.isSome_iff_exists.mp hcond
        refine (PgServer.reflects_upsert (hrows op hnew.1) hdel _).mpr ⟨x, hx, ?_⟩
        rw [PgServer.runBare_eq_of_newest hrows hdistinct hnew hx]
        rfl
      · rw [if_pos hdel, ← PgServer.runBare_eq_none_iff_outlived hrows hdistinct] at hcond
        rw [PgServer.reflects_delete hdel, hcond]
        rfl
    · have hnil : (applied batches).filterMap (sink.server.effectOn shape table id) = [] :=
        List.filterMap_eq_nil_iff.mpr fun op hop => if_neg (hnone op hop)
      rw [hnil]
      rfl

/-- A table of an id, a version and nothing else. -/
def demoShape : TableShape :=
  ⟨["id", versionColumn], "id", by decide, by decide⟩

/-- A server that takes every row as it is. -/
def demoServer : PgServer :=
  ⟨fun _ body => .ok body⟩

/-- A sink over that table. -/
def demoSink : PostgresSink :=
  ⟨demoServer, ⟨3, 100, none⟩, fun table => if table = "t" then some demoShape else none⟩

/-- The delete at position 2, and then the insert at position 1. -/
def lateInsert : List (List LsnOp) :=
  [[⟨2, .delete "t" "1" none (some 2)⟩], [⟨1, .upsert "t" "1" none (.obj []) (some 1) none⟩]]

/-- The late insert is a run whose versions are distinct and fit, and it leaves
the row its newest operation deleted. -/
theorem PostgresSink.lateInsert_not_converged :
    demoSink.shapes "t" = some demoShape ∧
      (∀ op ∈ applied lateInsert, op.OnRow "t") ∧
      (∀ a ∈ applied lateInsert, ∀ b ∈ applied lateInsert, a.version = b.version → a = b) ∧
      ¬ demoServer.Converged demoShape "t" (applied lateInsert) (demoSink.run lateInsert "t") := by
  refine ⟨rfl, ?_, by decide, fun hconv => ?_⟩
  · intro op hop
    rcases (by simpa [applied, lateInsert] using hop : op = _ ∨ op = _) with rfl | rfl <;>
      exact ⟨rfl, rfl, rfl⟩
  · have hnew : Newest (applied lateInsert) "1" (.delete "t" "1" none (some 2)) := by
      refine ⟨by decide, rfl, by decide⟩
    have hcell := (hconv "1").1 _ hnew
    have hrow : demoSink.run lateInsert "t" "1" =
        some ⟨some 1, .obj [(versionColumn, .int 1), ("id", .str "1")]⟩ := by decide
    rw [hrow] at hcell
    cases hcell

/-- `converged_iff_settles` on the same two operations in the order of their
versions. -/
theorem PostgresSink.inOrder_converged :
    demoServer.Converged demoShape "t" (applied lateInsert.reverse)
        (demoSink.run lateInsert.reverse "t") ↔
      demoServer.Settles demoShape "t" (applied lateInsert.reverse) := by
  have hshape : demoSink.shapes "t" = some demoShape := rfl
  refine PostgresSink.converged_iff_settles hshape ?_ (by decide)
  intro op hop
  rcases (by simpa [applied, lateInsert] using hop : op = _ ∨ op = _) with rfl | rfl <;>
    exact ⟨rfl, rfl, rfl⟩

end Pg2osync
