import Mathlib.Data.List.Sort
import Pg2osync.Bulk
import Pg2osync.LastWrite

/-!
# Writes to Qdrant

Qdrant takes the points of one request all together or not at all, and it orders nothing by
version. A batch is cut into runs of one kind against one collection. A run of upserts that is
refused is sent again a point at a time, so that the refusal falls on the document that caused
it, and a run that fails for now is tried again from its start.
-/

namespace Pg2osync

/-! ## Points -/

/-- What a write needs to know about one collection: the vectors it declares, by name and
dimension. -/
structure CollectionShape : Type where
  /-- the vectors -/
  vectors : List (String × ℕ)
  deriving DecidableEq, Repr

/-- `size_of`. -/
def CollectionShape.sizeOf (shape : CollectionShape) (field : String) : Option ℕ :=
  (shape.vectors.find? fun vector => vector.1 = field).map Prod.snd

/-- The payload field with the document id a point was built from. -/
def idField : String := "_pg2osync_id"

/-- The payload field with the position a point was written at. -/
def qdrantVersionField : String := "_version"

/-- `Value::is_number`. -/
def Json.isNumber : Json → Bool
  | .int _ => true
  | .float _ => true
  | _ => false

/-- One declared vector's value, or why it is not one. -/
def numericVector (field : String) (value : Json) (size : ℕ) : Except String Json :=
  match value.asArray with
  | none => .error (field ++
      " is a vector of this collection, so it has to be an array of numbers")
  | some items =>
    if items.length ≠ size then
      .error (field ++ " has " ++ toString items.length ++
        " dimensions and the collection declares " ++ toString size)
    else
      match items.find? fun item => !item.isNumber with
      | some odd => .error (field ++ " holds " ++ odd.render ++ ", which is not a number")
      | none => .ok value

/-- One field of a document, among the payload or the vectors. A vector that is not there yet
is left out. -/
def placeField (shape : CollectionShape) (acc : List (String × Json) × List (String × Json))
    (field : String × Json) : Except String (List (String × Json) × List (String × Json)) :=
  match shape.sizeOf field.1 with
  | none => .ok (Json.insertField field.1 field.2 acc.1, acc.2)
  | some size =>
    if field.2 = .null then .ok acc
    else (numericVector field.1 field.2 size).map fun vector =>
      (acc.1, Json.insertField field.1 vector acc.2)

/-- `point_body`: the point Qdrant will store, or why the document cannot be one. -/
def pointBody (pointId : String → String) (shape : CollectionShape) (id : String) (doc : Json)
    (version : Option ℕ) : Except String Json :=
  match doc.asObject with
  | none => .error "a document that is not a JSON object has no payload to write"
  | some fields => do
    let (payload, vectors) ← fields.foldlM (placeField shape) ([], [])
    let payload := Json.insertField idField (.str id) payload
    let payload := Json.insertField qdrantVersionField
      (version.elim .null fun at_ => .int at_) payload
    return .obj [("id", .str (pointId id)), ("payload", .obj payload), ("vector", .obj vectors)]

/-- What a target files a point under. -/
def filedUnder (point : Json) : String :=
  ((point.index "id").asStr).getD ""

theorem filedUnder_pointBody {pointId : String → String} {shape : CollectionShape} {id : String}
    {doc : Json} {version : Option ℕ} {point : Json}
    (h : pointBody pointId shape id doc version = .ok point) : filedUnder point = pointId id := by
  rw [pointBody] at h
  split at h
  · cases h
  · obtain ⟨split, -, h⟩ := Except.bind_eq_ok h
    cases h
    rfl

/-! ## The target -/

/-- What the collections hold, by collection and point id. -/
abbrev Points := String × String → Option Json

/-- What is done under one key: a point is stored, or there is none any more. -/
abbrev Stroke := (String × String) × Option Json

/-- `is_refusal`: the target refused the request rather than failed at it. -/
def isRefusal (status : ℕ) : Prop :=
  400 ≤ status ∧ status < 500 ∧ status ≠ 429

instance (status : ℕ) : Decidable (isRefusal status) :=
  inferInstanceAs (Decidable (_ ∧ _))

/-- What became of a request. One that failed may have been carried out all the same. -/
inductive QdrantAnswer : Type where
  /-- no answer came -/
  | unreachable (why : String) (done : Bool) : QdrantAnswer
  /-- the target answered -/
  | reply (status : ℕ) (body : Json) (done : Bool) : QdrantAnswer

/-- The target has done what the request asked for. -/
def QdrantAnswer.carriedOut : QdrantAnswer → Bool
  | .unreachable _ done => done
  | .reply status _ done => isSuccess status || (!decide (isRefusal status) && done)

/-- The target refused the request. -/
def QdrantAnswer.isRefused : QdrantAnswer → Bool
  | .unreachable _ _ => false
  | .reply status _ _ => isRefusal status

/-- What a target will answer: to the requests of each attempt at each run of a batch, and the
time since the first failure of a run. -/
structure QdrantTarget : Type where
  /-- the answer to a request -/
  answer : (run attempt request : ℕ) → QdrantAnswer
  /-- the time a run has been tried again for -/
  elapsed : (run failures : ℕ) → ℕ

/-! ## Runs -/

/-- One request's worth of work: consecutive operations of one kind against one collection,
each with its position in the batch. -/
inductive Run : Type where
  /-- points to store -/
  | upsert (index : String) (points : List (ℕ × Json)) : Run
  /-- ids of points to remove -/
  | delete (index : String) (points : List (ℕ × String)) : Run

namespace Run

/-- The collection. -/
def index : Run → String
  | .upsert index _ => index
  | .delete index _ => index

/-- `is_upsert`. -/
def isUpsert : Run → Bool
  | .upsert .. => true
  | .delete .. => false

/-- `is_empty`. -/
def isEmpty : Run → Bool
  | .upsert _ points => points.isEmpty
  | .delete _ points => points.isEmpty

/-- A run with nothing in it yet. -/
def new (index : String) : (upsert : Bool) → Run
  | true => .upsert index []
  | false => .delete index []

/-- What is done by a run, position by position. -/
def strokes : Run → List (ℕ × Stroke)
  | .upsert index points => points.map fun p => (p.1, (index, filedUnder p.2), some p.2)
  | .delete index points => points.map fun p => (p.1, (index, p.2), none)

end Run

/-- The sentence Qdrant put in the answer. -/
def refusalText (body : Json) : String :=
  (((body.index "status").index "error").asStr).getD body.render

/-- `status_error`. -/
def statusError (status : ℕ) (what : String) (body : Json) : CoreError :=
  let reason := what ++ ": " ++ toString status ++ " " ++ refusalText body
  if isRefusal status then .sink reason else .sinkTransient reason

/-- The error of a request that no answer came to. -/
def unanswered (why : String) : CoreError :=
  .sinkTransient ("request to the target failed: " ++ why)

/-- What an upsert makes of its answer: nothing was refused, or the request was and why. -/
def heard (what : String) : QdrantAnswer → Except CoreError (Option String)
  | .unreachable why _ => .error (unanswered why)
  | .reply status body _ =>
    if isSuccess status then .ok none
    else if isRefusal status then .ok (some (refusalText body))
    else .error (statusError status what body)

/-- The points of a refused run, one at a time: the refused ones, and what was stored. -/
def eachPoint (what : String) : List (ℕ × Json) → (ℕ → QdrantAnswer) →
    Except CoreError (List (ℕ × String)) × List (ℕ × Json)
  | [], _ => (.ok [], [])
  | (nth, point) :: rest, answer =>
    let stored := if (answer 0).carriedOut then [(nth, point)] else []
    match heard what (answer 0) with
    | .error e => (.error e, stored)
    | .ok none =>
      let (refused, more) := eachPoint what rest fun k => answer (k + 1)
      (refused, stored ++ more)
    | .ok (some why) =>
      let (refused, more) := eachPoint what rest fun k => answer (k + 1)
      (refused.map ((nth, why) :: ·), stored ++ more)

/-- `upsert_run`: one run of upserts, or, when the target refuses the request as a whole, the
same points one at a time. -/
def upsertRun (index : String) (points : List (ℕ × Json)) (answer : ℕ → QdrantAnswer) :
    Except CoreError (List (ℕ × String)) × List (ℕ × Json) :=
  let what := "write to " ++ index
  let stored := if (answer 0).carriedOut then points else []
  match heard what (answer 0) with
  | .error e => (.error e, stored)
  | .ok none => (.ok [], stored)
  | .ok (some _) =>
    let (refused, more) := eachPoint what points fun k => answer (k + 1)
    (refused, stored ++ more)

/-- A run of deletes, which has to have worked. -/
def deleteRun (index : String) (answer : ℕ → QdrantAnswer) :
    Except CoreError (List (ℕ × String)) :=
  match answer 0 with
  | .unreachable why _ => .error (unanswered why)
  | .reply status body _ =>
    if isSuccess status then .ok []
    else .error (statusError status ("delete from " ++ index) body)

/-- `apply_run`: one attempt at a run, and what the target did in it. -/
def applyRun (run : Run) (answer : ℕ → QdrantAnswer) :
    Except CoreError (List (ℕ × String)) × List (ℕ × Stroke) :=
  match run with
  | .upsert index points =>
    let (refused, stored) := upsertRun index points answer
    (refused, (Run.upsert index stored).strokes)
  | .delete index points =>
    (deleteRun index answer,
      if (answer 0).carriedOut then (Run.delete index points).strokes else [])

/-! ## The sink -/

/-- The sink. -/
structure QdrantSink : Type where
  /-- the id a document's point has -/
  pointId : String → String
  /-- the retry policy -/
  retry : RetryPolicy
  /-- what was read off each collection -/
  shapes : String → Option CollectionShape

namespace QdrantSink

variable (sink : QdrantSink)

/-- `shape_of`. -/
def shapeOf (index : String) : Except CoreError CollectionShape :=
  match sink.shapes index with
  | some shape => .ok shape
  | none => .error (.sink ("collection " ++ index ++ " was never prepared; every section's " ++
      "collection is created or checked before the first batch"))

/-- The error of a cascade. -/
def cascadeRefused : CoreError :=
  .sink ("a join field's cascade cannot be expressed against Qdrant, which has no parent-child " ++
    "document model; this operation should have been refused at startup")

/-- The last run, which takes the operation, if it is of its kind; else a new one. -/
def openRun (runs : List Run) (index : String) (upsert : Bool) : List Run × Run :=
  match runs.getLast? with
  | some run =>
    if run.index = index ∧ run.isUpsert = upsert then (runs.dropLast, run)
    else (runs, .new index upsert)
  | none => (runs, .new index upsert)

/-- One operation, added to a run of its kind; or the document is refused before it is sent. -/
def addTo (run : Run) (shape : CollectionShape) (nth : ℕ) :
    DocumentOp → Run × List (ℕ × String)
  | .upsert _ id _ doc version _ =>
    match run with
    | .upsert index points =>
      match pointBody sink.pointId shape id doc version with
      | .ok point => (.upsert index (points ++ [(nth, point)]), [])
      | .error why => (run, [(nth, why)])
    | run => (run, [])
  | .delete _ id _ _ =>
    match run with
    | .delete index points => (.delete index (points ++ [(nth, sink.pointId id)]), [])
    | run => (run, [])
  | .deleteChildren .. => (run, [])

/-- The runs of a batch, from its `nth` operation on, and the documents that are no points. -/
def gather : ℕ → List LsnOp → List Run × List (ℕ × String) →
    Except CoreError (List Run × List (ℕ × String))
  | _, [], acc => .ok acc
  | nth, op :: rest, (runs, refusals) =>
    if op.op.isCascade then .error cascadeRefused
    else do
      let shape ← sink.shapeOf op.op.index
      let (runs, run) := openRun runs op.op.index op.op.isUpsert
      let (run, refused) := sink.addTo run shape nth op.op
      gather (nth + 1) rest (runs ++ [run], refusals ++ refused)

/-- The runs a batch is sent in; one that every document was refused of is not sent. -/
def runsOf (batch : List LsnOp) : Except CoreError (List Run × List (ℕ × String)) :=
  (sink.gather 0 batch ([], [])).map fun (runs, refusals) =>
    (runs.filter fun run => !run.isEmpty, refusals)

/-- What the collections hold once a run has been tried a number of times. -/
def storeAfter (attempt : ℕ → List (ℕ × Stroke)) : ℕ → Points → Points
  | 0, store => store
  | n + 1, store => ((attempt n).map Prod.snd).foldl LastWrite.put (storeAfter attempt n store)

/-- A run, tried until an attempt worked: what that one refused, and how many came before. -/
def retried (target : QdrantTarget) (r : ℕ) (run : Run) :
    Except CoreError (List (ℕ × String) × ℕ) :=
  retryTransient sink.retry (target.elapsed r) fun n =>
    ((applyRun run (target.answer r n)).1).map fun refused => (refused, n)

/-- The runs one after the other, from the `r`th on. -/
def applyRuns (target : QdrantTarget) : ℕ → List Run → Points →
    Except CoreError (List (ℕ × String) × Points)
  | _, [], store => .ok ([], store)
  | r, run :: rest, store => do
    let (refused, n) ← sink.retried target r run
    let store := storeAfter (fun m => (applyRun run (target.answer r m)).2) (n + 1) store
    let (more, store) ← applyRuns target (r + 1) rest store
    return (refused ++ more, store)

/-- `sort_by_key`: the refusals in the order of their positions. -/
def byPosition (refusals : List (ℕ × String)) : List (ℕ × String) :=
  refusals.insertionSort fun a b => a.1 ≤ b.1

/-- `QdrantSink::write`, with what the collections hold when it returns. -/
def write (target : QdrantTarget) (batch : List LsnOp) (store : Points) :
    Except CoreError (SinkAck × Points) :=
  match batch.getLast? with
  | none => .error (.sink "engine must never send empty batches")
  | some last => do
    let (runs, early) ← sink.runsOf batch
    let (late, store) ← sink.applyRuns target 0 runs store
    let rejected ← rejections batch (byPosition (early ++ late))
    return (⟨last.lsn, rejected⟩, store)

/-! ## One operation at a time -/

/-- What an operation does when it is written alone and taken; none where its document is no
point of its collection. -/
def strokeOf : DocumentOp → Option Stroke
  | .upsert index id _ doc version _ =>
    (sink.shapes index).bind fun shape =>
      ((pointBody sink.pointId shape id doc version).toOption).map fun point =>
        ((index, sink.pointId id), some point)
  | .delete index id _ _ => some ((index, sink.pointId id), none)
  | .deleteChildren .. => none

/-- One operation, applied. -/
def applyOne (store : Points) (op : LsnOp) : Points :=
  match sink.strokeOf op.op with
  | some stroke => LastWrite.put store stroke
  | none => store

/-- What some operations do, by their positions. -/
def strokesFrom (nth : ℕ) (ops : List LsnOp) : List (ℕ × Stroke) :=
  (ops.zipIdx nth).filterMap fun p => (sink.strokeOf p.1.op).map fun stroke => (p.2, stroke)

/-- The positions of the operations whose documents are no points. -/
def unsent (nth : ℕ) (ops : List LsnOp) : List ℕ :=
  (ops.zipIdx nth).filterMap fun p => if sink.strokeOf p.1.op = none then some p.2 else none

variable {sink}

/-! ## The runs of a batch -/

/-- Opening a run takes nothing from the runs there are. -/
theorem openRun_strokes (runs : List Run) (index : String) (upsert : Bool) :
    (openRun runs index upsert).1.flatMap Run.strokes ++ (openRun runs index upsert).2.strokes =
        runs.flatMap Run.strokes ∧
      (openRun runs index upsert).2.index = index ∧
      (openRun runs index upsert).2.isUpsert = upsert := by
  have hnew : (Run.new index upsert).strokes = [] ∧ (Run.new index upsert).index = index ∧
      (Run.new index upsert).isUpsert = upsert := by cases upsert <;> exact ⟨rfl, rfl, rfl⟩
  rw [openRun]
  cases hlast : runs.getLast? with
  | none => exact ⟨by simp [hnew.1], hnew.2⟩
  | some run =>
    dsimp only
    split
    · next hsame =>
      refine ⟨?_, hsame⟩
      have hruns := List.dropLast_append_getLast? run hlast
      conv_rhs => rw [← hruns]
      simp
    · exact ⟨by simp [hnew.1], hnew.2⟩

variable {run : Run}

/-- An operation added to a run of its kind goes to its end, or is refused. -/
theorem addTo_strokes {shape : CollectionShape} {op : DocumentOp} (hcascade : op.isCascade = false)
    (hshape : sink.shapes op.index = some shape) (hindex : run.index = op.index)
    (hkind : run.isUpsert = op.isUpsert) (nth : ℕ) :
    (sink.addTo run shape nth op).1.strokes =
        run.strokes ++ ((sink.strokeOf op).map fun stroke => (nth, stroke)).toList ∧
      (sink.addTo run shape nth op).2.map Prod.fst =
        (if sink.strokeOf op = none then some nth else none).toList := by
  cases op with
  | upsert index id routing doc version pipeline =>
    cases run with
    | upsert index' points =>
      have hsame : index' = index := hindex
      subst hsame
      have hshape' : sink.shapes index' = some shape := hshape
      rw [addTo, strokeOf, hshape']
      cases hbody : pointBody sink.pointId shape id doc version with
      | error why => simp [hbody, Except.toOption, Run.strokes]
      | ok point => simp [hbody, Except.toOption, Run.strokes, filedUnder_pointBody hbody]
    | delete => cases hkind
  | delete index id routing version =>
    cases run with
    | upsert => cases hkind
    | delete index' points =>
      have hsame : index' = index := hindex
      subst hsame
      simp [addTo, strokeOf, Run.strokes]
  | deleteChildren => cases hcascade

variable {ops : List LsnOp}

/-- The runs do what the operations do, in their order, and leave out those that are no
points. -/
theorem gather_strokes {nth : ℕ} {acc result : List Run × List (ℕ × String)}
    (h : sink.gather nth ops acc = .ok result) :
    result.1.flatMap Run.strokes = acc.1.flatMap Run.strokes ++ sink.strokesFrom nth ops ∧
      result.2.map Prod.fst = acc.2.map Prod.fst ++ sink.unsent nth ops := by
  induction ops generalizing nth acc with
  | nil =>
    rw [gather] at h
    cases h
    simp [strokesFrom, unsent]
  | cons op rest ih =>
    obtain ⟨runs, refusals⟩ := acc
    rw [gather] at h
    cases hcascade : op.op.isCascade with
    | true => rw [hcascade, if_pos rfl] at h; cases h
    | false =>
      rw [hcascade, if_neg (by decide)] at h
      obtain ⟨shape, hshape, h⟩ := Except.bind_eq_ok h
      have hknown : sink.shapes op.op.index = some shape := by
        rw [shapeOf] at hshape
        split at hshape
        · next heq =>
          cases hshape
          exact heq
        · cases hshape
      obtain ⟨hopen, hindex, hkind⟩ := openRun_strokes runs op.op.index op.op.isUpsert
      obtain ⟨hadded, hrefused⟩ := addTo_strokes hcascade hknown hindex hkind nth
      have h : sink.gather (nth + 1) rest
          ((openRun runs op.op.index op.op.isUpsert).1 ++
            [(sink.addTo (openRun runs op.op.index op.op.isUpsert).2 shape nth op.op).1],
          refusals ++ (sink.addTo (openRun runs op.op.index op.op.isUpsert).2 shape nth
            op.op).2) = .ok result := h
      obtain ⟨hstrokes, hpositions⟩ := ih h
      constructor
      · rw [hstrokes, List.flatMap_append, List.flatMap_singleton, hadded, ← List.append_assoc,
          hopen, List.append_assoc, strokesFrom, strokesFrom, List.zipIdx_cons,
          List.filterMap_cons]
        cases sink.strokeOf op.op <;> rfl
      · rw [hpositions, List.map_append, hrefused, List.append_assoc, unsent, unsent,
          List.zipIdx_cons, List.filterMap_cons]
        by_cases hnone : sink.strokeOf op.op = none <;> simp [hnone]

/-- A run with nothing in it does nothing. -/
theorem flatMap_strokes_filter (runs : List Run) :
    (runs.filter fun run => !run.isEmpty).flatMap Run.strokes = runs.flatMap Run.strokes := by
  induction runs with
  | nil => rfl
  | cons run rest ih =>
    rw [List.filter_cons]
    cases hempty : run.isEmpty with
    | false => simp [ih]
    | true =>
      have hnone : run.strokes = [] := by
        cases run with
        | upsert index points | delete index points =>
          have hpoints : points = [] := List.isEmpty_iff.mp hempty
          simp [Run.strokes, hpoints]
      simp [ih, hnone]

variable {runs : List Run}

/-- What the runs of a batch do, and what is not sent. -/
theorem runsOf_strokes {batch : List LsnOp} {early : List (ℕ × String)}
    (h : sink.runsOf batch = .ok (runs, early)) :
    runs.flatMap Run.strokes = sink.strokesFrom 0 batch ∧
      early.map Prod.fst = sink.unsent 0 batch := by
  obtain ⟨result, hgather, heq⟩ := Except.map_eq_ok h
  cases heq
  rw [flatMap_strokes_filter]
  exact gather_strokes hgather

variable {nth i : ℕ}

theorem mem_positions :
    i ∈ (sink.strokesFrom nth ops).map Prod.fst ↔
      ∃ op, (op, i) ∈ ops.zipIdx nth ∧ (sink.strokeOf op.op).isSome := by
  simp only [strokesFrom, List.mem_map, List.mem_filterMap, Option.map_eq_some_iff]
  constructor
  · rintro ⟨_, ⟨⟨op, j⟩, hmem, stroke, hstroke, rfl⟩, rfl⟩
    exact ⟨op, hmem, by simp [hstroke]⟩
  · rintro ⟨op, hmem, hsome⟩
    obtain ⟨stroke, hstroke⟩ := Option.isSome_iff_exists.mp hsome
    exact ⟨_, ⟨(op, i), hmem, stroke, hstroke, rfl⟩, rfl⟩

theorem mem_unsent :
    i ∈ sink.unsent nth ops ↔ ∃ op, (op, i) ∈ ops.zipIdx nth ∧ sink.strokeOf op.op = none := by
  simp only [unsent, List.mem_filterMap]
  constructor
  · rintro ⟨⟨op, j⟩, hmem, hsome⟩
    by_cases hnone : sink.strokeOf op.op = none
    · rw [if_pos hnone] at hsome
      cases hsome
      exact ⟨op, hmem, hnone⟩
    · rw [if_neg hnone] at hsome
      cases hsome
  · rintro ⟨op, hmem, hnone⟩
    exact ⟨(op, i), hmem, if_pos hnone⟩

/-- A position has one operation. -/
theorem zipIdx_unique {op op' : LsnOp} (h : (op, i) ∈ ops.zipIdx nth)
    (h' : (op', i) ∈ ops.zipIdx nth) : op = op' := by
  have hget := (List.mk_mem_zipIdx_iff_le_and_getElem?_sub.mp h).2
  have hget' := (List.mk_mem_zipIdx_iff_le_and_getElem?_sub.mp h').2
  exact Option.some.inj (hget.symm.trans hget')

/-- What is not sent is not in a run. -/
theorem notMem_positions_of_unsent (h : i ∈ sink.unsent nth ops) :
    i ∉ (sink.strokesFrom nth ops).map Prod.fst := by
  obtain ⟨op, hmem, hnone⟩ := mem_unsent.mp h
  intro hsent
  obtain ⟨op', hmem', hsome⟩ := mem_positions.mp hsent
  rw [zipIdx_unique hmem hmem'] at hnone
  rw [hnone] at hsome
  cases hsome

/-- What is picked from a batch with its positions has each of them once. -/
theorem nodup_picked {β : Type} {pick : LsnOp × ℕ → Option β} {position : β → ℕ}
    (hpick : ∀ p x, pick p = some x → position x = p.2) (nth : ℕ) (ops : List LsnOp) :
    (((ops.zipIdx nth).filterMap pick).map position).Nodup := by
  have hsublist : (((ops.zipIdx nth).filterMap pick).map position).Sublist
      ((ops.zipIdx nth).map Prod.snd) := by
    generalize ops.zipIdx nth = numbered
    induction numbered with
    | nil => exact List.Sublist.refl _
    | cons p rest ih =>
      rw [List.filterMap_cons]
      cases hp : pick p with
      | none => exact ih.cons _
      | some x =>
        rw [List.map_cons, List.map_cons, hpick p x hp]
        exact ih.cons_cons _
  refine hsublist.nodup ?_
  rw [List.zipIdx_map_snd]
  exact List.nodup_range'

theorem nodup_positions (nth : ℕ) (ops : List LsnOp) :
    ((sink.strokesFrom nth ops).map Prod.fst).Nodup := by
  refine nodup_picked (fun p x hx => ?_) nth ops
  obtain ⟨stroke, -, rfl⟩ := Option.map_eq_some_iff.mp hx
  rfl

theorem nodup_unsent (nth : ℕ) (ops : List LsnOp) : (sink.unsent nth ops).Nodup := by
  rw [← List.map_id (sink.unsent nth ops)]
  refine nodup_picked (fun p i hi => ?_) nth ops
  split at hi
  · exact (Option.some.inj hi).symm
  · cases hi

/-! ## One attempt at a run -/

theorem carriedOut_of_accepted {what : String} {answer : QdrantAnswer}
    (h : heard what answer = .ok none) : answer.carriedOut = true ∧ answer.isRefused = false := by
  cases answer with
  | unreachable why done => cases h
  | reply status body done =>
    rw [heard] at h
    by_cases hsuccess : isSuccess status
    · have hnot : ¬ isRefusal status := fun hrefusal => by
        have := hsuccess.2
        have := hrefusal.1
        omega
      exact ⟨by simp [QdrantAnswer.carriedOut, hsuccess], by simp [QdrantAnswer.isRefused, hnot]⟩
    · rw [if_neg hsuccess] at h
      split at h <;> cases h

theorem not_carriedOut_of_refused {what why : String} {answer : QdrantAnswer}
    (h : heard what answer = .ok (some why)) :
    answer.carriedOut = false ∧ answer.isRefused = true := by
  cases answer with
  | unreachable why done => cases h
  | reply status body done =>
    rw [heard] at h
    by_cases hsuccess : isSuccess status
    · rw [if_pos hsuccess] at h
      cases h
    · rw [if_neg hsuccess] at h
      by_cases hrefusal : isRefusal status
      · exact ⟨by simp [QdrantAnswer.carriedOut, hsuccess, hrefusal],
          by simp [QdrantAnswer.isRefused, hrefusal]⟩
      · rw [if_neg hrefusal] at h
        cases h

/-- A point of a longer list is the first one or one of the others. -/
theorem exists_getElem?_cons {head : ℕ × Json} {rest : List (ℕ × Json)} {i : ℕ} {P : ℕ → Prop} :
    (∃ k point, (head :: rest)[k]? = some (i, point) ∧ P k) ↔
      (head.1 = i ∧ P 0) ∨ ∃ k point, rest[k]? = some (i, point) ∧ P (k + 1) := by
  constructor
  · rintro ⟨k, point, hget, hk⟩
    cases k with
    | zero =>
      cases hget
      exact Or.inl ⟨rfl, hk⟩
    | succ k => exact Or.inr ⟨k, point, hget, hk⟩
  · rintro (⟨rfl, hzero⟩ | ⟨k, point, hget, hk⟩)
    · exact ⟨0, head.2, rfl, hzero⟩
    · exact ⟨k + 1, point, hget, hk⟩

variable {refused : List (ℕ × String)} {answer : ℕ → QdrantAnswer}

/-- The points that are sent alone and not refused are stored, in their order. -/
theorem eachPoint_ok {what : String} {points stored : List (ℕ × Json)}
    (hnodup : (points.map Prod.fst).Nodup)
    (h : eachPoint what points answer = (.ok refused, stored)) :
    stored = points.filter (fun p => p.1 ∉ refused.map Prod.fst) ∧
      (refused.map Prod.fst).Nodup ∧
      ∀ i, i ∈ refused.map Prod.fst ↔
        ∃ k point, points[k]? = some (i, point) ∧ (answer k).isRefused = true := by
  induction points generalizing answer refused stored with
  | nil =>
    cases h
    simp
  | cons head rest ih =>
    obtain ⟨nth, point⟩ := head
    rw [List.map_cons, List.nodup_cons] at hnodup
    rcases hrest : eachPoint what rest (fun k => answer (k + 1)) with ⟨result, more⟩
    rw [eachPoint] at h
    simp only [hrest] at h
    cases hheard : heard what (answer 0) with
    | error e =>
      rw [hheard] at h
      cases h
    | ok heard =>
      cases heard with
      | none =>
        obtain ⟨hcarried, hnot⟩ := carriedOut_of_accepted hheard
        rw [hheard, hcarried] at h
        cases h
        obtain ⟨hmore, hdistinct, hrefused⟩ := ih hnodup.2 hrest
        have hhead : nth ∉ refused.map Prod.fst := fun hmem => by
          obtain ⟨k, point', hget, -⟩ := (hrefused nth).mp hmem
          exact hnodup.1 (List.mem_map.mpr ⟨_, List.mem_of_getElem? hget, rfl⟩)
        refine ⟨?_, hdistinct, fun i => ?_⟩
        · rw [List.filter_cons_of_pos (by simpa using hhead), ← hmore]
          rfl
        · rw [hrefused, exists_getElem?_cons, hnot]
          simp
      | some why =>
        obtain ⟨hcarried, hyes⟩ := not_carriedOut_of_refused hheard
        rw [hheard, hcarried] at h
        cases result with
        | error e => cases h
        | ok others =>
          cases h
          obtain ⟨hmore, hdistinct, hrefused⟩ := ih hnodup.2 hrest
          have hothers : ∀ i ∈ others.map Prod.fst, i ∈ rest.map Prod.fst := fun i hmem => by
            obtain ⟨k, point', hget, -⟩ := (hrefused i).mp hmem
            exact List.mem_map.mpr ⟨_, List.mem_of_getElem? hget, rfl⟩
          refine ⟨?_, ?_, fun i => ?_⟩
          · rw [List.filter_cons_of_neg (by simp), hmore]
            refine List.filter_congr fun p hp => ?_
            have hne : p.1 ≠ nth := fun heq =>
              hnodup.1 (List.mem_map.mpr ⟨p, hp, heq⟩)
            simp [hne]
          · rw [List.map_cons, List.nodup_cons]
            exact ⟨fun hmem => hnodup.1 (hothers nth hmem), hdistinct⟩
          · rw [List.map_cons, List.mem_cons, hrefused, exists_getElem?_cons, hyes]
            exact or_congr_left ⟨fun heq => ⟨heq.symm, rfl⟩, fun hboth => hboth.1.symm⟩

/-- What is stored alone is of the run. -/
theorem eachPoint_sublist (what : String) (points : List (ℕ × Json)) (answer : ℕ → QdrantAnswer) :
    (eachPoint what points answer).2.Sublist points := by
  induction points generalizing answer with
  | nil => exact List.Sublist.refl _
  | cons head rest ih =>
    have hhead : (if (answer 0).carriedOut then [head] else []).Sublist [head] := by
      split
      · exact List.Sublist.refl _
      · exact List.nil_sublist _
    rw [eachPoint]
    cases heard what (answer 0) with
    | error e => exact hhead.trans (List.singleton_sublist.mpr List.mem_cons_self)
    | ok heard =>
      cases heard with
      | none => exact hhead.append (ih _)
      | some why => exact hhead.append (ih _)

/-- The target refused an operation that it got alone, in an attempt at a run. -/
def RefusedAlone (run : Run) (answer : ℕ → QdrantAnswer) (i : ℕ) : Prop :=
  ∃ index points k point, run = .upsert index points ∧ points[k]? = some (i, point) ∧
    (answer 0).isRefused = true ∧ (answer (k + 1)).isRefused = true

/-- An attempt that worked has done all of the run but what was refused alone. -/
theorem applyRun_ok (hnodup : (run.strokes.map Prod.fst).Nodup)
    (h : (applyRun run answer).1 = .ok refused) :
    (applyRun run answer).2 = run.strokes.filter (fun p => p.1 ∉ refused.map Prod.fst) ∧
      (refused.map Prod.fst).Nodup ∧
      ∀ i, i ∈ refused.map Prod.fst ↔ RefusedAlone run answer i := by
  cases run with
  | upsert index points =>
    rw [applyRun] at h ⊢
    rw [upsertRun] at h ⊢
    cases hheard : heard ("write to " ++ index) (answer 0) with
    | error e =>
      simp only [hheard] at h
      cases h
    | ok heard =>
      cases heard with
      | none =>
        obtain ⟨hcarried, hnot⟩ := carriedOut_of_accepted hheard
        simp only [hheard] at h
        cases h
        refine ⟨by simp [hcarried], List.nodup_nil, fun i => ?_⟩
        simp [RefusedAlone, hnot]
      | some why =>
        obtain ⟨hcarried, hyes⟩ := not_carriedOut_of_refused hheard
        rcases heach : eachPoint ("write to " ++ index) points (fun k => answer (k + 1)) with
          ⟨result, more⟩
        simp only [hheard, heach] at h ⊢
        have hpositions : (points.map Prod.fst).Nodup := by
          simpa [Run.strokes, Function.comp_def] using hnodup
        obtain ⟨hmore, hdistinct, hrefused⟩ := eachPoint_ok hpositions (h ▸ heach)
        refine ⟨?_, hdistinct, fun i => ?_⟩
        · simp [hcarried, hmore, Run.strokes, List.filter_map, Function.comp_def]
        · rw [hrefused]
          constructor
          · rintro ⟨k, point, hget, hk⟩
            exact ⟨index, points, k, point, rfl, hget, hyes, hk⟩
          · rintro ⟨index', points', k, point, heq, hget, -, hk⟩
            cases heq
            exact ⟨k, point, hget, hk⟩
  | delete index points =>
    have hdone : (answer 0).carriedOut = true ∧ refused = [] := by
      rw [applyRun] at h
      cases hanswer : answer 0 with
      | unreachable why done =>
        rw [deleteRun, hanswer] at h
        cases h
      | reply status body done =>
        rw [deleteRun, hanswer] at h
        by_cases hsuccess : isSuccess status
        · simp only [if_pos hsuccess] at h
          cases h
          exact ⟨by simp [QdrantAnswer.carriedOut, hsuccess], rfl⟩
        · simp only [if_neg hsuccess] at h
          cases h
    obtain ⟨hcarried, rfl⟩ := hdone
    refine ⟨by simp [applyRun, hcarried], List.nodup_nil, fun i => ?_⟩
    simp [RefusedAlone]

/-- What is done in an attempt is of the run. -/
theorem applyRun_sublist (run : Run) (answer : ℕ → QdrantAnswer) :
    (applyRun run answer).2.Sublist run.strokes := by
  cases run with
  | upsert index points =>
    have hstored : (upsertRun index points answer).2.Sublist points := by
      rw [upsertRun]
      cases hheard : heard ("write to " ++ index) (answer 0) with
      | error e =>
        dsimp only
        split
        · exact List.Sublist.refl _
        · exact List.nil_sublist _
      | ok heard =>
        cases heard with
        | none =>
          dsimp only
          split
          · exact List.Sublist.refl _
          · exact List.nil_sublist _
        | some why =>
          rw [(not_carriedOut_of_refused hheard).1]
          exact eachPoint_sublist _ points _
    exact hstored.map _
  | delete index points =>
    rw [applyRun]
    dsimp only
    split
    · exact List.Sublist.refl _
    · exact List.nil_sublist _

/-! ## All the attempts at a run -/

/-- No attempt at a run is refused a point alone that an earlier one has stored. -/
def SteadyOn (run : Run) (answers : ℕ → ℕ → QdrantAnswer) : Prop :=
  ∀ n refused, (applyRun run (answers n)).1 = .ok refused →
    ∀ m < n, ∀ p ∈ (applyRun run (answers m)).2, p.1 ∉ refused.map Prod.fst

/-- After an attempt that worked the collections hold what that one has done, whatever became of
those before it. -/
theorem storeAfter_ok {answers : ℕ → ℕ → QdrantAnswer} {n : ℕ}
    (hnodup : (run.strokes.map Prod.fst).Nodup) (hsteady : SteadyOn run answers)
    (h : (applyRun run (answers n)).1 = .ok refused) (store : Points) :
    storeAfter (fun m => (applyRun run (answers m)).2) (n + 1) store =
      ((run.strokes.filter fun p => p.1 ∉ refused.map Prod.fst).map Prod.snd).foldl
        LastWrite.put store := by
  obtain ⟨hdone, -, -⟩ := applyRun_ok hnodup h
  rw [storeAfter, hdone]
  refine LastWrite.foldl_put_congr fun key hkey => ?_
  -- by induction on the attempts before: none of them did anything elsewhere
  have hbefore : ∀ m ≤ n,
      storeAfter (fun m => (applyRun run (answers m)).2) m store key = store key := by
    intro m hm
    induction m with
    | zero => rfl
    | succ m ih =>
      rw [storeAfter, LastWrite.foldl_put_of_notMem, ih (by omega)]
      intro hmem
      rw [List.map_map, List.mem_map] at hmem
      obtain ⟨p, hp, rfl⟩ := hmem
      refine hkey ?_
      rw [List.map_map, List.mem_map]
      have hkept := hsteady n refused h m (by omega) p hp
      exact ⟨p, List.mem_filter.mpr ⟨(applyRun_sublist run (answers m)).subset hp,
        by simpa using hkept⟩, rfl⟩
  exact hbefore n le_rfl

variable {target : QdrantTarget}

/-- The attempt that a run ended with worked. -/
theorem retried_ok {r n : ℕ} (h : sink.retried target r run = .ok (refused, n)) :
    (applyRun run (target.answer r n)).1 = .ok refused := by
  obtain ⟨m, hm⟩ := retryTransient_eq_ok h
  obtain ⟨found, hfound, heq⟩ := Except.map_eq_ok hm
  cases heq
  exact hfound

/-- What is refused alone is of the run. -/
theorem mem_strokes_of_refusedAlone {i : ℕ} (h : RefusedAlone run answer i) :
    i ∈ run.strokes.map Prod.fst := by
  obtain ⟨index, points, k, point, rfl, hget, -, -⟩ := h
  rw [Run.strokes, List.map_map, List.mem_map]
  exact ⟨(i, point), List.mem_of_getElem? hget, rfl⟩

/-! ## All the runs of a batch -/

/-- The last attempt at one of the runs was refused an operation alone. -/
def RefusedLast (sink : QdrantSink) (target : QdrantTarget) (r : ℕ) (runs : List Run) (i : ℕ) :
    Prop :=
  ∃ k run refused n, runs[k]? = some run ∧ sink.retried target (r + k) run = .ok (refused, n) ∧
    RefusedAlone run (target.answer (r + k) n) i

/-- No attempt at any of the runs is refused a point alone that an earlier one has stored. -/
def Steady (target : QdrantTarget) (r : ℕ) (runs : List Run) : Prop :=
  ∀ k run, runs[k]? = some run → SteadyOn run (target.answer (r + k))

theorem refusedLast_cons {r n : ℕ} {rest : List Run}
    (h : sink.retried target r run = .ok (refused, n)) (i : ℕ) :
    sink.RefusedLast target r (run :: rest) i ↔
      RefusedAlone run (target.answer r n) i ∨ sink.RefusedLast target (r + 1) rest i := by
  constructor
  · rintro ⟨k, run', refused', n', hget, hretried, halone⟩
    cases k with
    | zero =>
      cases hget
      have hsame := hretried.symm.trans h
      cases hsame
      exact Or.inl halone
    | succ k =>
      rw [← Nat.add_assoc, Nat.add_right_comm] at hretried halone
      exact Or.inr ⟨k, run', refused', n', hget, hretried, halone⟩
  · rintro (halone | ⟨k, run', refused', n', hget, hretried, halone⟩)
    · exact ⟨0, run, refused, n, rfl, h, halone⟩
    · rw [Nat.add_right_comm, Nat.add_assoc] at hretried halone
      exact ⟨k + 1, run', refused', n', hget, hretried, halone⟩

theorem mem_strokes_of_refusedLast {r : ℕ} {i : ℕ} (h : sink.RefusedLast target r runs i) :
    i ∈ (runs.flatMap Run.strokes).map Prod.fst := by
  obtain ⟨k, run, refused, n, hget, -, halone⟩ := h
  obtain ⟨stroke, hstroke, heq⟩ := List.mem_map.mp (mem_strokes_of_refusedAlone halone)
  exact List.mem_map.mpr
    ⟨stroke, List.mem_flatMap.mpr ⟨run, List.mem_of_getElem? hget, hstroke⟩, heq⟩

/-- The runs have done what they are to do, but for what the last attempt at one was refused
alone. -/
theorem applyRuns_ok {r : ℕ} {store store' : Points} {late : List (ℕ × String)}
    (hnodup : ((runs.flatMap Run.strokes).map Prod.fst).Nodup) (hsteady : Steady target r runs)
    (h : sink.applyRuns target r runs store = .ok (late, store')) :
    store' = (((runs.flatMap Run.strokes).filter fun p => p.1 ∉ late.map Prod.fst).map
        Prod.snd).foldl LastWrite.put store ∧
      (late.map Prod.fst).Nodup ∧
      ∀ i, i ∈ late.map Prod.fst ↔ sink.RefusedLast target r runs i := by
  induction runs generalizing r store late with
  | nil =>
    rw [applyRuns] at h
    cases h
    refine ⟨rfl, List.nodup_nil, fun i => ?_⟩
    simp [RefusedLast]
  | cons run rest ih =>
    rw [applyRuns] at h
    obtain ⟨⟨refused, n⟩, hretried, h⟩ := Except.bind_eq_ok h
    obtain ⟨⟨more, last⟩, hrest, h⟩ := Except.bind_eq_ok h
    cases h
    rw [List.flatMap_cons, List.map_append, List.nodup_append] at hnodup
    obtain ⟨hhere, hthere, hapart⟩ := hnodup
    have hattempt := retried_ok hretried
    have hfirst : SteadyOn run (target.answer r) := hsteady 0 run rfl
    obtain ⟨hstore, hdistinct, hmore⟩ := ih hthere
      (fun k run' hget => by
        have := hsteady (k + 1) run' hget
        rwa [← Nat.add_assoc, Nat.add_right_comm] at this) hrest
    obtain ⟨-, hdistinct', hrefused⟩ := applyRun_ok hhere hattempt
    have hleft : ∀ i ∈ refused.map Prod.fst, i ∈ run.strokes.map Prod.fst := fun i hi =>
      mem_strokes_of_refusedAlone ((hrefused i).mp hi)
    have hright : ∀ i ∈ more.map Prod.fst, i ∈ (rest.flatMap Run.strokes).map Prod.fst :=
      fun i hi => mem_strokes_of_refusedLast ((hmore i).mp hi)
    refine ⟨?_, ?_, fun i => ?_⟩
    · rw [hstore, storeAfter_ok hhere hfirst hattempt, ← List.foldl_append,
        ← List.map_append, List.flatMap_cons, List.filter_append]
      congr 3
      · refine List.filter_congr fun p hp => ?_
        have hnot : p.1 ∉ more.map Prod.fst := fun hmem =>
          hapart p.1 (List.mem_map.mpr ⟨p, hp, rfl⟩) p.1 (hright p.1 hmem) rfl
        simp only [List.map_append, List.mem_append, hnot, or_false]
      · refine List.filter_congr fun p hp => ?_
        have hnot : p.1 ∉ refused.map Prod.fst := fun hmem =>
          hapart p.1 (hleft p.1 hmem) p.1 (List.mem_map.mpr ⟨p, hp, rfl⟩) rfl
        simp only [List.map_append, List.mem_append, hnot, false_or]
    · rw [List.map_append, List.nodup_append]
      exact ⟨hdistinct', hdistinct, fun i hi j hj => hapart i (hleft i hi) j (hright j hj)⟩
    · rw [List.map_append, List.mem_append, hrefused, hmore, refusedLast_cons hretried]

/-! ## The batch -/

theorem byPosition_perm (refusals : List (ℕ × String)) :
    (byPosition refusals).Perm refusals :=
  List.perm_insertionSort _ refusals

/-- Positions that occur once come out in ascending order. -/
theorem byPosition_ascending {refusals : List (ℕ × String)}
    (hnodup : (refusals.map Prod.fst).Nodup) :
    ((byPosition refusals).map Prod.fst).Pairwise (· < ·) := by
  have : Std.Total fun a b : ℕ × String => a.1 ≤ b.1 := ⟨fun a b => le_total a.1 b.1⟩
  have : IsTrans (ℕ × String) fun a b => a.1 ≤ b.1 := ⟨fun _ _ _ => le_trans⟩
  have hsorted := List.pairwise_insertionSort (fun a b : ℕ × String => a.1 ≤ b.1) refusals
  have hdistinct : ((byPosition refusals).map Prod.fst).Nodup :=
    ((byPosition_perm refusals).map Prod.fst).nodup_iff.mpr hnodup
  rw [List.pairwise_map]
  rw [List.nodup_iff_pairwise_ne, List.pairwise_map] at hdistinct
  exact (hsorted.and hdistinct).imp fun hboth => lt_of_le_of_ne hboth.1 hboth.2

/-- The strokes of the operations that are left, one at a time. -/
theorem foldl_strokesFrom (sink : QdrantSink) (left : ℕ → Bool) (nth : ℕ) (ops : List LsnOp)
    (hleft : ∀ i ∈ sink.unsent nth ops, left i = false) (store : Points) :
    (((sink.strokesFrom nth ops).filter fun p => left p.1).map Prod.snd).foldl LastWrite.put store =
      (((ops.zipIdx nth).filter fun p => left p.2).map Prod.fst).foldl sink.applyOne store := by
  induction ops generalizing nth store with
  | nil => rfl
  | cons op rest ih =>
    rw [unsent, List.zipIdx_cons, List.filterMap_cons] at hleft
    rw [strokesFrom, List.zipIdx_cons, List.filterMap_cons, List.filter_cons]
    dsimp only at hleft ⊢
    cases hstroke : sink.strokeOf op.op with
    | none =>
      rw [if_pos hstroke] at hleft
      have hout : left nth = false := hleft nth List.mem_cons_self
      rw [hout]
      exact ih (nth + 1) (fun i hi => hleft i (List.mem_cons_of_mem _ hi)) store
    | some stroke =>
      rw [if_neg (by simp [hstroke])] at hleft
      dsimp only [Option.map_some]
      rw [List.filter_cons]
      cases hin : left nth with
      | false => exact ih (nth + 1) hleft store
      | true =>
        have hone : LastWrite.put store stroke = sink.applyOne store op := by
          rw [applyOne, hstroke]
        simp only [if_true, List.map_cons, List.foldl_cons, hone]
        exact ih (nth + 1) hleft (sink.applyOne store op)

/-- An operation was refused: its document is no point, or the last attempt at its run was
refused it alone. -/
def Refused (sink : QdrantSink) (target : QdrantTarget) (batch : List LsnOp) (i : ℕ) : Prop :=
  (∃ op, batch[i]? = some op ∧ sink.strokeOf op.op = none) ∨
    ∃ runs early, sink.runsOf batch = .ok (runs, early) ∧ sink.RefusedLast target 0 runs i

/-- The collections hold what the operations that are not among some refused ones leave, one at
a time. -/
def Applied (sink : QdrantSink) (batch : List LsnOp) (refusals : List (ℕ × String))
    (store store' : Points) : Prop :=
  store' = ((batch.zipIdx.filter fun p => p.2 ∉ refusals.map Prod.fst).map Prod.fst).foldl
    sink.applyOne store

/-- **A write that succeeds has applied the batch but for the rejected operations, each of them
refused and named once, in order,** unless an attempt was refused a point alone that an earlier
attempt at the run has stored. -/
theorem write_applied (sink : QdrantSink) (target : QdrantTarget) (batch : List LsnOp)
    (store store' : Points) (ack : SinkAck)
    (hsteady : ∀ runs early, sink.runsOf batch = .ok (runs, early) → Steady target 0 runs)
    (h : sink.write target batch store = .ok (ack, store')) :
    ∃ refusals, rejections batch refusals = .ok ack.rejected ∧
      (refusals.map Prod.fst).Pairwise (· < ·) ∧
      (∀ i, i ∈ refusals.map Prod.fst ↔ sink.Refused target batch i) ∧
      sink.Applied batch refusals store store' := by
  rw [write] at h
  split at h
  · cases h
  · obtain ⟨⟨runs, early⟩, hruns, h⟩ := Except.bind_eq_ok h
    obtain ⟨⟨late, last⟩, happlied, h⟩ := Except.bind_eq_ok h
    obtain ⟨rejected, hrejected, h⟩ := Except.bind_eq_ok h
    cases h
    obtain ⟨hstrokes, hearly⟩ := runsOf_strokes hruns
    have hpositions : ((runs.flatMap Run.strokes).map Prod.fst).Nodup :=
      hstrokes ▸ nodup_positions 0 batch
    obtain ⟨hstore, hdistinct, hlate⟩ := applyRuns_ok hpositions (hsteady runs early hruns) happlied
    have hmem : ∀ i, i ∈ (byPosition (early ++ late)).map Prod.fst ↔
        i ∈ sink.unsent 0 batch ∨ i ∈ late.map Prod.fst := fun i => by
      rw [((byPosition_perm _).map Prod.fst).mem_iff, List.map_append, List.mem_append, hearly]
    refine ⟨byPosition (early ++ late), hrejected, byPosition_ascending ?_, fun i => ?_, ?_⟩
    · rw [List.map_append, List.nodup_append, hearly]
      refine ⟨nodup_unsent 0 batch, hdistinct, fun i hi j hj heq => ?_⟩
      have hsent := mem_strokes_of_refusedLast ((hlate j).mp hj)
      rw [hstrokes, ← heq] at hsent
      exact notMem_positions_of_unsent hi hsent
    · rw [hmem, hlate, mem_unsent, Refused]
      refine or_congr (exists_congr fun op => ?_) ?_
      · rw [List.mk_mem_zipIdx_iff_getElem?]
      · constructor
        · exact fun hrefused => ⟨runs, early, hruns, hrefused⟩
        · rintro ⟨runs', early', hruns', hrefused⟩
          have hsame := hruns'.symm.trans hruns
          cases hsame
          exact hrefused
    · rw [Applied, hstore, hstrokes]
      have hfilter : (sink.strokesFrom 0 batch).filter (fun p => p.1 ∉ late.map Prod.fst) =
          (sink.strokesFrom 0 batch).filter fun p =>
            p.1 ∉ (byPosition (early ++ late)).map Prod.fst := by
        refine List.filter_congr fun p hp => ?_
        have hsent : p.1 ∉ sink.unsent 0 batch := fun hunsent =>
          notMem_positions_of_unsent hunsent (List.mem_map.mpr ⟨p, hp, rfl⟩)
        rw [decide_eq_decide, hmem]
        simp [hsent]
      rw [hfilter]
      refine foldl_strokesFrom sink
        (fun i => decide (i ∉ (byPosition (early ++ late)).map Prod.fst)) 0 batch ?_ store
      intro i hi
      rw [decide_eq_false_iff_not, not_not, hmem]
      exact Or.inl hi

/-- A sink of collections without vectors, whose points have the ids of their documents. -/
def plain : QdrantSink :=
  ⟨id, ⟨5, 1, none⟩, fun _ => some ⟨[]⟩⟩

/-- Two new users. -/
def twoUsers : List LsnOp :=
  [⟨7, .upsert "users" "a" none (.obj []) (some 7) none⟩,
    ⟨7, .upsert "users" "b" none (.obj []) (some 7) none⟩]

/-- The run of the two. -/
def usersRun : Run :=
  .upsert "users" [
    (0, .obj [("id", .str "a"),
      ("payload", .obj [("_pg2osync_id", .str "a"), ("_version", .int 7)]), ("vector", .obj [])]),
    (1, .obj [("id", .str "b"),
      ("payload", .obj [("_pg2osync_id", .str "b"), ("_version", .int 7)]), ("vector", .obj [])])]

/-- A target that answers with these statuses, the same in every attempt, and then takes all. -/
def answering (statuses : List ℕ) : QdrantTarget :=
  ⟨fun _ _ k => .reply ((statuses[k]?).getD 200) .null false, fun _ _ => 0⟩

theorem runsOf_twoUsers : plain.runsOf twoUsers = .ok ([usersRun], []) := by rfl

/-- A target that takes the first user alone and refuses the second. -/
theorem write_applied_twoUsers :
    ∃ refusals, rejections twoUsers refusals =
        .ok [⟨"users", "b", "null", 7, .upsert "users" "b" none (.obj []) (some 7) none⟩] ∧
      (refusals.map Prod.fst).Pairwise (· < ·) ∧
      (∀ i, i ∈ refusals.map Prod.fst ↔
        plain.Refused (answering [400, 200, 400]) twoUsers i) ∧
      plain.Applied twoUsers refusals (fun _ => none)
        (Function.update (fun _ => none) ("users", "a") (some (.obj [("id", .str "a"),
          ("payload", .obj [("_pg2osync_id", .str "a"), ("_version", .int 7)]),
          ("vector", .obj [])]))) :=
  write_applied plain (answering [400, 200, 400]) twoUsers (fun _ => none) _ ⟨7, _⟩
    (fun runs early hruns => by
      rw [runsOf_twoUsers] at hruns
      cases hruns
      intro k run hget n refused hrefused m hm p hp
      cases k with
      | succ k => cases hget
      | zero =>
        cases hget
        cases hrefused
        obtain rfl := List.mem_singleton.mp hp
        decide)
    (by rfl)

/-- A target that refuses the two together, takes the first, is too busy for the second, and then
refuses the first and takes the second. -/
def fickle : QdrantTarget where
  answer _ n k :=
    match n, k with
    | 0, 0 => .reply 400 .null false
    | 0, 1 => .reply 200 .null false
    | 0, 2 => .reply 429 .null false
    | 1, 0 => .reply 400 .null false
    | 1, 1 => .reply 400 .null false
    | _, _ => .reply 200 .null false
  elapsed _ _ := 0

/-- The rejected document is stored all the same: an attempt that failed had stored it. -/
theorem write_not_applied :
    ¬ ∀ (sink : QdrantSink) (target : QdrantTarget) (batch : List LsnOp) (store store' : Points)
        (ack : SinkAck), Function.Injective sink.pointId →
      sink.write target batch store = .ok (ack, store') →
      ∃ refusals, rejections batch refusals = .ok ack.rejected ∧
        sink.Applied batch refusals store store' := by
  intro h
  obtain ⟨refusals, hrejected, happlied⟩ := h plain fickle twoUsers (fun _ => none) _
    ⟨7, [⟨"users", "a", "null", 7, .upsert "users" "a" none (.obj []) (some 7) none⟩]⟩
    Function.injective_id (by rfl)
  have hfirst : 0 ∈ refusals.map Prod.fst := by
    cases refusals with
    | nil => cases hrejected
    | cons refusal rest =>
      obtain ⟨i, why⟩ := refusal
      obtain ⟨first, hone, hothers⟩ := Except.bind_eq_ok hrejected
      obtain ⟨others, -, heq⟩ := Except.bind_eq_ok hothers
      cases heq
      have hid := congrArg (fun r => r.toOption.map Rejection.docId) hone
      rcases i with - | - | i
      · exact List.mem_cons_self
      · exact absurd hid (by decide : some "b" ≠ some "a")
      · cases hone
  have hstored := congrFun happlied ("users", "a")
  have hkept : (twoUsers.zipIdx.filter fun p => p.2 ∉ refusals.map Prod.fst).map Prod.fst =
      if 1 ∈ refusals.map Prod.fst then [] else twoUsers.tail := by
    rw [twoUsers, List.zipIdx_cons, List.zipIdx_cons, List.zipIdx_nil,
      List.filter_cons_of_neg (by simpa using hfirst)]
    by_cases hsecond : 1 ∈ refusals.map Prod.fst
    · rw [if_pos hsecond, List.filter_cons_of_neg (by simpa using hsecond)]
      rfl
    · rw [if_neg hsecond, List.filter_cons_of_pos (by simpa using hsecond)]
      rfl
  rw [hkept] at hstored
  split at hstored <;> cases hstored

end QdrantSink

end Pg2osync
