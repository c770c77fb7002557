import Mathlib.Data.List.Infix
import Mathlib.Data.Nat.Basic
import Pg2osync.Sink

/-!
# Bulk writes

OpenSearch and Elasticsearch take a batch as one bulk request, one action for
each operation in order, and answer with one item for each action. Both sinks
read the answer the same way: an HTTP status that says to try again, a body that
does not say `"errors": true` (everything was taken), or a triage of the items.

A cascade is not a bulk action, so `write` cuts the batch into runs between
cascades and pairs a refused item with its operation by position.
-/

namespace Pg2osync

/-! ## The request -/

/-- One action of a bulk request. A version goes out with the version type
`external_gte`: the target takes the action when it holds nothing newer. -/
inductive BulkOperation : Type where
  /-- store a document -/
  | index (doc : Json) (id index : String) (routing pipeline : Option String)
      (version : Option ℕ) : BulkOperation
  /-- remove a document -/
  | delete (id index : String) (routing : Option String) (version : Option ℕ) : BulkOperation
  deriving DecidableEq, Repr

/-- One operation as its bulk action. A cascade reaching here is a bug in the
caller and is reported as such. -/
def bulkAction : DocumentOp → Except CoreError BulkOperation
  | .upsert index id routing doc version pipeline =>
    .ok (.index doc id index routing pipeline (externalVersion version))
  | .delete index id routing version => .ok (.delete id index routing (externalVersion version))
  | .deleteChildren index _ _ parentId _ =>
    .error (.sink ("the cascade for " ++ index ++ "/" ++ parentId ++
      " reached a bulk request; write must run it between bulk requests"))

/-! ## The answer -/

/-- What became of a bulk request: no answer, or a status and a body that parses
or does not. -/
inductive BulkAnswer : Type where
  /-- the request failed -/
  | unreachable (why : String) : BulkAnswer
  /-- the target answered -/
  | reply (status : ℕ) (body : Except String Json) : BulkAnswer

/-- Whether a text contains another. -/
def containsText (text part : String) : Bool :=
  decide (part.toList <:+: text.toList)

/-- The outcome of an item, whatever action names it. -/
def itemEntry (item : Json) : Json :=
  match item.asObject with
  | some ((_, entry) :: _) => entry
  | _ => .null

/-- `item.status`, zero where there is none. -/
def itemStatus (entry : Json) : ℕ :=
  ((entry.index "status").asU64).getD 0

/-- Whether a bulk item is a delete that found nothing to delete. -/
def isAbsent (item : Json) : Bool :=
  let entry := item.index "delete"
  (entry.index "result").asStr = some "not_found" ||
    ((entry.index "error").index "type").asStr = some "index_not_found_exception"

/-- The refusal `require_alias` produced, if that is what this bulk item is. -/
def requireAliasRefusal (entry : Json) : Option String :=
  let error := entry.index "error"
  if (error.index "type").asStr = some "index_not_found_exception" then
    match (error.index "reason").asStr with
    | some reason =>
      if containsText reason "[require_alias]" then
        let index := (((error.index "index").asStr).orElse
          fun _ => (entry.index "_index").asStr).getD "the target index"
        some (index ++ " is not an alias; with require_alias every write must go through one")
      else none
    | none => none
  else none

/-- A status in `200..300`. -/
def isSuccess (status : ℕ) : Prop :=
  200 ≤ status ∧ status < 300

instance (status : ℕ) : Decidable (isSuccess status) :=
  inferInstanceAs (Decidable (_ ∧ _))

/-- A status that says to try again. -/
def isBusy (status : ℕ) : Prop :=
  status = 429 ∨ 500 ≤ status

instance (status : ℕ) : Decidable (isBusy status) :=
  inferInstanceAs (Decidable (_ ∨ _))

/-- What the triage makes of one item. -/
inductive Verdict : Type where
  /-- the whole request is to be tried again -/
  | retryable : Verdict
  /-- the document was refused, and why -/
  | refused (reason : String) : Verdict
  /-- there is nothing to do about it -/
  | settled : Verdict
  deriving DecidableEq, Repr

/-- The triage of one item. -/
def verdict (item : Json) : Verdict :=
  let entry := itemEntry item
  let status := itemStatus entry
  let errorType := (((entry.index "error").index "type").asStr).getD "unknown"
  if isBusy status then .retryable
  else match requireAliasRefusal entry with
    | some reason => .refused reason
    | none =>
      if errorType = "version_conflict_engine_exception" then .settled
      else if isAbsent item then .settled
      else if isSuccess status then .settled
      else .refused (match ((entry.index "error").index "reason").asStr with
        | some reason => errorType ++ ": " ++ reason
        | none => "http " ++ toString status)

/-- The items from the `nth` on: the position and reason of each refused one. -/
def refusedFrom : ℕ → List Json → List (ℕ × String)
  | _, [] => []
  | nth, item :: rest =>
    match verdict item with
    | .refused reason => (nth, reason) :: refusedFrom (nth + 1) rest
    | _ => refusedFrom (nth + 1) rest

/-- The items of an answer's body. -/
def items (body : Json) : List Json :=
  ((body.index "items").asArray).getD []

/-- What an answer makes of a batch that ends at `maxLsn`. -/
def readAnswer (maxLsn : Lsn) : BulkAnswer → Except CoreError (Lsn × List (ℕ × String))
  | .unreachable why => .error (.sinkTransient ("bulk request failed: " ++ why))
  | .reply status body =>
    if isBusy status then .error (.sinkTransient ("http status " ++ toString status))
    else match body with
      | .error why => .error (.sink why)
      | .ok body =>
        if body.index "errors" ≠ .bool true then .ok (maxLsn, [])
        else if (items body).any fun item => verdict item = .retryable then
          .error (.sinkTransient "item-level 429/5xx in bulk response")
        else .ok (maxLsn, refusedFrom 0 (items body))

/-- One bulk request: how far it got and, for each document the target refused
permanently, its position in the batch and why. -/
def bulkOnce (batch : List LsnOp) (answer : BulkAnswer) :
    Except CoreError (Lsn × List (ℕ × String)) := do
  let _ ← batch.mapM fun op => bulkAction op.op
  readAnswer ((batch.getLast?.map LsnOp.lsn).getD 0) answer

/-- `OpenSearchSink::bulk_once`. -/
def OpenSearchSink.bulkOnce (batch : List LsnOp) (answer : BulkAnswer) :
    Except CoreError (Lsn × List (ℕ × String)) :=
  Pg2osync.bulkOnce batch answer

/-- `ElasticsearchSink::bulk_once`: the request is built by hand, the answer is
read the same way. -/
def ElasticsearchSink.bulkOnce (batch : List LsnOp) (answer : BulkAnswer) :
    Except CoreError (Lsn × List (ℕ × String)) :=
  Pg2osync.bulkOnce batch answer

/-! ## A whole batch -/

/-- The target during one `write`: what creating the indices of the batch came
to, the answer to the bulk request that starts at a position after so many
failures and the time since the first of them, and what the cascade at a
position came to. -/
structure BulkTarget : Type where
  /-- `ensure_batch_indexes` -/
  ensured : Except CoreError Unit
  /-- the answer to each attempt of each request -/
  answer : (start failures : ℕ) → BulkAnswer
  /-- the time between a request's first failure and its `n`-th -/
  elapsed : (start failures : ℕ) → ℕ
  /-- `delete_children` for the cascade at a position -/
  cascade : (nth : ℕ) → Except CoreError Unit

/-- `bulk_with_retry` on the run of a batch from `start` to `stop`: the refused
positions, put back where the batch has them. -/
def bulkWithRetry (retry : RetryPolicy) (target : BulkTarget) (batch : List LsnOp)
    (start stop : ℕ) : Except CoreError (List (ℕ × String)) := do
  let (_, refused) ← retryTransient retry (target.elapsed start) fun failures =>
    bulkOnce ((batch.drop start).take (stop - start)) (target.answer start failures)
  return refused.map fun (i, why) => (start + i, why)

/-- The run from `start` to `stop`, written unless it is empty. -/
def bulkRun (retry : RetryPolicy) (target : BulkTarget) (batch : List LsnOp) (start stop : ℕ) :
    Except CoreError (List (ℕ × String)) :=
  if start < stop then bulkWithRetry retry target batch start stop else .ok []

/-- The batch from its `nth` operation on (`rest`), the run in progress having
begun at `start`. -/
def writeRuns (retry : RetryPolicy) (target : BulkTarget) (batch : List LsnOp) :
    (nth start : ℕ) → (rest : List LsnOp) → Except CoreError (List (ℕ × String))
  | _, start, [] => bulkRun retry target batch start batch.length
  | nth, start, op :: rest =>
    if op.op.isCascade then do
      let refused ← bulkRun retry target batch start nth
      target.cascade nth
      let others ← writeRuns retry target batch (nth + 1) (nth + 1) rest
      return refused ++ others
    else writeRuns retry target batch (nth + 1) start rest

/-- `write`, the same in both sinks. -/
def bulkWrite (retry : RetryPolicy) (target : BulkTarget) (batch : List LsnOp) :
    Except CoreError SinkAck :=
  match batch.getLast? with
  | none => .error (.sink "engine must never send empty batches")
  | some last => do
    target.ensured
    let refused ← writeRuns retry target batch 0 0 batch
    let rejected ← rejections batch refused
    return ⟨last.lsn, rejected⟩

end Pg2osync
