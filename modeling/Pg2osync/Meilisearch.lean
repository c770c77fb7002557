import Mathlib.Data.List.Induction
import Mathlib.Data.Nat.Basic
import Mathlib.Logic.Function.Basic
import Pg2osync.Sink

/-!
# The Meilisearch target

A batch is regrouped by index: every upserted document of the index goes out in
one request, every deleted id in a second one, and the indices are taken in the
order a hash map happens to iterate in. An operation's id is sent for a delete
only; an upserted document is filed by the target under its own `id` field.

The target is an `Exchange` for each request: what it answered and what the
polls of the task it named said. What is assumed of it is a field of that
structure: an accepted request names its task, and a task is reported succeeded
only when the request could be carried out, which it then was.

`foldl_execute_groups` says what a batch leaves whatever the order of its groups:
an id it deletes anywhere is gone, and any other holds the last document that is
filed under it.
-/

namespace Pg2osync

/-- The documents of every index, by the text of their primary key. -/
abbrev MeiliStore := String → String → Option Json

/-- Whether Meilisearch takes a string as a document id. -/
def meiliIdAllowed (id : String) : Bool :=
  !id.isEmpty && id.utf8ByteSize ≤ 511 && id.toList.all fun c => c.isAlphanum || c == '-' || c == '_'

/-- What a document is filed under: the text of its primary-key field `id`, an
integer or a string. -/
def meiliKey (doc : Json) : Option String :=
  match doc.get "id" with
  | some (.str id) => if meiliIdAllowed id then some id else none
  | some (.int n) => some (toString n)
  | _ => none

/-- A request of a write. -/
inductive MeiliRequest : Type where
  /-- `POST /indexes/{index}/documents?primaryKey=id` -/
  | addDocuments (index : String) (docs : List Json) : MeiliRequest
  /-- `POST /indexes/{index}/documents/delete-batch` -/
  | deleteBatch (index : String) (ids : List String) : MeiliRequest
  deriving DecidableEq, Repr

namespace MeiliRequest

/-- Whether the target can carry a request out: every document has a key. -/
def valid : MeiliRequest → Bool
  | .addDocuments _ docs => docs.all fun doc => (meiliKey doc).isSome
  | .deleteBatch _ _ => true

/-- One document added to the documents of an index. -/
def file (docs : String → Option Json) (doc : Json) : String → Option Json :=
  match meiliKey doc with
  | some key => Function.update docs key (some doc)
  | none => docs

/-- What carrying a request out leaves of its index's documents: each document
filed in turn under its key, or each listed id removed. -/
def onDocs (docs : String → Option Json) : MeiliRequest → String → Option Json
  | .addDocuments _ added => added.foldl file docs
  | .deleteBatch _ ids => fun id => if id ∈ ids then none else docs id

/-- The index a request is about. -/
def index : MeiliRequest → String
  | .addDocuments index _ => index
  | .deleteBatch index _ => index

/-- What carrying a request out leaves. -/
def execute (store : MeiliStore) (request : MeiliRequest) : MeiliStore :=
  Function.update store request.index (request.onDocs (store request.index))

/-- The start of the error a refused request becomes. -/
def describe : MeiliRequest → String
  | .addDocuments index _ => "add documents to " ++ index
  | .deleteBatch index _ => "delete documents from " ++ index

end MeiliRequest

/-- How the target met one request: its answer, and its answers to the polls of
the task. -/
structure Exchange (request : MeiliRequest) : Type where
  /-- the status and the body of the answer, or why there is none -/
  reply : Except String (ℕ × Json)
  /-- the same for each poll of the task -/
  poll : ℕ → Except String (ℕ × Json)
  /-- an accepted request names its task -/
  names : ∀ body, reply = .ok (202, body) → (body.index "taskUid").asU64.isSome
  /-- a task that is reported succeeded was carried out -/
  honest : ∀ n body, poll n = .ok (200, body) →
    (body.index "status").asStr = some "succeeded" → request.valid = true

/-- The operations of one index: the documents to add and the ids to delete,
each in batch order. -/
structure MeiliGroup : Type where
  /-- the index -/
  index : String
  /-- the documents of its upserts -/
  docs : List Json
  /-- the ids of its deletes -/
  delIds : List String
  deriving DecidableEq, Repr

/-- The target during one write, and the order its hash map iterates in. -/
structure MeiliTarget : Type where
  /-- how each request is met -/
  exchange : (request : MeiliRequest) → Exchange request
  /-- the order the groups are taken in -/
  iterate : List MeiliGroup → List MeiliGroup
  /-- it is an order of all of them -/
  perm : ∀ groups, (iterate groups).Perm groups

/-- The refusal of a cascade. -/
def meiliCascadeRefused : CoreError :=
  .sink ("a join field's cascade cannot be expressed in Meilisearch, which has no " ++
    "parent-child data model; this operation should have been refused at startup")

/-- One operation filed in its index's group. -/
def MeiliGroup.push (group : MeiliGroup) : DocumentOp → MeiliGroup
  | .upsert _ _ _ doc _ _ => { group with docs := group.docs ++ [doc] }
  | .delete _ id _ _ => { group with delIds := group.delIds ++ [id] }
  | .deleteChildren .. => group

/-- `by_index.entry(index)`: the operation goes into the group of its index,
which is started when there is none. -/
def fileOp (op : DocumentOp) : List MeiliGroup → List MeiliGroup
  | [] => [(MeiliGroup.mk op.index [] []).push op]
  | group :: rest => if group.index = op.index then group.push op :: rest else group :: fileOp op rest

/-- The batch grouped by index. -/
def byIndex (batch : List LsnOp) : List MeiliGroup :=
  batch.foldl (fun groups op => fileOp op.op groups) []

/-- `wait_task`: poll until the task has ended, for `left` polls more. -/
def waitTask (uid : ℕ) (poll : ℕ → Except String (ℕ × Json)) : (left nth : ℕ) → Except CoreError Unit
  | 0, _ => .error (.sink "task timed out after 30s")
  | left + 1, nth =>
    match poll nth with
    | .error why => .error (.sink ("request failed: " ++ why))
    | .ok (status, body) =>
      if status = 200 then
        match (body.index "status").asStr with
        | some "succeeded" => .ok ()
        | some "failed" => .error (.sink ("task " ++ toString uid ++ " failed: " ++
            (body.index "error").render))
        | _ => waitTask uid poll left (nth + 1)
      else waitTask uid poll left (nth + 1)

namespace MeilisearchSink

/-- One request of a write and the wait for its task. -/
def send (target : MeiliTarget) (request : MeiliRequest) : Except CoreError Unit :=
  match (target.exchange request).reply with
  | .error why => .error (.sink ("request failed: " ++ why))
  | .ok (status, body) =>
    if status = 202 then
      match (body.index "taskUid").asU64 with
      | some uid => waitTask uid (target.exchange request).poll 600 0
      | none => .ok ()
    else .error (.sink (request.describe ++ ": " ++ toString status))

/-- The requests of one group: its documents, if it has any, and then its
deletes, if it has any. -/
def requests (group : MeiliGroup) : List MeiliRequest :=
  (if group.docs.isEmpty then [] else [.addDocuments group.index group.docs]) ++
    (if group.delIds.isEmpty then [] else [.deleteBatch group.index group.delIds])

/-- Requests sent one after the other, each waited for, with what they leave. -/
def sendAll (target : MeiliTarget) : List MeiliRequest → MeiliStore → Except CoreError MeiliStore
  | [], store => .ok store
  | request :: rest, store => do
    send target request
    sendAll target rest (request.execute store)

/-- `MeilisearchSink::write`, with the documents it leaves when it returns an
acknowledgement. -/
def write (target : MeiliTarget) (batch : List LsnOp) (store : MeiliStore) :
    Except CoreError (SinkAck × MeiliStore) :=
  match batch.getLast? with
  | none => .error (.sink "engine must never send empty batches")
  | some last =>
    if batch.any fun op => op.op.isCascade then .error meiliCascadeRefused
    else do
      let store ← sendAll target ((target.iterate (byIndex batch)).flatMap requests) store
      .ok (SinkAck.written last.lsn, store)

end MeilisearchSink

/-! ## What the requests of a batch amount to -/

/-- The document an operation adds to an index. -/
def DocumentOp.docOn (index : String) : DocumentOp → Option Json
  | .upsert i _ _ doc _ _ => if i = index then some doc else none
  | _ => none

/-- The id an operation deletes from an index. -/
def DocumentOp.delOn (index : String) : DocumentOp → Option String
  | .delete i id _ _ => if i = index then some id else none
  | _ => none

/-- The last of some documents that is filed under an id. -/
def lastFiled (id : String) (docs : List Json) : Option Json :=
  (docs.filter fun doc => meiliKey doc = some id).getLast?

/-- `groups` is the grouping of `ops`: one group an index, holding what the
operations on the index say. -/
structure Grouped (ops : List DocumentOp) (groups : List MeiliGroup) : Prop where
  /-- no index has two groups -/
  nodup : (groups.map MeiliGroup.index).Nodup
  /-- a group holds its index's documents in order -/
  docs : ∀ g ∈ groups, g.docs = ops.filterMap (DocumentOp.docOn g.index)
  /-- and its deleted ids -/
  delIds : ∀ g ∈ groups, g.delIds = ops.filterMap (DocumentOp.delOn g.index)
  /-- every operation's index has a group -/
  covers : ∀ op ∈ ops, op.index ∈ groups.map MeiliGroup.index

theorem grouped_nil : Grouped [] [] :=
  ⟨List.nodup_nil, fun _ h => absurd h List.not_mem_nil, fun _ h => absurd h List.not_mem_nil,
    fun _ h => absurd h List.not_mem_nil⟩

@[simp] theorem MeiliGroup.index_push (group : MeiliGroup) (op : DocumentOp) :
    (group.push op).index = group.index := by
  cases op <;> rfl

variable {op : DocumentOp}

theorem MeiliGroup.docs_push {group : MeiliGroup} (h : group.index = op.index) :
    (group.push op).docs = group.docs ++ (op.docOn group.index).toList := by
  cases op with
  | upsert i id routing doc version pipeline =>
    have h : group.index = i := h
    simp [push, DocumentOp.docOn, h]
  | delete => simp [push, DocumentOp.docOn]
  | deleteChildren => simp [push, DocumentOp.docOn]

theorem MeiliGroup.delIds_push {group : MeiliGroup} (h : group.index = op.index) :
    (group.push op).delIds = group.delIds ++ (op.delOn group.index).toList := by
  cases op with
  | delete i id routing version =>
    have h : group.index = i := h
    simp [push, DocumentOp.delOn, h]
  | upsert => simp [push, DocumentOp.delOn]
  | deleteChildren => simp [push, DocumentOp.delOn]

variable {index : String}

theorem DocumentOp.docOn_of_ne (h : op.index ≠ index) : op.docOn index = none := by
  cases op with
  | upsert => exact if_neg h
  | delete => rfl
  | deleteChildren => rfl

theorem DocumentOp.delOn_of_ne (h : op.index ≠ index) : op.delOn index = none := by
  cases op with
  | delete => exact if_neg h
  | upsert => rfl
  | deleteChildren => rfl

/-- The indices of the groups after an operation is filed: its own is added at
the end when it was not there. -/
theorem map_index_fileOp (op : DocumentOp) (groups : List MeiliGroup) :
    (fileOp op groups).map MeiliGroup.index =
      if op.index ∈ groups.map MeiliGroup.index then groups.map MeiliGroup.index
      else groups.map MeiliGroup.index ++ [op.index] := by
  induction groups with
  | nil => simp [fileOp]
  | cons g rest ih =>
    rw [fileOp]
    by_cases hg : g.index = op.index
    · simp [hg]
    · rw [if_neg hg, List.map_cons, ih]
      by_cases hrest : op.index ∈ rest.map MeiliGroup.index
      · rw [if_pos hrest, if_pos (by simp [hrest]), List.map_cons]
      · rw [if_neg hrest, if_neg (by simp [Ne.symm hg, hrest]), List.map_cons]
        rfl

variable {groups : List MeiliGroup}

/-- A group after an operation is filed: an old one of another index, an old one
of its index with the operation pushed, or a new one. -/
theorem mem_fileOp {g : MeiliGroup} (hnodup : (groups.map MeiliGroup.index).Nodup)
    (h : g ∈ fileOp op groups) :
    (g ∈ groups ∧ g.index ≠ op.index) ∨
      (∃ g₀ ∈ groups, g₀.index = op.index ∧ g = g₀.push op) ∨
      (op.index ∉ groups.map MeiliGroup.index ∧ g = (MeiliGroup.mk op.index [] []).push op) := by
  induction groups with
  | nil =>
    rw [fileOp] at h
    exact .inr (.inr ⟨List.not_mem_nil, List.mem_singleton.mp h⟩)
  | cons g₁ rest ih =>
    rw [fileOp] at h
    rw [List.map_cons, List.nodup_cons] at hnodup
    by_cases hg : g₁.index = op.index
    · rw [if_pos hg] at h
      rcases List.mem_cons.mp h with rfl | h
      · exact .inr (.inl ⟨g₁, List.mem_cons_self, hg, rfl⟩)
      · refine .inl ⟨List.mem_cons_of_mem _ h, fun heq => hnodup.1 ?_⟩
        rw [hg, ← heq]
        exact List.mem_map_of_mem h
    · rw [if_neg hg] at h
      rcases List.mem_cons.mp h with rfl | h
      · exact .inl ⟨List.mem_cons_self, hg⟩
      · rcases ih hnodup.2 h with ⟨hmem, hne⟩ | ⟨g₀, hmem, heq, rfl⟩ | ⟨hnew, rfl⟩
        · exact .inl ⟨List.mem_cons_of_mem _ hmem, hne⟩
        · exact .inr (.inl ⟨g₀, List.mem_cons_of_mem _ hmem, heq, rfl⟩)
        · exact .inr (.inr ⟨by simp [Ne.symm hg, hnew], rfl⟩)

variable {ops : List DocumentOp} {α : Type}

/-- An operation on an index that has no group adds nothing anywhere else. -/
theorem Grouped.filterMap_eq_nil (h : Grouped ops groups)
    (hnew : index ∉ groups.map MeiliGroup.index) {f : DocumentOp → Option α}
    (hf : ∀ op : DocumentOp, op.index ≠ index → f op = none) : ops.filterMap f = [] := by
  refine List.filterMap_eq_nil_iff.mpr fun op hop => hf op fun heq => hnew ?_
  rw [← heq]
  exact h.covers op hop

theorem filterMap_append_singleton (f : DocumentOp → Option α) (ops : List DocumentOp)
    (op : DocumentOp) : (ops ++ [op]).filterMap f = ops.filterMap f ++ (f op).toList := by
  rw [List.filterMap_append]
  rcases hf : f op with _ | x <;> simp [hf]

/-- What a group holds of one kind (`sel`) stays what its index's operations say
of that kind (`f`), when an operation is filed. -/
theorem Grouped.sel_fileOp {sel : MeiliGroup → List α} {f : String → DocumentOp → Option α}
    (h : Grouped ops groups) (hsel : ∀ g ∈ groups, sel g = ops.filterMap (f g.index))
    (hne : ∀ (op : DocumentOp) (index : String), op.index ≠ index → f index op = none)
    (hpush : ∀ (g : MeiliGroup) (op : DocumentOp), g.index = op.index →
      sel (g.push op) = sel g ++ (f g.index op).toList) (hstart : ∀ index, sel ⟨index, [], []⟩ = [])
    (op : DocumentOp) : ∀ g ∈ fileOp op groups, sel g = (ops ++ [op]).filterMap (f g.index) := by
  intro g hg
  rw [filterMap_append_singleton]
  rcases mem_fileOp h.nodup hg with ⟨hmem, hother⟩ | ⟨g₀, hmem, heq, rfl⟩ | ⟨hnew, rfl⟩
  · rw [hsel g hmem, hne op g.index (Ne.symm hother), Option.toList_none, List.append_nil]
  · rw [hpush g₀ op heq, hsel g₀ hmem, MeiliGroup.index_push]
  · rw [hpush _ op rfl, hstart, MeiliGroup.index_push,
      h.filterMap_eq_nil hnew fun o ho => hne o _ ho]

/-- **The step lemma of the grouping.** -/
theorem Grouped.fileOp (h : Grouped ops groups) (op : DocumentOp) :
    Grouped (ops ++ [op]) (fileOp op groups) where
  nodup := by
    rw [map_index_fileOp]
    split
    · exact h.nodup
    · next hnew =>
      refine List.nodup_append.mpr ⟨h.nodup, by simp, fun a ha b hb heq => hnew ?_⟩
      rw [← List.mem_singleton.mp hb, ← heq]
      exact ha
  docs := h.sel_fileOp h.docs (fun _ _ hne => DocumentOp.docOn_of_ne hne)
    (fun _ _ heq => MeiliGroup.docs_push heq) (fun _ => rfl) op
  delIds := h.sel_fileOp h.delIds (fun _ _ hne => DocumentOp.delOn_of_ne hne)
    (fun _ _ heq => MeiliGroup.delIds_push heq) (fun _ => rfl) op
  covers o ho := by
    rw [map_index_fileOp]
    rcases List.mem_append.mp ho with ho | ho
    · have hold := h.covers o ho
      split
      · exact hold
      · exact List.mem_append_left _ hold
    · rw [List.mem_singleton.mp ho]
      split
      · assumption
      · exact List.mem_append_right _ (List.mem_singleton.mpr rfl)

/-- A batch's groups are its grouping. -/
theorem grouped_byIndex (batch : List LsnOp) : Grouped (batch.map LsnOp.op) (byIndex batch) := by
  induction batch using List.reverseRecOn with
  | nil => exact grouped_nil
  | append_singleton batch op ih =>
    rw [byIndex, List.foldl_append, List.map_append]
    exact ih.fileOp op.op

/-! ## What the requests leave -/

theorem file_apply (docs : String → Option Json) (doc : Json) (id : String) :
    MeiliRequest.file docs doc id = if meiliKey doc = some id then some doc else docs id := by
  rw [MeiliRequest.file]
  rcases meiliKey doc with _ | key
  · simp
  · by_cases h : id = key
    · simp [h]
    · simp [h, Ne.symm h]

/-- Documents added one after the other: the last one filed under an id wins. -/
theorem foldl_file (added : List Json) (docs : String → Option Json) (id : String) :
    added.foldl MeiliRequest.file docs id = (lastFiled id added).or (docs id) := by
  induction added generalizing docs with
  | nil => rfl
  | cons doc rest ih =>
    rw [List.foldl_cons, ih, file_apply, lastFiled, lastFiled, List.filter_cons]
    by_cases h : meiliKey doc = some id
    · rcases hrest : (rest.filter fun doc => meiliKey doc = some id).getLast? with _ | last
      · simp [h, List.getLast?_cons, hrest]
      · simp [h, List.getLast?_cons, hrest]
    · simp [h]

/-- What a group's requests leave of its index. -/
theorem foldl_requests (group : MeiliGroup) (docs : String → Option Json) (id : String) :
    (MeilisearchSink.requests group).foldl MeiliRequest.onDocs docs id =
      if id ∈ group.delIds then none else (lastFiled id group.docs).or (docs id) := by
  have hadd : ∀ g : MeiliGroup, (if g.docs.isEmpty then [] else
      [MeiliRequest.addDocuments g.index g.docs]).foldl MeiliRequest.onDocs docs id =
        (lastFiled id g.docs).or (docs id) := by
    intro g
    rcases hdocs : g.docs with _ | ⟨doc, rest⟩
    · rfl
    · exact foldl_file (doc :: rest) docs id
  rw [MeilisearchSink.requests, List.foldl_append]
  rcases hdel : group.delIds with _ | ⟨first, rest⟩
  · simpa using hadd group
  · have := hadd group
    simp only [List.isEmpty_cons, Bool.false_eq_true, if_false, List.foldl_cons, List.foldl_nil,
      MeiliRequest.onDocs]
    rw [this]

@[simp] theorem MeiliRequest.execute_index (store : MeiliStore) (request : MeiliRequest) :
    request.execute store request.index = request.onDocs (store request.index) :=
  Function.update_self _ _ _

theorem MeiliRequest.execute_of_ne {request : MeiliRequest} (h : request.index ≠ index)
    (store : MeiliStore) : request.execute store index = store index :=
  Function.update_of_ne (Ne.symm h) _ _

/-- Requests act on an index through those about it. -/
theorem foldl_execute (requests : List MeiliRequest) (store : MeiliStore) (index : String) :
    requests.foldl MeiliRequest.execute store index =
      (requests.filter fun r => r.index = index).foldl MeiliRequest.onDocs (store index) := by
  induction requests generalizing store with
  | nil => rfl
  | cons r rest ih =>
    rw [List.foldl_cons, ih, List.filter_cons]
    by_cases h : r.index = index
    · subst h
      simp
    · simp [h, MeiliRequest.execute_of_ne h]

theorem index_of_mem_requests {group : MeiliGroup} {r : MeiliRequest}
    (h : r ∈ MeilisearchSink.requests group) : r.index = group.index := by
  rw [MeilisearchSink.requests] at h
  rcases List.mem_append.mp h with h | h
  · split at h
    · cases h
    · rw [List.mem_singleton.mp h]
      rfl
  · split at h
    · cases h
    · rw [List.mem_singleton.mp h]
      rfl

theorem filter_requests (group : MeiliGroup) (index : String) :
    (MeilisearchSink.requests group).filter (fun r => r.index = index) =
      if group.index = index then MeilisearchSink.requests group else [] := by
  split
  · next heq =>
    refine List.filter_eq_self.mpr fun r hr => ?_
    simp [index_of_mem_requests hr, heq]
  · next hne =>
    refine List.filter_eq_nil_iff.mpr fun r hr => ?_
    simp [index_of_mem_requests hr, hne]

/-- Of all groups' requests, those about an index with a group are the group's. -/
theorem filter_flatMap_of_mem {group : MeiliGroup} (hnodup : (groups.map MeiliGroup.index).Nodup)
    (hmem : group ∈ groups) :
    (groups.flatMap MeilisearchSink.requests).filter (fun r => r.index = group.index) =
      MeilisearchSink.requests group := by
  induction groups with
  | nil => cases hmem
  | cons g rest ih =>
    rw [List.map_cons, List.nodup_cons] at hnodup
    rw [List.flatMap_cons, List.filter_append, filter_requests]
    rcases List.mem_cons.mp hmem with rfl | hmem
    · have hrest : (rest.flatMap MeilisearchSink.requests).filter
          (fun r => r.index = group.index) = [] := by
        refine List.filter_eq_nil_iff.mpr fun r hr => ?_
        obtain ⟨g', hg', hr⟩ := List.mem_flatMap.mp hr
        have hne : g'.index ≠ group.index := fun heq =>
          hnodup.1 (heq ▸ List.mem_map_of_mem hg')
        simp [index_of_mem_requests hr, hne]
      rw [if_pos rfl, hrest, List.append_nil]
    · have hne : g.index ≠ group.index := fun heq => hnodup.1 (heq ▸ List.mem_map_of_mem hmem)
      rw [if_neg hne, List.nil_append, ih hnodup.2 hmem]

/-- And about an index without a group there is none. -/
theorem filter_flatMap_of_not_mem (h : index ∉ groups.map MeiliGroup.index) :
    (groups.flatMap MeilisearchSink.requests).filter (fun r => r.index = index) = [] := by
  refine List.filter_eq_nil_iff.mpr fun r hr => ?_
  obtain ⟨g, hg, hr⟩ := List.mem_flatMap.mp hr
  have hne : g.index ≠ index := fun heq => h (heq ▸ List.mem_map_of_mem hg)
  simp [index_of_mem_requests hr, hne]

/-- **What a batch leaves.** Whatever order the groups are taken in, an id that
the batch deletes anywhere is gone, and any other holds the last document filed
under it. -/
theorem foldl_execute_groups {groups shuffled : List MeiliGroup} (h : Grouped ops groups)
    (hperm : shuffled.Perm groups) (store : MeiliStore) (index id : String) :
    (shuffled.flatMap MeilisearchSink.requests).foldl MeiliRequest.execute store index id =
      if id ∈ ops.filterMap (DocumentOp.delOn index) then none
      else (lastFiled id (ops.filterMap (DocumentOp.docOn index))).or (store index id) := by
  have hindices := hperm.map MeiliGroup.index
  rw [foldl_execute]
  by_cases hmem : index ∈ groups.map MeiliGroup.index
  · obtain ⟨g, hg, rfl⟩ := List.mem_map.mp hmem
    rw [filter_flatMap_of_mem (hindices.nodup_iff.mpr h.nodup) (hperm.mem_iff.mpr hg),
      foldl_requests, h.docs g hg, h.delIds g hg]
  · rw [filter_flatMap_of_not_mem fun hin => hmem (hindices.mem_iff.mp hin),
      h.filterMap_eq_nil hmem fun o ho => DocumentOp.delOn_of_ne ho,
      h.filterMap_eq_nil hmem fun o ho => DocumentOp.docOn_of_ne ho]
    simp [lastFiled]

end Pg2osync
