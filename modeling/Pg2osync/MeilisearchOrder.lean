import Pg2osync.Meilisearch

/-!
# The order of a batch on Meilisearch

A batch means its operations one at a time: an upsert files its document under
the operation's id, a delete leaves nothing there. The write regroups them, so
what it leaves agrees only for some batches. `writesInOrder_iff_ordered` says for
which: it is a condition on the batch alone, and it holds exactly when every
acknowledged write, on any target contents, keeps the batch's order.
-/

namespace Pg2osync

/-! ## One operation at a time -/

/-- One operation as it is meant: an upsert files its document under its own id,
a delete leaves nothing there. -/
def applyOne (store : MeiliStore) : DocumentOp → MeiliStore
  | .upsert index id _ doc _ _ =>
    Function.update store index (Function.update (store index) id (some doc))
  | .delete index id _ _ =>
    Function.update store index (Function.update (store index) id none)
  | .deleteChildren .. => store

/-- The last operation of a batch on one document. -/
def lastOn (index id : String) (ops : List DocumentOp) : Option DocumentOp :=
  (ops.filter fun op => op.index = index ∧ op.id = id).getLast?

/-- What an operation leaves of its document. -/
def DocumentOp.leaves : DocumentOp → Option Json
  | .upsert _ _ _ doc _ _ => some doc
  | _ => none

theorem applyOne_apply {op : DocumentOp} (hsingle : op.isCascade = false) (store : MeiliStore)
    (index id : String) :
    applyOne store op index id =
      if op.index = index ∧ op.id = id then op.leaves else store index id := by
  cases op with
  | upsert i key | delete i key =>
    by_cases hi : index = i
    · subst hi
      by_cases hid : id = key
      · simp [applyOne, DocumentOp.index, DocumentOp.id, DocumentOp.leaves, hid]
      · simp [applyOne, DocumentOp.index, DocumentOp.id, hid, Ne.symm hid]
    · simp [applyOne, DocumentOp.index, hi, Ne.symm hi]
  | deleteChildren => cases hsingle

variable {ops : List DocumentOp}

/-- Operations applied one at a time leave what the last one on a document says. -/
theorem foldl_applyOne (hsingle : ∀ op ∈ ops, op.isCascade = false) (store : MeiliStore)
    (index id : String) :
    ops.foldl applyOne store index id =
      (lastOn index id ops).elim (store index id) DocumentOp.leaves := by
  induction ops using List.reverseRecOn with
  | nil => rfl
  | append_singleton ops op ih =>
    have hops : ∀ o ∈ ops, o.isCascade = false := fun o ho => hsingle o (List.mem_append_left _ ho)
    have hop := hsingle op (List.mem_append_right _ (List.mem_singleton.mpr rfl))
    rw [List.foldl_append, List.foldl_cons, List.foldl_nil, applyOne_apply hop, lastOn,
      List.filter_append]
    by_cases h : op.index = index ∧ op.id = id
    · simp [h]
    · rw [if_neg h, ih hops, lastOn]
      simp [h]

/-! ## When a write keeps the batch's order -/

namespace MeilisearchSink

/-- A write that returns an acknowledgement leaves the documents that the batch's
operations leave one at a time, whatever the target held and however it answered. -/
def WritesInOrder (batch : List LsnOp) : Prop :=
  ∀ (target : MeiliTarget) (store store' : MeiliStore) (ack : SinkAck),
    write target batch store = .ok (ack, store') →
      ∀ index id, store' index id = (batch.map LsnOp.op).foldl applyOne store index id

/-- The document a batch's last operation on an id upserts is the last one the
batch files under that id, and no operation of the batch deletes the id; an id
that no operation names has no document of the batch filed under it. -/
def OrderedAt (ops : List DocumentOp) (index id : String) : Prop :=
  match lastOn index id ops with
  | some (.upsert _ _ _ doc _ _) =>
    id ∉ ops.filterMap (DocumentOp.delOn index) ∧
      lastFiled id (ops.filterMap (DocumentOp.docOn index)) = some doc
  | some _ => True
  | none => lastFiled id (ops.filterMap (DocumentOp.docOn index)) = none

/-- If the target can take every document of the batch, each id is `OrderedAt`. -/
def Ordered (ops : List DocumentOp) : Prop :=
  (∀ op ∈ ops, ∀ doc, op.leaves = some doc → (meiliKey doc).isSome) →
    ∀ index id, OrderedAt ops index id

theorem waitTask_eq_ok {uid : ℕ} {poll : ℕ → Except String (ℕ × Json)} {left nth : ℕ}
    (h : waitTask uid poll left nth = .ok ()) :
    ∃ n body, poll n = .ok (200, body) ∧ (body.index "status").asStr = some "succeeded" := by
  induction left generalizing nth with
  | zero => cases h
  | succ left ih =>
    rw [waitTask] at h
    split at h
    · cases h
    · next status body hpoll =>
      split at h
      · next hstatus =>
        split at h
        · next hdone => exact ⟨nth, body, by rw [hpoll, hstatus], hdone⟩
        · cases h
        · exact ih h
      · exact ih h

variable {target : MeiliTarget}

/-- A request that is sent and waited for without an error was carried out. -/
theorem valid_of_send {request : MeiliRequest} (h : send target request = .ok ()) :
    request.valid = true := by
  rw [send] at h
  split at h
  · cases h
  · next status body hreply =>
    split at h
    · next hstatus =>
      subst hstatus
      obtain ⟨uid, huid⟩ := Option.isSome_iff_exists.mp ((target.exchange request).names body hreply)
      rw [huid] at h
      obtain ⟨n, answer, hpoll, hdone⟩ := waitTask_eq_ok h
      exact (target.exchange request).honest n answer hpoll hdone
    · cases h

theorem sendAll_eq_ok {requests : List MeiliRequest} {store store' : MeiliStore}
    (h : sendAll target requests store = .ok store') :
    store' = requests.foldl MeiliRequest.execute store ∧ ∀ r ∈ requests, r.valid = true := by
  induction requests generalizing store with
  | nil =>
    injection h with h
    exact ⟨h.symm, fun _ hr => absurd hr List.not_mem_nil⟩
  | cons r rest ih =>
    obtain ⟨⟨⟩, hsend, hrest⟩ := Except.bind_eq_ok h
    obtain ⟨hstore, hvalid⟩ := ih hrest
    refine ⟨hstore, fun r' hr' => ?_⟩
    rcases List.mem_cons.mp hr' with rfl | hr'
    · exact valid_of_send hsend
    · exact hvalid r' hr'

/-- An acknowledged write left what its requests leave, and the target could
take every document of it. -/
theorem write_eq_ok {batch : List LsnOp} {store store' : MeiliStore} {ack : SinkAck}
    (h : write target batch store = .ok (ack, store')) :
    store' = ((target.iterate (byIndex batch)).flatMap requests).foldl
        MeiliRequest.execute store ∧
      ∀ r ∈ (target.iterate (byIndex batch)).flatMap requests, r.valid = true := by
  rw [write] at h
  split at h
  · cases h
  · split at h
    · cases h
    · obtain ⟨store₁, hsend, h⟩ := Except.bind_eq_ok h
      injection h with h
      obtain ⟨hstore, hvalid⟩ := sendAll_eq_ok hsend
      exact ⟨(congrArg Prod.snd h).symm.trans hstore, hvalid⟩

/-- The requests of a batch can all be carried out exactly when every document
of it has a key. -/
theorem valid_requests_iff {groups shuffled : List MeiliGroup} (h : Grouped ops groups)
    (hperm : shuffled.Perm groups) :
    (∀ r ∈ shuffled.flatMap requests, r.valid = true) ↔
      ∀ op ∈ ops, ∀ doc, op.leaves = some doc → (meiliKey doc).isSome := by
  constructor
  · intro hvalid op hop doc hdoc
    obtain ⟨g, hg, hindex⟩ := List.mem_map.mp (h.covers op hop)
    have hin : doc ∈ g.docs := by
      rw [h.docs g hg]
      refine List.mem_filterMap.mpr ⟨op, hop, ?_⟩
      cases op with
      | upsert i id routing doc' version pipeline =>
        have hindex : g.index = i := hindex
        rw [DocumentOp.docOn, if_pos hindex.symm]
        exact hdoc
      | delete => cases hdoc
      | deleteChildren => cases hdoc
    have hr : MeiliRequest.addDocuments g.index g.docs ∈ requests g := by
      rw [requests]
      refine List.mem_append_left _ ?_
      rw [if_neg fun hempty => ?_]
      · exact List.mem_singleton.mpr rfl
      · rw [List.isEmpty_iff.mp hempty] at hin
        cases hin
    have := hvalid _ (List.mem_flatMap.mpr ⟨g, hperm.mem_iff.mpr hg, hr⟩)
    exact List.all_eq_true.mp this doc hin
  · intro hdocs r hr
    obtain ⟨g, hg, hr⟩ := List.mem_flatMap.mp hr
    have hg := hperm.mem_iff.mp hg
    rw [requests] at hr
    rcases List.mem_append.mp hr with hr | hr
    · split at hr
      · cases hr
      · rw [List.mem_singleton.mp hr]
        refine List.all_eq_true.mpr fun doc hdoc => ?_
        rw [h.docs g hg] at hdoc
        obtain ⟨op, hop, heq⟩ := List.mem_filterMap.mp hdoc
        refine hdocs op hop doc ?_
        cases op with
        | upsert =>
          rw [DocumentOp.docOn] at heq
          split at heq
          · exact heq
          · cases heq
        | delete => cases heq
        | deleteChildren => cases heq
    · split at hr
      · cases hr
      · rw [List.mem_singleton.mp hr]
        rfl

/-! ## A target that obliges -/

/-- Accepts every request; the task of one that can be carried out succeeds at
the first poll, any other never ends. -/
def obligingExchange (request : MeiliRequest) : Exchange request where
  reply := .ok (202, .obj [("taskUid", .int 0)])
  poll _ := .ok (200, .obj [("status", .str (if request.valid then "succeeded" else "processing"))])
  names body h := by
    obtain ⟨-, hbody⟩ := Prod.mk.inj (Except.ok.inj h)
    rw [← hbody]
    decide
  honest n body h hdone := by
    obtain ⟨-, hbody⟩ := Prod.mk.inj (Except.ok.inj h)
    by_contra hinvalid
    rw [← hbody, if_neg hinvalid] at hdone
    revert hdone
    decide

/-- The target that obliges, its hash map in first-seen order. -/
def obliging : MeiliTarget :=
  ⟨obligingExchange, fun groups => groups, fun groups => List.Perm.refl groups⟩

theorem waitTask_of_succeeded {uid : ℕ} {poll : ℕ → Except String (ℕ × Json)} {nth : ℕ}
    {body : Json} (hpoll : poll nth = .ok (200, body))
    (hdone : (body.index "status").asStr = some "succeeded") (left : ℕ) :
    waitTask uid poll (left + 1) nth = .ok () := by
  rw [waitTask, hpoll]
  simp only [if_true, hdone]

theorem send_obliging {request : MeiliRequest} (h : request.valid = true) :
    send obliging request = .ok () := by
  have hreply : (obliging.exchange request).reply = .ok (202, .obj [("taskUid", .int 0)]) := rfl
  have huid : ((Json.obj [("taskUid", .int 0)]).index "taskUid").asU64 = some 0 := by decide
  have hpoll : (obliging.exchange request).poll 0 = .ok (200, .obj [("status", .str "succeeded")]) := by
    simp only [obliging, obligingExchange, h, if_true]
  rw [send, hreply]
  simp only [if_true, huid]
  exact waitTask_of_succeeded hpoll (by decide) 599

theorem sendAll_obliging {requests : List MeiliRequest} (h : ∀ r ∈ requests, r.valid = true)
    (store : MeiliStore) :
    sendAll obliging requests store = .ok (requests.foldl MeiliRequest.execute store) := by
  induction requests generalizing store with
  | nil => rfl
  | cons r rest ih =>
    rw [sendAll, send_obliging (h r List.mem_cons_self)]
    exact ih (fun r' hr' => h r' (List.mem_cons_of_mem _ hr')) _

/-- On a batch of upserts and deletes that the target can take, a write gets its
acknowledgement. -/
theorem write_obliging {batch : List LsnOp} (hne : batch ≠ [])
    (hsingle : ∀ op ∈ batch.map LsnOp.op, op.isCascade = false)
    (hkeys : ∀ op ∈ batch.map LsnOp.op, ∀ doc, op.leaves = some doc → (meiliKey doc).isSome)
    (store : MeiliStore) :
    ∃ ack, write obliging batch store = .ok (ack,
      ((byIndex batch).flatMap requests).foldl MeiliRequest.execute store) := by
  have hlast : batch.getLast? = some (batch.getLast hne) := List.getLast?_eq_some_getLast hne
  have hcascade : (batch.any fun op => op.op.isCascade) = false := by
    refine List.any_eq_false.mpr fun op hop => ?_
    rw [hsingle op.op (List.mem_map_of_mem hop)]
    decide
  have hvalid := (valid_requests_iff (grouped_byIndex batch) (List.Perm.refl _)).mpr hkeys
  refine ⟨SinkAck.written (batch.getLast hne).lsn, ?_⟩
  rw [write, hlast]
  simp only [hcascade]
  have hsend := sendAll_obliging hvalid store
  simp only [Bool.false_eq_true, if_false]
  change (sendAll obliging ((byIndex batch).flatMap requests) store >>= _) = _
  rw [hsend]
  rfl

theorem mem_of_lastOn {index id : String} {op : DocumentOp} (h : lastOn index id ops = some op) :
    op ∈ ops ∧ op.index = index ∧ op.id = id := by
  have hmem := List.mem_of_getLast? h
  obtain ⟨hop, hon⟩ := List.mem_filter.mp hmem
  exact ⟨hop, by simpa using hon⟩

/-- An id that a batch deletes is one that an operation of the batch is on. -/
theorem lastOn_ne_none {index id : String} (h : id ∈ ops.filterMap (DocumentOp.delOn index)) :
    lastOn index id ops ≠ none := by
  obtain ⟨op, hop, heq⟩ := List.mem_filterMap.mp h
  have hon : op.index = index ∧ op.id = id := by
    cases op with
    | delete i key routing version =>
      rw [DocumentOp.delOn] at heq
      split at heq
      · next hi => exact ⟨hi, Option.some.inj heq⟩
      · cases heq
    | upsert => cases heq
    | deleteChildren => cases heq
  intro hnone
  have hnil := List.getLast?_eq_none_iff.mp hnone
  exact List.filter_eq_nil_iff.mp hnil op hop (by simpa using hon)

/-- What the write and the operations one at a time leave of one document agree
for every store exactly when the document is `OrderedAt`. The cases are the last
operation on the document. -/
theorem orderedAt_iff (hsingle : ∀ op ∈ ops, op.isCascade = false) (index id : String) :
    (∀ store : MeiliStore, (if id ∈ ops.filterMap (DocumentOp.delOn index) then none
        else (lastFiled id (ops.filterMap (DocumentOp.docOn index))).or (store index id)) =
      (lastOn index id ops).elim (store index id) DocumentOp.leaves) ↔ OrderedAt ops index id := by
  rw [OrderedAt]
  rcases hlast : lastOn index id ops with _ | op
  · -- no operation is on the document: the target's own has to stay
    have hdel : id ∉ ops.filterMap (DocumentOp.delOn index) := fun h => lastOn_ne_none h hlast
    simp only [if_neg hdel, Option.elim_none]
    constructor
    · intro h
      simpa using h fun _ _ => none
    · intro h store
      rw [h, Option.none_or]
  · obtain ⟨hop, hindex, hid⟩ := mem_of_lastOn hlast
    cases op with
    | upsert i key routing doc version pipeline =>
      simp only [Option.elim_some, DocumentOp.leaves]
      constructor
      · intro h
        have hempty := h fun _ _ => none
        split at hempty
        · cases hempty
        · next hdel => exact ⟨hdel, by simpa using hempty⟩
      · rintro ⟨hdel, hdoc⟩ store
        rw [if_neg hdel, hdoc, Option.some_or]
    | delete i key routing version =>
      have hdel : id ∈ ops.filterMap (DocumentOp.delOn index) := by
        refine List.mem_filterMap.mpr ⟨_, hop, ?_⟩
        have hi : i = index := hindex
        rw [DocumentOp.delOn, if_pos hi]
        exact congrArg some hid
      simp only [if_pos hdel, Option.elim_some, DocumentOp.leaves, implies_true]
    | deleteChildren => cases hsingle _ hop

/-- **A write keeps the batch's order exactly when the batch is ordered.** -/
theorem writesInOrder_iff_ordered {batch : List LsnOp}
    (hsingle : ∀ op ∈ batch.map LsnOp.op, op.isCascade = false) :
    WritesInOrder batch ↔ Ordered (batch.map LsnOp.op) := by
  constructor
  · intro hwrites hkeys index id
    refine (orderedAt_iff hsingle index id).mp fun store => ?_
    rcases eq_or_ne batch [] with rfl | hne
    · rfl
    · obtain ⟨ack, hwrite⟩ := write_obliging hne hsingle hkeys store
      have := hwrites obliging store _ ack hwrite index id
      rw [foldl_execute_groups (grouped_byIndex batch) (List.Perm.refl _),
        foldl_applyOne hsingle] at this
      exact this
  · intro hordered target store store' ack hwrite index id
    obtain ⟨rfl, hvalid⟩ := write_eq_ok hwrite
    have hperm := target.perm (byIndex batch)
    have hkeys := (valid_requests_iff (grouped_byIndex batch) hperm).mp hvalid
    rw [foldl_execute_groups (grouped_byIndex batch) hperm, foldl_applyOne hsingle]
    exact (orderedAt_iff hsingle index id).mpr (hordered hkeys index id) store

/-! ## A delete and a reinsert in one batch -/

/-- Delete a row's document and insert it again. -/
def reinsert : List LsnOp :=
  [⟨7, .delete "t" "1" none (some 7)⟩,
    ⟨8, .upsert "t" "1" none (.obj [("id", .str "1")]) (some 8) none⟩]

/-- The reinserted document is deleted by the write that acknowledges it. -/
theorem reinsert_not_writesInOrder :
    (∀ op ∈ reinsert.map LsnOp.op, op.isCascade = false) ∧ ¬ WritesInOrder reinsert := by
  refine ⟨by decide, fun hwrites => ?_⟩
  obtain ⟨ack, hwrite⟩ := @write_obliging reinsert (by decide) (by decide) (by decide)
    fun _ _ => none
  have := hwrites obliging _ _ ack hwrite "t" "1"
  revert this
  decide

/-- The other order of the same two operations is written as it stands. -/
theorem reinsert_reverse_writesInOrder :
    WritesInOrder reinsert.reverse ↔ Ordered (reinsert.reverse.map LsnOp.op) :=
  writesInOrder_iff_ordered (by decide)

end MeilisearchSink

end Pg2osync
