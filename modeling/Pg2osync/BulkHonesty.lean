import Pg2osync.Bulk

/-!
# What a bulk answer vouches for

A sink acknowledges a position on the strength of the bulk answer, so an
operation that is reported neither failed nor refused should have an item in the
answer saying that it was applied, lost a version conflict, or deleted something
already absent. The triage reads such items; what it does not look at is whether
they are there. `Accountable` is the condition on the answer under which nothing
is missed, and `bulkOnce_honest_iff` says it is exactly that.
-/

namespace Pg2osync

/-- An item that accounts for its operation: applied, declined for a newer
version, or a delete of something absent. -/
def Confirms (item : Json) : Prop :=
  isSuccess (itemStatus (itemEntry item)) ∨
    (((itemEntry item).index "error").index "type").asStr =
      some "version_conflict_engine_exception" ∨
    isAbsent item = true

/-- The answer confirms the operation at a position: the request succeeded as a
whole and the item at the position confirms it. -/
def ConfirmedAt (answer : BulkAnswer) (nth : ℕ) : Prop :=
  ∃ status body, answer = .reply status (.ok body) ∧ isSuccess status ∧
    ∃ item, (items body)[nth]? = some item ∧ Confirms item

/-- A result is honest about an answer: an operation it does not report refused
is one the answer confirms. -/
def Honest (batch : List LsnOp) (answer : BulkAnswer)
    (result : Except CoreError (Lsn × List (ℕ × String))) : Prop :=
  ∀ lsn refused, result = .ok (lsn, refused) → ∀ nth < batch.length,
    (∀ reason, (nth, reason) ∉ refused) → ConfirmedAt answer nth

/-- Nothing in an answer can be missed by the triage for a batch of this length:
it is an error to be raised, or a body without `"errors": true` that comes with a
success and a confirming item for each operation, or a body with it that has an
item to retry or an item for each operation, under a success unless refused. -/
def Accountable (length : ℕ) : BulkAnswer → Prop
  | .unreachable _ => True
  | .reply _ (.error _) => True
  | .reply status (.ok body) =>
    isBusy status ∨
      if body.index "errors" = .bool true then
        (∃ item ∈ items body, verdict item = .retryable) ∨
          ∀ nth < length, ∃ item, (items body)[nth]? = some item ∧
            (isSuccess status ∨ ∃ reason, verdict item = .refused reason)
      else ∀ nth < length, isSuccess status ∧
        ∃ item, (items body)[nth]? = some item ∧ Confirms item

/-! ## The triage -/

theorem confirms_of_settled {item : Json} (h : verdict item = .settled) : Confirms item := by
  simp only [verdict] at h
  split at h
  · cases h
  · split at h
    · cases h
    · split at h
      · next hconflict =>
        refine .inr (.inl ?_)
        rcases htype : (((itemEntry item).index "error").index "type").asStr with _ | errorType
        · rw [htype] at hconflict
          exact absurd hconflict (by decide)
        · rw [htype] at hconflict
          exact congrArg some hconflict
      · split at h
        · next habsent => exact .inr (.inr habsent)
        · split at h
          · next hsuccess => exact .inl hsuccess
          · cases h

/-- The refused positions, by the items that stand there. -/
theorem mem_refusedFrom {start nth : ℕ} {reason : String} {its : List Json} :
    (nth, reason) ∈ refusedFrom start its ↔
      ∃ i item, nth = start + i ∧ its[i]? = some item ∧ verdict item = .refused reason := by
  induction its generalizing start with
  | nil => simp [refusedFrom]
  | cons item rest ih =>
    have hrest : (nth, reason) ∈ refusedFrom (start + 1) rest ↔
        ∃ i it, nth = start + (i + 1) ∧ rest[i]? = some it ∧ verdict it = .refused reason := by
      rw [ih]
      constructor
      · rintro ⟨i, it, hnth, hit, hv⟩
        exact ⟨i, it, by omega, hit, hv⟩
      · rintro ⟨i, it, hnth, hit, hv⟩
        exact ⟨i, it, by omega, hit, hv⟩
    rw [refusedFrom]
    constructor
    · intro h
      split at h
      · next why hv =>
        rcases List.mem_cons.mp h with h | h
        · injection h with hnth hreason
          exact ⟨0, item, by omega, rfl, by rw [hv, hreason]⟩
        · obtain ⟨i, it, hnth, hit, hv⟩ := hrest.mp h
          exact ⟨i + 1, it, hnth, hit, hv⟩
      · obtain ⟨i, it, hnth, hit, hv⟩ := hrest.mp h
        exact ⟨i + 1, it, hnth, hit, hv⟩
    · rintro ⟨i, it, hnth, hit, hv⟩
      cases i with
      | zero =>
        have hit : item = it := by simpa using hit
        subst hit
        rw [hv]
        simp [hnth]
      | succ i =>
        have hmem := hrest.mpr ⟨i, it, hnth, by simpa using hit, hv⟩
        split
        · exact List.mem_cons_of_mem _ hmem
        · exact hmem

/-! ## One request -/

variable {batch : List LsnOp}

theorem mapM_bulkAction (h : ∀ op ∈ batch, op.op.isCascade = false) :
    ∃ actions, (batch.mapM fun op => bulkAction op.op) = .ok actions := by
  induction batch with
  | nil => exact ⟨[], rfl⟩
  | cons op rest ih =>
    obtain ⟨actions, hrest⟩ := ih fun o ho => h o (List.mem_cons_of_mem _ ho)
    have hop := h op List.mem_cons_self
    have haction : ∃ action, bulkAction op.op = .ok action := by
      rcases hcase : op.op with _ | _ | _
      · exact ⟨_, rfl⟩
      · exact ⟨_, rfl⟩
      · rw [hcase] at hop
        cases hop
    obtain ⟨action, haction⟩ := haction
    refine ⟨action :: actions, ?_⟩
    rw [List.mapM_cons, haction, hrest]
    rfl

variable {refused : List (ℕ × String)} {answer : BulkAnswer}

/-- What a request that returns as done was answered, and what it returns. -/
theorem bulkOnce_eq_ok {lsn : Lsn} (h : bulkOnce batch answer = .ok (lsn, refused)) :
    ∃ status body, answer = .reply status (.ok body) ∧ ¬ isBusy status ∧
      ((body.index "errors" ≠ .bool true ∧ refused = []) ∨
        (body.index "errors" = .bool true ∧ (∀ item ∈ items body, verdict item ≠ .retryable) ∧
          refused = refusedFrom 0 (items body))) := by
  obtain ⟨-, -, h⟩ := Except.bind_eq_ok h
  rcases answer with why | ⟨status, why | body⟩
  · cases h
  · simp only [readAnswer] at h
    split at h <;> cases h
  · simp only [readAnswer] at h
    split at h
    · cases h
    · next hbusy =>
      refine ⟨status, body, rfl, hbusy, ?_⟩
      split at h
      · next herrors =>
        injection h with h
        exact .inl ⟨herrors, (congrArg Prod.snd h).symm⟩
      · next herrors =>
        split at h
        · cases h
        · next hany =>
          injection h with h
          refine .inr ⟨not_not.mp herrors, fun item hitem hv => hany ?_,
            (congrArg Prod.snd h).symm⟩
          exact List.any_eq_true.mpr ⟨item, hitem, decide_eq_true hv⟩

/-- And the other way round. -/
theorem bulkOnce_of_reply (hsingle : ∀ op ∈ batch, op.op.isCascade = false) {status : ℕ}
    {body : Json} (hbusy : ¬ isBusy status) :
    (body.index "errors" ≠ .bool true →
      ∃ lsn, bulkOnce batch (.reply status (.ok body)) = .ok (lsn, [])) ∧
    (body.index "errors" = .bool true → (∀ item ∈ items body, verdict item ≠ .retryable) →
      ∃ lsn, bulkOnce batch (.reply status (.ok body)) = .ok (lsn, refusedFrom 0 (items body))) := by
  obtain ⟨actions, hactions⟩ := mapM_bulkAction hsingle
  refine ⟨fun herrors => ⟨(batch.getLast?.map LsnOp.lsn).getD 0, ?_⟩,
    fun herrors hnone => ⟨(batch.getLast?.map LsnOp.lsn).getD 0, ?_⟩⟩
  · rw [bulkOnce, hactions]
    simp [bind, Except.bind, readAnswer, hbusy, herrors]
  · have hany : ((items body).any fun item => verdict item = .retryable) = false := by
      refine List.any_eq_false.mpr fun item hitem => ?_
      simpa using hnone item hitem
    rw [bulkOnce, hactions]
    simp only [bind, Except.bind, readAnswer, hbusy, if_false, herrors, ne_eq, not_true_eq_false, hany,
      Bool.false_eq_true]

/-- An accountable answer is answered honestly. -/
theorem honest_of_accountable (h : Accountable batch.length answer) :
    Honest batch answer (bulkOnce batch answer) := by
  intro lsn refused hok nth hnth hnot
  obtain ⟨status, body, rfl, hbusy, hcase⟩ := bulkOnce_eq_ok hok
  rcases h with h | h
  · exact absurd h hbusy
  · rcases hcase with ⟨herrors, rfl⟩ | ⟨herrors, hretry, rfl⟩
    · rw [if_neg herrors] at h
      obtain ⟨hsuccess, item, hitem, hconfirms⟩ := h nth hnth
      exact ⟨status, body, rfl, hsuccess, item, hitem, hconfirms⟩
    · rw [if_pos herrors] at h
      rcases h with ⟨item, hitem, hv⟩ | h
      · exact absurd hv (hretry item hitem)
      · obtain ⟨item, hitem, hstatus⟩ := h nth hnth
        have hv : verdict item = .settled := by
          rcases hv : verdict item with _ | reason | _
          · exact absurd hv (hretry item (List.mem_of_getElem? hitem))
          · exact absurd (mem_refusedFrom.mpr ⟨nth, item, (Nat.zero_add nth).symm, hitem, hv⟩)
              (hnot reason)
          · rfl
        rcases hstatus with hsuccess | ⟨reason, hrefused⟩
        · exact ⟨status, body, rfl, hsuccess, item, hitem, confirms_of_settled hv⟩
        · rw [hv] at hrefused
          cases hrefused

/-- An answer that is answered honestly is accountable. -/
theorem accountable_of_honest (hsingle : ∀ op ∈ batch, op.op.isCascade = false)
    (h : Honest batch answer (bulkOnce batch answer)) : Accountable batch.length answer := by
  rcases answer with why | ⟨status, why | body⟩
  · exact trivial
  · exact trivial
  · by_cases hbusy : isBusy status
    · exact .inl hbusy
    · refine .inr ?_
      obtain ⟨hclean, htriaged⟩ := @bulkOnce_of_reply batch hsingle status body hbusy
      split
      · next herrors =>
        by_cases hretry : ∃ item ∈ items body, verdict item = .retryable
        · exact .inl hretry
        · refine .inr fun nth hnth => ?_
          obtain ⟨lsn, hok⟩ := htriaged herrors fun item hitem hv => hretry ⟨item, hitem, hv⟩
          by_cases hrefused : ∃ reason, (nth, reason) ∈ refusedFrom 0 (items body)
          · obtain ⟨reason, hmem⟩ := hrefused
            obtain ⟨i, item, hi, hitem, hv⟩ := mem_refusedFrom.mp hmem
            rw [Nat.zero_add] at hi
            exact ⟨item, hi ▸ hitem, .inr ⟨reason, hv⟩⟩
          · obtain ⟨status', body', heq, hsuccess, item, hitem, -⟩ :=
              h lsn _ hok nth hnth fun reason hmem => hrefused ⟨reason, hmem⟩
            injection heq with hstatus hbody
            injection hbody with hbody
            exact ⟨item, by rw [hbody]; exact hitem, .inl (hstatus ▸ hsuccess)⟩
      · next herrors =>
        intro nth hnth
        obtain ⟨lsn, hok⟩ := hclean herrors
        obtain ⟨status', body', heq, hsuccess, item, hitem, hconfirms⟩ :=
          h lsn _ hok nth hnth fun reason hmem => absurd hmem List.not_mem_nil
        injection heq with hstatus hbody
        injection hbody with hbody
        exact ⟨hstatus ▸ hsuccess, item, by rw [hbody]; exact hitem, hconfirms⟩

/-! ## A whole write -/

/-- The operation at a position of a batch is reported refused, or some answer to
a request that covered it confirms it. -/
def AccountedAt (target : BulkTarget) (refused : List (ℕ × String))
    (nth : ℕ) : Prop :=
  (∃ reason, (nth, reason) ∈ refused) ∨
    ∃ start failures, start ≤ nth ∧ ConfirmedAt (target.answer start failures) (nth - start)

/-- An acknowledgement is honest: every upsert and delete of the batch is in its
rejected list or confirmed by an answer. -/
def HonestAck (target : BulkTarget) (batch : List LsnOp) (ack : SinkAck) : Prop :=
  ∀ nth op, batch[nth]? = some op → op.op.isCascade = false →
    (∃ reason, Rejection.mk op.op.index op.op.id reason op.lsn op.op ∈ ack.rejected) ∨
      ∃ start failures, start ≤ nth ∧ ConfirmedAt (target.answer start failures) (nth - start)

/-- Every answer is accountable for the run it answers. -/
def AccountableTarget (target : BulkTarget) (batch : List LsnOp) : Prop :=
  ∀ start failures stop, start < stop → stop ≤ batch.length →
    Accountable (stop - start) (target.answer start failures)

variable {target : BulkTarget} {retry : RetryPolicy}

theorem bulkWithRetry_accounts (htarget : AccountableTarget target batch) {start stop : ℕ}
    (hlt : start < stop) (hle : stop ≤ batch.length)
    (h : bulkWithRetry retry target batch start stop = .ok refused) :
    ∀ nth, start ≤ nth → nth < stop → AccountedAt target refused nth := by
  intro nth hstart hstop
  obtain ⟨⟨lsn, inRun⟩, hretry, h⟩ := Except.bind_eq_ok h
  injection h with h
  obtain ⟨failures, hok⟩ := retryTransient_eq_ok hretry
  have hlength : ((batch.drop start).take (stop - start)).length = stop - start := by
    rw [List.length_take, List.length_drop]
    omega
  have haccountable : Accountable ((batch.drop start).take (stop - start)).length
      (target.answer start failures) := by
    rw [hlength]
    exact htarget start failures stop hlt hle
  have hhonest := honest_of_accountable haccountable
  by_cases hin : ∃ reason, (nth - start, reason) ∈ inRun
  · obtain ⟨reason, hmem⟩ := hin
    refine .inl ⟨reason, ?_⟩
    rw [← h]
    refine List.mem_map.mpr ⟨(nth - start, reason), hmem, ?_⟩
    simp only [Prod.mk.injEq, and_true]
    omega
  · exact .inr ⟨start, failures, hstart, hhonest lsn inRun hok (nth - start)
      (by rw [hlength]; omega) fun reason hmem => hin ⟨reason, hmem⟩⟩

theorem AccountedAt.append_left {nth : ℕ} (h : AccountedAt target refused nth)
    (more : List (ℕ × String)) : AccountedAt target (refused ++ more) nth := by
  rcases h with ⟨reason, hmem⟩ | h
  · exact .inl ⟨reason, List.mem_append_left _ hmem⟩
  · exact .inr h

theorem AccountedAt.append_right {nth : ℕ} (h : AccountedAt target refused nth)
    (before : List (ℕ × String)) : AccountedAt target (before ++ refused) nth := by
  rcases h with ⟨reason, hmem⟩ | h
  · exact .inl ⟨reason, List.mem_append_right _ hmem⟩
  · exact .inr h

theorem drop_eq_cons {batch rest : List LsnOp} {nth : ℕ} {head : LsnOp}
    (h : head :: rest = batch.drop nth) : batch[nth]? = some head ∧ rest = batch.drop (nth + 1) := by
  rw [← List.head?_drop, ← List.tail_drop, ← h]
  exact ⟨rfl, rfl⟩

/-- **The run lemma.** By induction on the operations still to come: everything
from the start of the run in progress on is accounted for. -/
theorem writeRuns_accounts (htarget : AccountableTarget target batch) {rest : List LsnOp} :
    ∀ {nth start : ℕ} {refused : List (ℕ × String)}, rest = batch.drop nth → start ≤ nth →
      nth ≤ batch.length → writeRuns retry target batch nth start rest = .ok refused →
      ∀ p op, start ≤ p → batch[p]? = some op → op.op.isCascade = false →
        AccountedAt target refused p := by
  induction rest with
  | nil =>
    intro nth start refused hrest hstart hnth h p op hp hop _
    have hlen : batch.length ≤ nth := List.drop_eq_nil_iff.mp hrest.symm
    have hplen : p < batch.length := (List.getElem?_eq_some_iff.mp hop).1
    rw [writeRuns, bulkRun, if_pos (by omega)] at h
    exact bulkWithRetry_accounts htarget (by omega) le_rfl h p hp hplen
  | cons head rest ih =>
    intro nth start refused hrest hstart hnth h p op hp hop hsingle
    obtain ⟨hhead, htail⟩ := drop_eq_cons hrest
    have hnth' : nth < batch.length := (List.getElem?_eq_some_iff.mp hhead).1
    rw [writeRuns] at h
    by_cases hcascade : head.op.isCascade
    · -- a cascade: the run before it is written first, the next one begins behind it
      rw [if_pos hcascade] at h
      obtain ⟨before, hbefore, h⟩ := Except.bind_eq_ok h
      obtain ⟨⟨⟩, -, h⟩ := Except.bind_eq_ok h
      obtain ⟨others, hothers, h⟩ := Except.bind_eq_ok h
      injection h with h
      rw [← h]
      rcases Nat.lt_trichotomy p nth with hlt | heq | hgt
      · rw [bulkRun, if_pos (by omega)] at hbefore
        exact (bulkWithRetry_accounts htarget (by omega) hnth hbefore p hp hlt).append_left others
      · subst heq
        rw [hhead] at hop
        injection hop with hop
        rw [← hop, hcascade] at hsingle
        cases hsingle
      · exact (ih htail le_rfl (by omega) hothers p op (by omega) hop hsingle).append_right before
    · rw [if_neg hcascade] at h
      exact ih htail (by omega) (by omega) h p op hp hop hsingle

/-- The rejection of the operation at a place. -/
def rejectionAt (batch : List LsnOp) (place : ℕ × String) : Option Rejection :=
  batch[place.1]?.map fun op => ⟨op.op.index, op.op.id, place.2, op.lsn, op.op⟩

theorem rejections_eq_ok {rejected : List Rejection} (h : rejections batch refused = .ok rejected) :
    rejected = refused.filterMap (rejectionAt batch) := by
  induction refused generalizing rejected with
  | nil =>
    cases h
    rfl
  | cons place rest ih =>
    obtain ⟨nth, reason⟩ := place
    obtain ⟨first, hfirst, h⟩ := Except.bind_eq_ok h
    obtain ⟨others, hothers, h⟩ := Except.bind_eq_ok h
    cases h
    rw [rejection] at hfirst
    rw [List.filterMap_cons, rejectionAt]
    split at hfirst
    · cases hfirst
    · next op hop =>
      cases hfirst
      rw [hop, ih hothers]
      rfl

/-- What a write acknowledges with are the rejections of what its requests refused. -/
theorem bulkWrite_eq_ok {ack : SinkAck} (h : bulkWrite retry target batch = .ok ack) :
    ∃ refused, writeRuns retry target batch 0 0 batch = .ok refused ∧
      ack.rejected = refused.filterMap (rejectionAt batch) := by
  rw [bulkWrite] at h
  split at h
  · cases h
  · obtain ⟨⟨⟩, -, h⟩ := Except.bind_eq_ok h
    obtain ⟨refused, hrefused, h⟩ := Except.bind_eq_ok h
    obtain ⟨rejected, hrejected, h⟩ := Except.bind_eq_ok h
    cases h
    exact ⟨refused, hrefused, rejections_eq_ok hrejected⟩

/-- A write whose answers are all accountable acknowledges honestly. -/
theorem bulkWrite_honest {ack : SinkAck} (htarget : AccountableTarget target batch)
    (h : bulkWrite retry target batch = .ok ack) : HonestAck target batch ack := by
  intro nth op hop hsingle
  obtain ⟨refused, hrefused, hrejected⟩ := bulkWrite_eq_ok h
  refine (writeRuns_accounts htarget rfl le_rfl (Nat.zero_le _) hrefused nth op (Nat.zero_le _) hop
    hsingle).imp_left ?_
  rintro ⟨reason, hmem⟩
  refine ⟨reason, ?_⟩
  rw [hrejected, List.mem_filterMap]
  exact ⟨_, hmem, by rw [rejectionAt, hop]; rfl⟩

/-! ## When a bulk request is honest -/

/-- **A bulk request is honest exactly about an accountable answer**, in both
sinks, and so is every write whose answers are accountable. -/
theorem bulkOnce_honest_iff {batch : List LsnOp}
    (hsingle : ∀ op ∈ batch, op.op.isCascade = false) :
    (∀ answer, Honest batch answer (OpenSearchSink.bulkOnce batch answer) ↔
        Accountable batch.length answer) ∧
      (∀ answer, Honest batch answer (ElasticsearchSink.bulkOnce batch answer) ↔
        Accountable batch.length answer) ∧
      ∀ retry target ack, AccountableTarget target batch →
        bulkWrite retry target batch = .ok ack → HonestAck target batch ack :=
  ⟨fun _ => ⟨accountable_of_honest hsingle, honest_of_accountable⟩,
    fun _ => ⟨accountable_of_honest hsingle, honest_of_accountable⟩,
    fun _ _ _ htarget h => bulkWrite_honest htarget h⟩

/-! ## A refused request taken for a success -/

/-- One upsert. -/
def oneUpsert : List LsnOp :=
  [⟨5, .upsert "t" "1" none (.obj []) (some 5) none⟩]

/-- What a request without permission is answered. -/
def forbidden : BulkAnswer :=
  .reply 403 (.ok (.obj [("error", .obj [("type", .str "security_exception")]),
    ("status", .int 403)]))

/-- A 403 is acknowledged: the body has no `"errors": true`. -/
theorem forbidden_not_honest :
    OpenSearchSink.bulkOnce oneUpsert forbidden = .ok (5, []) ∧
      ¬ Honest oneUpsert forbidden (OpenSearchSink.bulkOnce oneUpsert forbidden) := by
  refine ⟨by decide, fun hhonest => ?_⟩
  obtain ⟨status, body, heq, hsuccess, -⟩ :=
    hhonest 5 [] (by decide) 0 (by decide) fun reason hmem => absurd hmem List.not_mem_nil
  injection heq with hstatus
  rw [← hstatus] at hsuccess
  exact absurd hsuccess (by decide)

/-- What it is answered when it is stored. -/
def created : BulkAnswer :=
  .reply 200 (.ok (.obj [("errors", .bool false),
    ("items", .arr [.obj [("index", .obj [("status", .int 201)])]])]))

/-- The same upsert answered with its item. -/
theorem created_honest : Honest oneUpsert created (OpenSearchSink.bulkOnce oneUpsert created) := by
  have hsingle : ∀ op ∈ oneUpsert, op.op.isCascade = false := by decide
  refine ((bulkOnce_honest_iff hsingle).1 created).mpr (.inr ?_)
  rw [if_neg (by decide)]
  intro nth hnth
  have hzero : nth = 0 := Nat.lt_one_iff.mp hnth
  subst hzero
  exact ⟨by decide, _, rfl, .inl (by decide)⟩

end Pg2osync
