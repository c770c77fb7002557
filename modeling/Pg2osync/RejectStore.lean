import Pg2osync.BulkHonesty
import Pg2osync.Quarantine
import Pg2osync.StateDocuments

/-!
# Documents that were refused

What the target refuses for good is set aside in an index of its own, one document for each
refused one, and can be read back and submitted again. A batch is written in the runs between
its cascades, so the positions a run's answer names are put back where the batch has them. A
refused document is filed under its index and its id, put together; of two refusals of one
document the newer one is kept.
-/

namespace Pg2osync

open Json

/-! ## The stored form -/

/-- `json!` of an optional string. -/
def optionalText (text : Option String) : Json :=
  text.elim .null .str

/-- `json!` of an optional `u64`. -/
def optionalWord (word : Option ℕ) : Json :=
  word.elim .null fun n => .int n

/-- What kind of operation was refused. -/
def rejectAction : DocumentOp → String
  | .upsert .. => "upsert"
  | .delete .. => "delete"
  | .deleteChildren .. => "delete_children"

/-- The document of a refused upsert. -/
def rejectDocument : DocumentOp → Json
  | .upsert _ _ _ doc _ _ => doc
  | .delete .. | .deleteChildren .. => .null

/-- The fields that every rejection is stored with. -/
def rejectFields (now : ℕ) (r : Rejection) : List (String × Json) :=
  [("index", .str r.index), ("doc_id", .str r.docId), ("reason", .str r.reason),
    ("position", .int r.lsn), ("action", .str (rejectAction r.op)),
    ("document", rejectDocument r.op), ("version", optionalWord r.op.version),
    ("at_epoch", .int now)]

/-- `reject_doc`, at an epoch second. -/
def rejectDoc (now : ℕ) (r : Rejection) : Json :=
  let doc := Json.extendFields [] (rejectFields now r)
  .obj (match r.op with
    | .upsert _ _ routing _ _ pipeline =>
      Json.insertField "pipeline" (optionalText pipeline)
        (Json.insertField "routing" (optionalText routing) doc)
    | .delete _ _ routing _ => Json.insertField "routing" (optionalText routing) doc
    | .deleteChildren _ field parentName parentId _ =>
      Json.insertField "parent_id" (.str parentId)
        (Json.insertField "parent_name" (.str parentName)
          (Json.insertField "field" (.str field) doc)))

/-- The operation of a stored rejection. -/
def rejectedOp (src : Json) (index docId action : String) : Option DocumentOp :=
  let version := (src.index "version").asU64
  let routing := (src.index "routing").asStr
  if action = "upsert" then
    some (.upsert index docId routing (src.index "document") version (src.index "pipeline").asStr)
  else if action = "delete" then some (.delete index docId routing version)
  else if action = "delete_children" then
    (src.index "field").asStr.bind fun field =>
      (src.index "parent_name").asStr.bind fun parentName =>
        (src.index "parent_id").asStr.map fun parentId =>
          .deleteChildren index field parentName parentId version
  else none

/-- `reject_from_doc`. -/
def rejectFromDoc (id : String) (src : Json) : Option StoredReject :=
  (src.index "index").asStr.bind fun index =>
    (src.index "doc_id").asStr.bind fun docId =>
      (src.index "action").asStr.bind fun action =>
        (rejectedOp src index docId action).bind fun op =>
          (src.index "position").asU64.map fun lsn =>
            ⟨id, ⟨index, docId, ((src.index "reason").asStr).getD "", lsn, op⟩,
              ((src.index "at_epoch").asU64).getD 0⟩

/-- A rejection as a write reports it: the index and the id are the operation's, and its numbers
are words. -/
structure Rejection.Reported (r : Rejection) : Prop where
  /-- the index of the operation -/
  index : r.index = r.op.index
  /-- its document's id -/
  docId : r.docId = r.op.id
  /-- a position is a `u64` -/
  lsn : r.lsn < 2 ^ 64
  /-- and so is a version -/
  version : ∀ v, r.op.version = some v → v < 2 ^ 64

theorem asStr_optionalText (text : Option String) : (optionalText text).asStr = text := by
  cases text <;> rfl

theorem asU64_int {n : ℕ} (h : n < 2 ^ 64) : (Json.int n).asU64 = some n := by
  rw [Json.asU64, if_pos ⟨by omega, by exact_mod_cast h⟩, Int.toNat_natCast]

theorem asU64_optionalWord {word : Option ℕ} (h : ∀ v, word = some v → v < 2 ^ 64) :
    (optionalWord word).asU64 = word := by
  cases word with
  | none => rfl
  | some v => exact asU64_int (h v rfl)

variable {r : Rejection} {now : ℕ}

theorem lookup_rejectFields {key : String} {value : Json} (h : (key, value) ∈ rejectFields now r) :
    lookup key (Json.extendFields [] (rejectFields now r)) = some value :=
  Json.lookup_extendFields_of_mem
    (show ["index", "doc_id", "reason", "position", "action", "document", "version",
      "at_epoch"].Nodup by decide) h

/-- The fields that depend on the operation have names of their own. -/
theorem index_rejectDoc {key : String} {value : Json} (h : (key, value) ∈ rejectFields now r) :
    (rejectDoc now r).index key = value := by
  have hlook := lookup_rejectFields h
  have hkey : key ∈ ["index", "doc_id", "reason", "position", "action", "document", "version",
      "at_epoch"] := List.mem_map_of_mem (f := Prod.fst) h
  have hdisjoint : ∀ name ∈ ["routing", "pipeline", "field", "parent_name", "parent_id"],
      name ∉ ["index", "doc_id", "reason", "position", "action", "document", "version",
        "at_epoch"] := by decide
  have hapart : ∀ name ∈ ["routing", "pipeline", "field", "parent_name", "parent_id"],
      key ≠ name := fun name hname heq => hdisjoint name hname (heq ▸ hkey)
  have hne : ∀ name (other : Json) (fields : List (String × Json)),
      name ∈ ["routing", "pipeline", "field", "parent_name", "parent_id"] →
      lookup key (insertField name other fields) = lookup key fields :=
    fun name other fields hname => lookup_insertField_ne (hapart name hname) other fields
  rw [rejectDoc, Json.index, Json.get]
  split
  · rw [hne _ _ _ (by decide), hne _ _ _ (by decide), hlook]
    rfl
  · rw [hne _ _ _ (by decide), hlook]
    rfl
  · rw [hne _ _ _ (by decide), hne _ _ _ (by decide), hne _ _ _ (by decide), hlook]
    rfl

theorem rejectedOp_rejectDoc (hr : r.Reported) (now : ℕ) :
    rejectedOp (rejectDoc now r) r.index r.docId (rejectAction r.op) = some r.op := by
  have hversion : ((rejectDoc now r).index "version").asU64 = r.op.version := by
    have hfield : (rejectDoc now r).index "version" = optionalWord r.op.version :=
      index_rejectDoc (by simp [rejectFields])
    rw [hfield, asU64_optionalWord hr.version]
  have hdocument : (rejectDoc now r).index "document" = rejectDocument r.op :=
    index_rejectDoc (by simp [rejectFields])
  rw [rejectedOp, hversion, hdocument, hr.index, hr.docId]
  cases hop : r.op with
  | upsert index id routing doc version pipeline =>
    have hrouting : ((rejectDoc now r).index "routing").asStr = routing := by
      rw [rejectDoc, hop, Json.index, Json.get, lookup_insertField_ne (by decide),
        lookup_insertField_self]
      exact asStr_optionalText routing
    have hpipeline : ((rejectDoc now r).index "pipeline").asStr = pipeline := by
      rw [rejectDoc, hop, Json.index, Json.get, lookup_insertField_self]
      exact asStr_optionalText pipeline
    rw [hrouting, hpipeline]
    rfl
  | delete index id routing version =>
    have hrouting : ((rejectDoc now r).index "routing").asStr = routing := by
      rw [rejectDoc, hop, Json.index, Json.get, lookup_insertField_self]
      exact asStr_optionalText routing
    rw [hrouting]
    rfl
  | deleteChildren index field parentName parentId version =>
    have hfield : ((rejectDoc now r).index "field").asStr = some field := by
      rw [rejectDoc, hop, Json.index, Json.get, lookup_insertField_ne (by decide),
        lookup_insertField_ne (by decide), lookup_insertField_self]
      rfl
    have hname : ((rejectDoc now r).index "parent_name").asStr = some parentName := by
      rw [rejectDoc, hop, Json.index, Json.get, lookup_insertField_ne (by decide),
        lookup_insertField_self]
      rfl
    have hid : ((rejectDoc now r).index "parent_id").asStr = some parentId := by
      rw [rejectDoc, hop, Json.index, Json.get, lookup_insertField_self]
      rfl
    rw [hfield, hname, hid]
    rfl

/-- What is stored of a rejection is read back as it. -/
theorem rejectFromDoc_rejectDoc (hr : r.Reported) (hnow : now < 2 ^ 64) (id : String) :
    rejectFromDoc id (rejectDoc now r) = some ⟨id, r, now⟩ := by
  have hfield : ∀ key value, (key, value) ∈ rejectFields now r →
      (rejectDoc now r).index key = value := fun key value h => index_rejectDoc h
  rw [rejectFromDoc, hfield "index" (.str r.index) (by simp [rejectFields]),
    hfield "doc_id" (.str r.docId) (by simp [rejectFields]),
    hfield "action" (.str (rejectAction r.op)) (by simp [rejectFields]),
    hfield "position" (.int r.lsn) (by simp [rejectFields]),
    hfield "reason" (.str r.reason) (by simp [rejectFields]),
    hfield "at_epoch" (.int now) (by simp [rejectFields]), asU64_int hr.lsn, asU64_int hnow]
  simp only [asStr, Option.bind_some, rejectedOp_rejectDoc hr, Option.map_some,
    Option.getD_some]

/-! ## What a write reports

Which operations of a batch the target refuses, and why, is a function of their places. -/

/-- The refused places of a stretch of a batch, each with why. -/
def refusedPlaces (why : ℕ → Option String) (start length : ℕ) : List (ℕ × String) :=
  (List.range' start length).filterMap fun nth => (why nth).map fun reason => (nth, reason)

/-- The rejections of a batch, in its order. -/
def refusedOps (batch : List LsnOp) (why : ℕ → Option String) : List Rejection :=
  (refusedPlaces why 0 batch.length).filterMap (rejectionAt batch)

/-- An answer says of the request that begins at a place which operations were refused: one that
is not to be tried again has an item for each of them in order, or says that nothing failed. -/
def Tells (why : ℕ → Option String) (start length : ℕ) : BulkAnswer → Prop
  | .unreachable _ | .reply _ (.error _) => True
  | .reply _ (.ok body) =>
    if body.index "errors" = .bool true then
      (∃ item ∈ items body, verdict item = .retryable) ∨
        ((items body).length = length ∧ ∀ i item, (items body)[i]? = some item →
          ∀ reason, verdict item = .refused reason ↔ why (start + i) = some reason)
    else ∀ i < length, why (start + i) = none

/-- A batch has a cascade at a place. -/
def HasCascade (batch : List LsnOp) (nth : ℕ) : Prop :=
  ∃ op, batch[nth]? = some op ∧ op.op.isCascade = true

/-- A stretch of a batch that is one request: from the start of the batch or behind a cascade, up
to the next cascade or the end. -/
structure IsRun (batch : List LsnOp) (start stop : ℕ) : Prop where
  /-- it is not empty -/
  lt : start < stop
  /-- it is of the batch -/
  le : stop ≤ batch.length
  /-- nothing that belongs to it comes before it -/
  begins : start = 0 ∨ HasCascade batch (start - 1)
  /-- or behind it -/
  ends : stop = batch.length ∨ HasCascade batch stop
  /-- no cascade is in it -/
  single : ∀ nth, start ≤ nth → nth < stop → ¬HasCascade batch nth

/-- Every answer tells of the run it answers, and a cascade is refused by no answer. -/
structure TellsAll (target : BulkTarget) (batch : List LsnOp) (why : ℕ → Option String) : Prop where
  /-- every answer to a request -/
  answers : ∀ start stop failures, IsRun batch start stop →
    Tells why start (stop - start) (target.answer start failures)
  /-- what is refused is an upsert or a delete -/
  single : ∀ nth op, batch[nth]? = some op → op.op.isCascade = true → why nth = none

section

variable {why : ℕ → Option String}

theorem refusedPlaces_add (start a b : ℕ) : refusedPlaces why start (a + b) =
    refusedPlaces why start a ++ refusedPlaces why (start + a) b := by
  rw [refusedPlaces, ← List.range'_append_1, List.filterMap_append]
  rfl

theorem refusedPlaces_one (start : ℕ) (h : why start = none) : refusedPlaces why start 1 = [] := by
  simp [refusedPlaces, h]

/-- The places in a run, put back where the batch has them. -/
theorem map_refusedPlaces (start from_ length : ℕ) :
    (refusedPlaces (fun i => why (start + i)) from_ length).map (fun p => (start + p.1, p.2)) =
      refusedPlaces why (start + from_) length := by
  induction length generalizing from_ with
  | zero => rfl
  | succ length ih =>
    have hrest := ih (from_ + 1)
    simp only [refusedPlaces, List.range'_succ, List.filterMap_cons] at hrest ⊢
    rw [Nat.add_assoc]
    cases why (start + from_) with
    | none => exact hrest
    | some reason => exact congrArg ((start + from_, reason) :: ·) hrest

theorem refusedFrom_eq {its : List Json} {start nth : ℕ}
    (h : ∀ i item, its[i]? = some item → ∀ reason,
      verdict item = .refused reason ↔ why (start + (nth + i)) = some reason) :
    refusedFrom nth its = refusedPlaces (fun i => why (start + i)) nth its.length := by
  induction its generalizing nth with
  | nil => rfl
  | cons item rest ih =>
    have hfirst := h 0 item rfl
    have hrest : refusedFrom (nth + 1) rest =
        refusedPlaces (fun i => why (start + i)) (nth + 1) rest.length :=
      ih fun i it hit reason => by
        rw [h (i + 1) it (by simpa using hit) reason, Nat.add_right_comm nth 1 i,
          Nat.add_assoc nth i 1]
    rw [refusedFrom, List.length_cons, refusedPlaces, List.range'_succ, List.filterMap_cons]
    cases hwhy : why (start + nth) with
    | some reason =>
      have hverdict := (hfirst reason).mpr hwhy
      rw [hverdict]
      exact congrArg ((nth, reason) :: ·) hrest
    | none =>
      have hverdict : ∀ reason, verdict item ≠ .refused reason := by
        intro reason heq
        have hsome : why (start + nth) = some reason := (hfirst reason).mp heq
        rw [hwhy] at hsome
        cases hsome
      split
      · next reason heq => exact absurd heq (hverdict reason)
      · exact hrest

/-- What one request reports is what its answer tells of. -/
theorem refused_of_bulkOnce {run : List LsnOp} {start : ℕ} {answer : BulkAnswer} {lsn : Lsn}
    {refused : List (ℕ × String)} (htells : Tells why start run.length answer)
    (h : bulkOnce run answer = .ok (lsn, refused)) :
    refused = refusedPlaces (fun i => why (start + i)) 0 run.length := by
  obtain ⟨status, body, rfl, -, ⟨herrors, rfl⟩ | ⟨herrors, hretry, rfl⟩⟩ := bulkOnce_eq_ok h
  · rw [Tells, if_neg herrors] at htells
    refine (List.filterMap_eq_nil_iff.mpr fun nth hnth => ?_).symm
    have hlt : nth < run.length := by simpa using hnth
    exact congrArg (Option.map fun reason => (nth, reason)) (htells nth hlt)
  · rw [Tells, if_pos herrors] at htells
    rcases htells with ⟨item, hitem, hverdict⟩ | ⟨hlength, hitems⟩
    · exact absurd hverdict (hretry item hitem)
    · rw [← hlength]
      exact refusedFrom_eq fun i item hitem reason => by
        rw [Nat.zero_add]
        exact hitems i item hitem reason

variable {retry : RetryPolicy} {target : BulkTarget} {batch : List LsnOp}

theorem refused_of_bulkRun (htells : TellsAll target batch why) {start stop : ℕ}
    (hle : stop ≤ batch.length) (hstart : start ≤ stop)
    (hbegins : start = 0 ∨ HasCascade batch (start - 1))
    (hends : stop = batch.length ∨ HasCascade batch stop)
    (hsingle : ∀ nth, start ≤ nth → nth < stop → ¬HasCascade batch nth)
    {refused : List (ℕ × String)}
    (h : bulkRun retry target batch start stop = .ok refused) :
    refused = refusedPlaces why start (stop - start) := by
  rw [bulkRun] at h
  split at h
  · next hlt =>
    obtain ⟨⟨lsn, inRun⟩, hretry, h⟩ := Except.bind_eq_ok h
    obtain ⟨failures, hok⟩ := retryTransient_eq_ok hretry
    have hlength : ((batch.drop start).take (stop - start)).length = stop - start := by
      rw [List.length_take, List.length_drop]
      omega
    have hrun := refused_of_bulkOnce
      (hlength.symm ▸ htells.answers start stop failures ⟨hlt, hle, hbegins, hends, hsingle⟩) hok
    cases h
    rw [hrun, hlength]
    exact map_refusedPlaces start 0 (stop - start)
  · next hge =>
    cases h
    rw [show stop - start = 0 by omega]
    rfl

/-- The run lemma, by induction on the operations still to come: from the start of the run in
progress on, the places reported are the places refused. -/
theorem refused_of_writeRuns (htells : TellsAll target batch why) {rest : List LsnOp} :
    ∀ {nth start : ℕ} {refused : List (ℕ × String)}, rest = batch.drop nth → start ≤ nth →
      nth ≤ batch.length → (start = 0 ∨ HasCascade batch (start - 1)) →
      (∀ k, start ≤ k → k < nth → ¬HasCascade batch k) →
      writeRuns retry target batch nth start rest = .ok refused →
      refused = refusedPlaces why start (batch.length - start) := by
  induction rest with
  | nil =>
    intro nth start refused hrest hstart hnth hbegins hsingle h
    have hlen : batch.length ≤ nth := List.drop_eq_nil_iff.mp hrest.symm
    exact refused_of_bulkRun htells le_rfl (hstart.trans hnth) hbegins (Or.inl rfl)
      (fun k hk hlt => hsingle k hk (hlt.trans_le hlen)) h
  | cons head rest ih =>
    intro nth start refused hrest hstart hnth hbegins hsingle h
    obtain ⟨hhead, htail⟩ := drop_eq_cons hrest
    have hlt : nth < batch.length := (List.getElem?_eq_some_iff.mp hhead).1
    rw [writeRuns] at h
    by_cases hcascade : head.op.isCascade
    · rw [if_pos hcascade] at h
      obtain ⟨before, hbefore, h⟩ := Except.bind_eq_ok h
      obtain ⟨⟨⟩, -, h⟩ := Except.bind_eq_ok h
      obtain ⟨others, hothers, h⟩ := Except.bind_eq_ok h
      cases h
      -- the run before the cascade, the cascade itself, and everything behind it
      have hsplit : batch.length - start = (nth - start) + (1 + (batch.length - (nth + 1))) := by
        omega
      have hat : HasCascade batch nth := ⟨head, hhead, hcascade⟩
      rw [refused_of_bulkRun htells hlt.le hstart hbegins (Or.inr hat) hsingle hbefore,
        ih htail le_rfl hlt (Or.inr hat) (fun k hk hlt => absurd hk (Nat.not_le.mpr hlt)) hothers,
        hsplit, refusedPlaces_add, refusedPlaces_add, Nat.add_sub_cancel' hstart,
        refusedPlaces_one nth (htells.single nth head hhead hcascade), List.nil_append]
    · rw [if_neg hcascade] at h
      refine ih htail (hstart.trans (Nat.le_succ nth)) hlt hbegins (fun k hk hkn => ?_) h
      rcases Nat.lt_succ_iff_lt_or_eq.mp hkn with hbefore | rfl
      · exact hsingle k hk hbefore
      · rintro ⟨op, hop, hop'⟩
        rw [hhead] at hop
        cases hop
        exact hcascade hop'

/-- A write reports the refused operations of its batch, wherever its cascades stand. -/
theorem rejected_of_bulkWrite (htells : TellsAll target batch why) {ack : SinkAck}
    (h : bulkWrite retry target batch = .ok ack) : ack.rejected = refusedOps batch why := by
  obtain ⟨refused, hrefused, hrejected⟩ := bulkWrite_eq_ok h
  have hplaces := refused_of_writeRuns htells rfl le_rfl (Nat.zero_le _) (Or.inl rfl)
    (fun k _ hk => absurd hk (Nat.not_lt_zero k)) hrefused
  rw [hrejected, hplaces]
  rfl

end

/-! ## What is set aside -/

/-- The documents set aside, by the id they are filed under. -/
abbrev RejectStore := String → Option Json

section

variable (alphanumeric : Char → Bool) (now : ℕ → ℕ) (send : ℕ → Except CoreError Unit)

/-- The loop of `quarantine`: one request for each rejection. `now n` is the epoch second of the
`n`-th request and `send n` what came of it. -/
def fileAll : (nth : ℕ) → List Rejection → RejectStore → Except CoreError RejectStore
  | _, [], store => .ok store
  | nth, r :: rest, store => do
    send nth
    fileAll (nth + 1) rest
      (Function.update store (rejectDocId alphanumeric r.index r.docId) (some (rejectDoc (now nth) r)))

/-- `quarantine`; `ready` is what came of creating the index. -/
def quarantine (ready : Except CoreError Unit) (rejected : List Rejection) (store : RejectStore) :
    Except CoreError RejectStore :=
  if rejected = [] then .ok store
  else do
    ready
    fileAll alphanumeric now send 0 rejected store

/-- A rejection can be read back where it is filed. -/
def FiledAway (store : RejectStore) (r : Rejection) : Prop :=
  ∃ atEpoch, (store (rejectDocId alphanumeric r.index r.docId)).bind
    (rejectFromDoc (rejectDocId alphanumeric r.index r.docId)) =
      some ⟨rejectDocId alphanumeric r.index r.docId, r, atEpoch⟩

/-- Nothing that a batch was refused is lost. -/
structure NothingLost (batch : List LsnOp) (why : ℕ → Option String) (ack : SinkAck)
    (store : RejectStore) : Prop where
  /-- what is reported is what was refused, in the order of the batch -/
  reported : ack.rejected = refusedOps batch why
  /-- the newest refusal of each document is set aside -/
  filed : ∀ before r after, ack.rejected = before ++ r :: after →
    (∀ newer ∈ after, (newer.index, newer.docId) ≠ (r.index, r.docId)) →
      FiledAway alphanumeric store r
  /-- and what is set aside is read back as it was -/
  readBack : ∀ r : Rejection, r.Reported → ∀ id atEpoch, atEpoch < 2 ^ 64 →
    rejectFromDoc id (rejectDoc atEpoch r) = some ⟨id, r, atEpoch⟩

variable {alphanumeric now send}

/-- Two refusals are filed under one id exactly when their names are alike. -/
theorem rejectDocId_eq_iff {index docId index' docId' : String} :
    rejectDocId alphanumeric index docId = rejectDocId alphanumeric index' docId' ↔
      Alike alphanumeric (index ++ "-" ++ docId) (index' ++ "-" ++ docId') :=
  tame_eq_iff

variable {store store' : RejectStore}

theorem fileAll_of_notMem {nth : ℕ} {rejected : List Rejection} {id : String}
    (hid : ∀ r ∈ rejected, rejectDocId alphanumeric r.index r.docId ≠ id)
    (h : fileAll alphanumeric now send nth rejected store = .ok store') : store' id = store id := by
  induction rejected generalizing nth store with
  | nil =>
    cases h
    rfl
  | cons r rest ih =>
    obtain ⟨⟨⟩, -, h⟩ := Except.bind_eq_ok h
    rw [ih (fun q hq => hid q (List.mem_cons_of_mem r hq)) h]
    exact Function.update_of_ne (hid r List.mem_cons_self).symm _ _

/-- What is filed last under an id stays there. -/
theorem fileAll_newest {before after : List Rejection}
    (hafter : ∀ q ∈ after, rejectDocId alphanumeric q.index q.docId ≠
      rejectDocId alphanumeric r.index r.docId) {nth : ℕ}
    (h : fileAll alphanumeric now send nth (before ++ r :: after) store = .ok store') :
    store' (rejectDocId alphanumeric r.index r.docId) =
      some (rejectDoc (now (nth + before.length)) r) := by
  induction before generalizing nth store with
  | nil =>
    obtain ⟨⟨⟩, -, h⟩ := Except.bind_eq_ok h
    rw [fileAll_of_notMem hafter h, Function.update_self]
    rfl
  | cons q before ih =>
    obtain ⟨⟨⟩, -, h⟩ := Except.bind_eq_ok h
    rw [ih h, List.length_cons, Nat.add_right_comm nth 1, Nat.add_assoc]

theorem fileAll_of_quarantine {ready : Except CoreError Unit} {rejected : List Rejection}
    (h : quarantine alphanumeric now send ready rejected store = .ok store') :
    fileAll alphanumeric now send 0 rejected store = .ok store' := by
  rw [quarantine] at h
  split at h
  · next hnil =>
    rw [hnil]
    exact h
  · obtain ⟨⟨⟩, -, h⟩ := Except.bind_eq_ok h
    exact h

/-- The last element of a list that has a property. -/
theorem exists_newest {α : Type} {p : α → Prop} {xs : List α} (h : ∃ x ∈ xs, p x) :
    ∃ before x after, xs = before ++ x :: after ∧ p x ∧ ∀ y ∈ after, ¬p y := by
  induction xs with
  | nil =>
    obtain ⟨x, hx, -⟩ := h
    cases hx
  | cons y ys ih =>
    by_cases hrest : ∃ x ∈ ys, p x
    · obtain ⟨before, x, after, rfl, hx, hafter⟩ := ih hrest
      exact ⟨y :: before, x, after, rfl, hx, hafter⟩
    · obtain ⟨x, hx, hpx⟩ := h
      rcases List.mem_cons.mp hx with rfl | hx
      · exact ⟨[], x, ys, rfl, hpx, fun z hz hpz => hrest ⟨z, hz, hpz⟩⟩
      · exact absurd ⟨x, hx, hpx⟩ hrest

theorem reported_of_mem {batch : List LsnOp} {why : ℕ → Option String}
    (hwords : ∀ op ∈ batch, op.lsn < 2 ^ 64 ∧ ∀ v, op.op.version = some v → v < 2 ^ 64)
    (hr : r ∈ refusedOps batch why) : r.Reported := by
  obtain ⟨⟨nth, reason⟩, -, hat⟩ := List.mem_filterMap.mp hr
  obtain ⟨op, hop, rfl⟩ := Option.map_eq_some_iff.mp hat
  obtain ⟨hlsn, hversion⟩ := hwords op (List.mem_of_getElem? hop)
  exact ⟨rfl, rfl, hlsn, hversion⟩

/-- Nothing that a batch was refused is lost exactly when no two different documents that were
refused have names that are alike. -/
theorem nothingLost_iff {retry : RetryPolicy} {target : BulkTarget} {batch : List LsnOp}
    {why : ℕ → Option String} {ack : SinkAck} {ready : Except CoreError Unit}
    {store store' : RejectStore}
    (hwords : ∀ op ∈ batch, op.lsn < 2 ^ 64 ∧ ∀ v, op.op.version = some v → v < 2 ^ 64)
    (hnow : ∀ n, now n < 2 ^ 64) (htells : TellsAll target batch why)
    (hwrite : bulkWrite retry target batch = .ok ack)
    (hstore : quarantine alphanumeric now send ready ack.rejected store = .ok store') :
    NothingLost alphanumeric batch why ack store' ↔
      ∀ r ∈ refusedOps batch why, ∀ r' ∈ refusedOps batch why,
        (r.index, r.docId) ≠ (r'.index, r'.docId) →
          ¬Alike alphanumeric (r.index ++ "-" ++ r.docId) (r'.index ++ "-" ++ r'.docId) := by
  have hreported := rejected_of_bulkWrite htells hwrite
  have hfiled := fileAll_of_quarantine hstore
  rw [hreported] at hfiled
  constructor
  · intro h r hr r' hr' hne halike
    have hsame := rejectDocId_eq_iff.mpr halike
    -- the newest refusal filed under the id they share: one of the two documents is not its
    obtain ⟨before, s, after, hsplit, hs, hafter⟩ := exists_newest
      (p := fun q : Rejection => rejectDocId alphanumeric q.index q.docId =
        rejectDocId alphanumeric r.index r.docId) ⟨r, hr, rfl⟩
    have hstored := fileAll_newest (fun q hq => hs ▸ hafter q hq) (hsplit ▸ hfiled)
    have hmem : s ∈ refusedOps batch why := by
      rw [hsplit]
      exact List.mem_append_right _ List.mem_cons_self
    have hread := rejectFromDoc_rejectDoc (reported_of_mem hwords hmem)
      (hnow (0 + before.length)) (rejectDocId alphanumeric s.index s.docId)
    have hlost : ∀ q ∈ refusedOps batch why, rejectDocId alphanumeric q.index q.docId =
        rejectDocId alphanumeric s.index s.docId → (q.index, q.docId) = (s.index, s.docId) := by
      intro q hq hid
      obtain ⟨older, n, newer, hsplit', hkey, hnewer⟩ := exists_newest
        (p := fun p : Rejection => (p.index, p.docId) = (q.index, q.docId)) ⟨q, hq, rfl⟩
      obtain ⟨hindex, hdocId⟩ := Prod.mk.inj hkey
      obtain ⟨atEpoch, hback⟩ := h.filed older n newer (hreported.trans hsplit')
        fun p hp heq => hnewer p hp (heq.trans hkey)
      have hn : rejectDocId alphanumeric n.index n.docId =
          rejectDocId alphanumeric s.index s.docId := by rw [hindex, hdocId, hid]
      rw [hn, hstored, Option.bind_some, hread] at hback
      injection hback with hback
      injection hback with _ hrejection _
      rw [← hkey, ← hrejection]
    exact hne ((hlost r hr hs.symm).trans (hlost r' hr' (hsame.symm.trans hs.symm)).symm)
  · intro h
    refine ⟨hreported, fun before r after hsplit hnewest => ?_,
      fun r hr id atEpoch hat => rejectFromDoc_rejectDoc hr hat id⟩
    rw [hreported] at hsplit
    have hr : r ∈ refusedOps batch why := by
      rw [hsplit]
      exact List.mem_append_right _ List.mem_cons_self
    have hafter : ∀ q ∈ after, rejectDocId alphanumeric q.index q.docId ≠
        rejectDocId alphanumeric r.index r.docId := by
      intro q hq hid
      have hq' : q ∈ refusedOps batch why := by
        rw [hsplit]
        exact List.mem_append_right _ (List.mem_cons_of_mem r hq)
      exact h q hq' r hr (hnewest q hq) (rejectDocId_eq_iff.mp hid)
    have hstored : store' (rejectDocId alphanumeric r.index r.docId) =
        some (rejectDoc (now (0 + before.length)) r) := fileAll_newest hafter (hsplit ▸ hfiled)
    refine ⟨now (0 + before.length), ?_⟩
    rw [hstored, Option.bind_some]
    exact rejectFromDoc_rejectDoc (reported_of_mem hwords hr) (hnow _) _

end

/-! ## Two users whose names differ in one character -/

/-- Two documents, with a cascade between them. -/
def twoUsers (first second : String) : List LsnOp :=
  [⟨1, .upsert "users" first none .null (some 1) none⟩,
    ⟨2, .deleteChildren "users" "kind" "user" "7" (some 2)⟩,
    ⟨3, .upsert "users" second none .null (some 3) none⟩]

/-- Why the target refuses them. -/
def unmapped (nth : ℕ) : Option String :=
  if nth = 1 then none else some "mapper_parsing_exception: bad"

/-- One refused document in an answer. -/
def refusedItem : Json :=
  .obj [("index", .obj [("error", .obj [("reason", .str "bad"),
    ("type", .str "mapper_parsing_exception")]), ("status", .int 400)])]

/-- A target that refuses the one document of each request. -/
def refusing : BulkTarget where
  ensured := .ok ()
  answer _ _ := .reply 200 (.ok (.obj [("errors", .bool true), ("items", .arr [refusedItem])]))
  elapsed _ _ := 0
  cascade _ := .ok ()

theorem refusing_tells (first second : String) :
    TellsAll refusing (twoUsers first second) unmapped where
  answers start stop failures hrun := by
    have hcascade : ∀ nth, HasCascade (twoUsers first second) nth ↔ nth = 1 := by
      intro nth
      constructor
      · rintro ⟨op, hop, hop'⟩
        rcases nth with _ | _ | _ | nth
        · cases hop
          cases hop'
        · rfl
        · cases hop
          cases hop'
        · cases hop
      · rintro rfl
        exact ⟨_, rfl, rfl⟩
    obtain ⟨hlt, hle, hbegins, hends, hsingle⟩ := hrun
    simp only [hcascade] at hbegins hends hsingle
    have hlength : (twoUsers first second).length = 3 := rfl
    have hinside := hsingle 1
    -- each run is one document: the first, or the last
    have hone : stop - start = 1 ∧ start ≠ 1 := by omega
    have hwhy : unmapped (start + 0) = some "mapper_parsing_exception: bad" := if_neg hone.2
    have hverdict : verdict refusedItem = .refused "mapper_parsing_exception: bad" := by
      decide +kernel
    rw [refusing, Tells, if_pos (by decide)]
    refine Or.inr ⟨hone.1.symm, fun i item hitem reason => ?_⟩
    rcases i with _ | i
    · cases hitem
      rw [hwhy, hverdict]
      simp
    · cases hitem
  single nth op hop hcascade := by
    rcases nth with _ | _ | _ | nth
    · cases hop
      cases hcascade
    · rfl
    · cases hop
      cases hcascade
    · cases hop

/-- The policy of a target that is asked once. -/
def askedOnce : RetryPolicy := ⟨1, 0, none⟩

/-- What a write reports when both users are refused. -/
def bothRefused (first second : String) : SinkAck :=
  ⟨3, [⟨"users", first, "mapper_parsing_exception: bad", 1,
      .upsert "users" first none .null (some 1) none⟩,
    ⟨"users", second, "mapper_parsing_exception: bad", 3,
      .upsert "users" second none .null (some 3) none⟩]⟩

/-- What is set aside then. -/
def bothFiled (first second : String) : RejectStore :=
  Function.update
    (Function.update (fun _ => none) (rejectDocId Char.isAlphanum "users" first)
      (some (rejectDoc 0 ⟨"users", first, "mapper_parsing_exception: bad", 1,
        .upsert "users" first none .null (some 1) none⟩)))
    (rejectDocId Char.isAlphanum "users" second)
    (some (rejectDoc 0 ⟨"users", second, "mapper_parsing_exception: bad", 3,
      .upsert "users" second none .null (some 3) none⟩))

theorem quarantine_bothRefused (first second : String) :
    quarantine Char.isAlphanum (fun _ => 0) (fun _ => .ok ()) (.ok ())
      (bothRefused first second).rejected (fun _ => none) = .ok (bothFiled first second) := rfl

theorem twoUsers_words (first second : String) : ∀ op ∈ twoUsers first second,
    op.lsn < 2 ^ 64 ∧ ∀ v, op.op.version = some v → v < 2 ^ 64 := by
  intro op hop
  simp only [twoUsers, List.mem_cons, List.not_mem_nil, or_false] at hop
  rcases hop with rfl | rfl | rfl
  all_goals
    refine ⟨by norm_num, fun v hv => ?_⟩
    cases hv
    decide

/-- Two users whose names are not alike are both kept. -/
theorem nothingLost_apart :
    NothingLost Char.isAlphanum (twoUsers "ann" "bob") unmapped (bothRefused "ann" "bob")
      (bothFiled "ann" "bob") := by
  refine (nothingLost_iff (twoUsers_words "ann" "bob") (fun _ => by decide)
    (refusing_tells "ann" "bob")
    (show bulkWrite askedOnce refusing (twoUsers "ann" "bob") = .ok (bothRefused "ann" "bob") by
      decide +kernel) (quarantine_bothRefused "ann" "bob")).mpr ?_
  have hops : refusedOps (twoUsers "ann" "bob") unmapped = (bothRefused "ann" "bob").rejected := by
    decide
  intro r hr r' hr' hne halike
  have hid := rejectDocId_eq_iff.mpr halike
  rw [hops] at hr hr'
  simp only [bothRefused, List.mem_cons, List.not_mem_nil, or_false] at hr hr'
  rcases hr with rfl | rfl <;> rcases hr' with rfl | rfl
  · exact hne rfl
  · exact absurd hid (by decide)
  · exact absurd hid (by decide)
  · exact hne rfl

/-- A dot becomes an underscore: of two users that one batch was refused, the second takes the
place of the first. -/
theorem not_nothingLost :
    bulkWrite askedOnce refusing (twoUsers "a.b" "a_b") = .ok (bothRefused "a.b" "a_b") ∧
      quarantine Char.isAlphanum (fun _ => 0) (fun _ => .ok ()) (.ok ())
        (bothRefused "a.b" "a_b").rejected (fun _ => none) = .ok (bothFiled "a.b" "a_b") ∧
      ¬NothingLost Char.isAlphanum (twoUsers "a.b" "a_b") unmapped (bothRefused "a.b" "a_b")
        (bothFiled "a.b" "a_b") := by
  refine ⟨by decide +kernel, rfl, fun h => ?_⟩
  obtain ⟨atEpoch, hback⟩ := h.filed [] _ [_] rfl fun newer hnewer heq => by
    rw [List.mem_singleton.mp hnewer] at heq
    exact absurd heq (by decide)
  have hid : rejectDocId Char.isAlphanum "users" "a.b" =
      rejectDocId Char.isAlphanum "users" "a_b" := by decide
  have hsecond : Rejection.Reported ⟨"users", "a_b", "mapper_parsing_exception: bad", 3,
      .upsert "users" "a_b" none .null (some 3) none⟩ :=
    ⟨rfl, rfl, by norm_num, fun v hv => by cases hv; decide⟩
  rw [hid, bothFiled, Function.update_self, Option.bind_some,
    rejectFromDoc_rejectDoc hsecond (by decide)] at hback
  injection hback with hback
  injection hback with _ hrejection _
  exact absurd hrejection (by decide)

end Pg2osync
