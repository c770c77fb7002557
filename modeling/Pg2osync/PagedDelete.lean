import Mathlib.Logic.Function.Basic
import Pg2osync.Bulk
import Pg2osync.Concurrency
import Pg2osync.RoundLoop

/-!
# Deletion by pages

A truncate and a cascade remove documents the same way: they search a page of them, send a
delete of each at one version, and begin anew until a round deletes nothing. The target
declines the delete of a newer document, and so a round of those is meant to end the loop. But
which documents a page holds is the target's affair, and a delete can be declined for other
reasons. This says when what is left at the end is only newer.
-/

namespace Pg2osync

/-! ## The target -/

/-- What a target holds. -/
abbrev Store := DocKey → Slot

/-- A status that refuses a request, or one item of it. -/
def Refusal := { status : ℕ // ¬ isSuccess status }

/-- What became of a search. -/
inductive SearchAnswer : Type where
  /-- the request failed -/
  | unreachable (why : String) : SearchAnswer
  /-- the target refused it, and said why -/
  | refused (status : Refusal) (error : Json) : SearchAnswer
  /-- the target picks which of the documents it found make the page, and their order -/
  | page (picked : List DocKey) : SearchAnswer

/-- What became of the deletes of a page. -/
inductive DeletesAnswer : Type where
  /-- the request failed -/
  | unreachable (why : String) : DeletesAnswer
  /-- the target refused it as a whole -/
  | refused (status : Refusal) (error : Json) : DeletesAnswer
  /-- an item for each delete; the target refuses some of them, whatever the document holds -/
  | items (refusal : DocKey → Option Refusal) : DeletesAnswer

/-- What the target will say to the requests of one round. -/
structure RoundAnswers : Type where
  /-- of the search -/
  search : SearchAnswer
  /-- of the deletes -/
  deletes : DeletesAnswer

/-- One delete of a bulk request. -/
structure Removal : Type where
  /-- the document -/
  key : DocKey
  /-- the version it goes out with, of type `external_gte` -/
  version : Option ℕ
  deriving DecidableEq, Repr

/-- The body of a refusal. -/
def errorBody (status : Refusal) (error : Json) : Json :=
  .obj [("error", error), ("status", .int status.val)]

/-- One document of a page. -/
def hit (key : DocKey) : Json :=
  .obj ([("_id", .str key.id), ("_index", .str key.index)] ++
    (key.routing.map fun routing => ("_routing", Json.str routing)).toList)

/-- The body of a page. -/
def pageBody (page : List DocKey) : Json :=
  .obj [("hits", .obj [("hits", .arr (page.map hit))])]

/-- The status of a delete that the target carries out: `409` when the document is newer, `404`
when there is none. -/
def deleteStatus (version : Option ℕ) (slot : Slot) : ℕ :=
  if (slot.any fun held => version.any (· < held.1)) then 409
  else if (Slot.content slot).isNone then 404
  else 200

/-- The item of a delete. -/
def deleteItem (status : ℕ) : Json :=
  .obj [("delete", .obj [("status", .int status)])]

/-- The target takes the deletes one by one. -/
def carryOut (refusal : DocKey → Option Refusal) : List Removal → Store → List Json × Store
  | [], store => ([], store)
  | removal :: rest, store =>
    match refusal removal.key with
    | some status =>
      let (items, store) := carryOut refusal rest store
      (deleteItem status.val :: items, store)
    | none =>
      let slot := store removal.key
      let (items, store) := carryOut refusal rest
        (Function.update store removal.key (writeSlot removal.version none slot))
      (deleteItem (deleteStatus removal.version slot) :: items, store)

/-! ## The loop -/

/-- What a truncate and a cascade differ in, with either sink. -/
structure PagedDelete : Type where
  /-- what the target's search finds -/
  finds : DocKey → Json → Bool
  /-- the error of a request that failed -/
  failed : String → CoreError
  /-- what the sink objects to in the answer of the search -/
  checkSearch : ℕ → Json → Except CoreError Unit
  /-- the deletes of a page -/
  removals : Json → List Removal
  /-- what the sink objects to in the answer of the deletes -/
  checkDeletes : ℕ → Except CoreError Unit

/-- An item says that it deleted something. -/
def saysDeleted (item : Json) : Bool :=
  (((item.index "delete").index "status").asU64).any fun status => decide (isSuccess status)

/-- How many items say so. -/
def deletedItems (body : Json) : ℕ :=
  (items body).countP saysDeleted

namespace PagedDelete

variable (loop : PagedDelete)

/-- The documents of a page: of those the search finds, the picked ones, a thousand at most. -/
def page (r : RoundAnswers) (store : Store) : List DocKey :=
  match r.search with
  | .page picked =>
    (picked.filter fun key => (Slot.content (store key)).any (loop.finds key)).take 1000
  | _ => []

/-- The answer of the search. -/
def search (r : RoundAnswers) (store : Store) : Except CoreError (ℕ × Json) :=
  match r.search with
  | .unreachable why => .error (loop.failed why)
  | .refused status error => .ok (status.val, errorBody status error)
  | .page _ => .ok (200, pageBody (loop.page r store))

/-- The answer of the deletes, and what they leave. -/
def send (r : RoundAnswers) (removals : List Removal) (store : Store) :
    Except CoreError (ℕ × Json) × Store :=
  match r.deletes with
  | .unreachable why => (.error (loop.failed why), store)
  | .refused status error => (.ok (status.val, errorBody status error), store)
  | .items refusal =>
    let (items, store) := carryOut refusal removals store
    (.ok (200, .obj [("items", .arr items)]), store)

/-- One round: whether it is the last one, and what it leaves. -/
def round (r : RoundAnswers) (store : Store) : Except CoreError Bool × Store :=
  let removals := do
    let (status, body) ← loop.search r store
    loop.checkSearch status body
    return loop.removals body
  match removals with
  | .error e => (.error e, store)
  | .ok [] => (.ok true, store)
  | .ok removals =>
    let (answer, store) := loop.send r removals store
    (do
      let (status, body) ← answer
      loop.checkDeletes status
      return decide (deletedItems body = 0), store)

/-- The loop, run on the answers the target will give. -/
def run : List RoundAnswers → Store → Option (Except CoreError Unit × Store) :=
  RoundLoop.run loop.round

end PagedDelete

/-! ## The sinks -/

/-- The two sinks of one wire protocol. -/
inductive Flavour : Type where
  /-- the OpenSearch client -/
  | openSearch : Flavour
  /-- plain requests to Elasticsearch -/
  | elasticsearch : Flavour
  deriving DecidableEq, Repr

/-- The error of a request that failed. -/
def Flavour.httpErr : Flavour → String → CoreError
  | .openSearch, why => .sink ("http request failed: " ++ why)
  | .elasticsearch, why => .sink ("request failed: " ++ why)

/-- The hits of a search's answer. -/
def hitsOf (body : Json) : List Json :=
  (((body.index "hits").index "hits").asArray).getD []

/-- The relation a document has in a join field. -/
def relationOf (value : Json) : Option String :=
  match value with
  | .str name => some name
  | value => (value.index "name").asStr

/-- `truncate_at_version`: `names` are the indices behind `index`. A hit without an index or an
id is skipped. -/
def truncateAtVersion (flavour : Flavour) (index : String) (names : String → Bool)
    (version : ℕ) (only : Option (String × String)) : PagedDelete where
  finds key doc := names key.index &&
    only.all fun (field, value) => decide (relationOf (doc.index field) = some value)
  failed := flavour.httpErr
  -- neither sink looks whether the search was refused
  checkSearch _ _ := .ok ()
  removals body := (hitsOf body).filterMap fun hit => do
    let foundIn ← (hit.index "_index").asStr
    let id ← (hit.index "_id").asStr
    return ⟨⟨foundIn, id, (hit.index "_routing").asStr⟩, some version⟩
  checkDeletes status :=
    match flavour with
    | .openSearch => .ok ()
    | .elasticsearch =>
      if status = 200 then .ok ()
      else .error (.sink ("truncate " ++ index ++ ": " ++ toString status))

/-- `delete_children`. -/
def deleteChildren (flavour : Flavour) (target : VersionedTarget)
    (index field parentName parentId : String) (version : Option ℕ) : PagedDelete where
  finds := target.isChild (.deleteChildren index field parentName parentId version)
  failed := flavour.httpErr
  checkSearch status body :=
    let what := "find children of " ++ index ++ "/" ++ parentId ++ ": "
    match flavour with
    | .openSearch =>
      match body.get "error" with
      | some error => .error (.sink (what ++ error.render))
      | none => .ok ()
    | .elasticsearch =>
      if status = 200 then .ok ()
      else .error (.sink (what ++ toString status ++ " " ++ body.render))
  removals body := (hitsOf body).filterMap fun hit =>
    ((hit.index "_id").asStr).map fun id => ⟨⟨index, id, some parentId⟩, version⟩
  checkDeletes status :=
    match flavour with
    | .openSearch => .ok ()
    | .elasticsearch =>
      if status = 200 then .ok ()
      else .error (.sink ("delete children of " ++ index ++ "/" ++ parentId ++ ": " ++
        toString status))

/-! ## What a page's deletes leave -/

/-- A document is stored that a delete at a version removes. -/
def Removable (v : ℕ) (slot : Slot) : Prop :=
  ∃ w doc, slot = some (w, some doc) ∧ w ≤ v

/-- A delete reports success exactly when it removed a document. -/
theorem isSuccess_deleteStatus (v : ℕ) (slot : Slot) :
    isSuccess (deleteStatus (some v) slot) ↔ Removable v slot := by
  rcases slot with - | ⟨w, - | doc⟩
  · simp [deleteStatus, Slot.content, isSuccess, Removable]
  · by_cases h : v < w <;> simp [deleteStatus, Slot.content, isSuccess, Removable, h]
  · by_cases h : v < w
    · simp [deleteStatus, isSuccess, Removable, h]
    · simp [deleteStatus, Slot.content, isSuccess, Removable, h, not_lt.mp h]

/-- A delete that removes nothing leaves every document. -/
theorem writeSlot_of_not_removable {v : ℕ} {slot : Slot} (h : ¬ Removable v slot) (w : ℕ)
    (doc : Json) :
    writeSlot (some v) none slot = some (w, some doc) ↔ slot = some (w, some doc) := by
  rcases slot with - | ⟨w', - | doc'⟩
  · simp [writeSlot, Register.writeMarked, Register.Write.of]
  · by_cases hle : w' ≤ v <;> simp [writeSlot, Register.writeMarked, Register.Write.of, hle]
  · have hnot : ¬ w' ≤ v := fun hle => h ⟨w', doc', rfl, hle⟩
    simp [writeSlot, Register.writeMarked, Register.Write.of, hnot]

variable {key : DocKey}

section CarryOut

variable {refusal : DocKey → Option Refusal} {v : ℕ}

/-- The deletes of some documents at one version. -/
def removalsOf (v : ℕ) (keys : List DocKey) : List Removal :=
  keys.map fun key => ⟨key, some v⟩

/-- A document that no delete removes is left. -/
theorem carryOut_live (keys : List DocKey) (store : Store)
    (h : ¬ (key ∈ keys ∧ refusal key = none ∧ Removable v (store key))) (w : ℕ) (doc : Json) :
    (carryOut refusal (removalsOf v keys) store).2 key = some (w, some doc) ↔
      store key = some (w, some doc) := by
  induction keys generalizing store with
  | nil => rfl
  | cons head rest ih =>
    rw [removalsOf, List.map_cons, carryOut]
    rcases hr : refusal head with - | status
    · have hhead : ∀ w doc, Function.update store head (writeSlot (some v) none (store head)) key =
          some (w, some doc) ↔ store key = some (w, some doc) := by
        intro w doc
        by_cases heq : key = head
        · subst heq
          rw [Function.update_self]
          exact writeSlot_of_not_removable
            (fun hremovable => h ⟨List.mem_cons_self, hr, hremovable⟩) w doc
        · rw [Function.update_of_ne heq]
      refine (ih _ ?_).trans (hhead w doc)
      rintro ⟨hmem, hnone, w', doc', hlive, hle⟩
      exact h ⟨List.mem_cons_of_mem _ hmem, hnone, w', doc', (hhead w' doc').mp hlive, hle⟩
    · refine ih store ?_
      rintro ⟨hmem, hrest⟩
      exact h ⟨List.mem_cons_of_mem _ hmem, hrest⟩

/-- The sink reads the status of an item. -/
theorem saysDeleted_deleteItem (status : ℕ) :
    saysDeleted (deleteItem status) = true ↔ isSuccess status := by
  have hread : saysDeleted (deleteItem status) =
      (Json.int status).asU64.any fun status => decide (isSuccess status) := rfl
  rw [hread, Json.asU64]
  by_cases h : (status : ℤ) < 2 ^ 64
  · rw [if_pos ⟨Int.natCast_nonneg status, h⟩]
    simp
  · rw [if_neg fun hboth => h hboth.2]
    have hlarge : ¬ isSuccess status := fun hsuccess => by
      have := hsuccess.2
      omega
    simp [hlarge]

/-- Some item says it deleted a document exactly when a delete is carried out on one that is
not newer. -/
theorem saysDeleted_carryOut (keys : List DocKey) (store : Store) :
    (∃ item ∈ (carryOut refusal (removalsOf v keys) store).1, saysDeleted item = true) ↔
      ∃ key ∈ keys, refusal key = none ∧ Removable v (store key) := by
  induction keys generalizing store with
  | nil => simp [removalsOf, carryOut]
  | cons head rest ih =>
    rw [removalsOf, List.map_cons, carryOut]
    rcases hr : refusal head with - | status
    · dsimp only
      rw [List.exists_mem_cons_iff, List.exists_mem_cons_iff, saysDeleted_deleteItem,
        isSuccess_deleteStatus, hr]
      simp only [true_and]
      by_cases hhead : Removable v (store head)
      · simp only [hhead, true_or]
      · -- nothing became of the first delete, and the others find what they would have found
        have hsame : ∀ key, Removable v (Function.update store head
            (writeSlot (some v) none (store head)) key) ↔ Removable v (store key) := by
          intro key
          by_cases heq : key = head
          · subst heq
            rw [Function.update_self]
            exact exists₂_congr fun w doc =>
              and_congr_left fun _ => writeSlot_of_not_removable hhead w doc
          · rw [Function.update_of_ne heq]
        simp only [hhead, false_or]
        refine (ih _).trans (exists_congr fun key => ?_)
        rw [hsame]
    · dsimp only
      rw [List.exists_mem_cons_iff, List.exists_mem_cons_iff, saysDeleted_deleteItem, hr]
      have hrefused : ¬ isSuccess status.val := status.property
      simp only [hrefused, reduceCtorEq, false_and, false_or]
      exact ih store

end CarryOut

namespace PagedDelete

/-! ## The rounds -/

section Rounds

variable (loop : PagedDelete) (v : ℕ)

/-- What a truncate and a cascade have in common: the deletes of a page are those of its
documents, each at the version, and nothing is wrong with the answers of a target that refuses
nothing. -/
structure Reads : Prop where
  /-- the deletes are those of the page -/
  removals_page : ∀ page : List DocKey, (∀ key ∈ page, ∃ doc, loop.finds key doc = true) →
    loop.removals (pageBody page) = removalsOf v page
  /-- there are no documents in a refusal -/
  removals_error : ∀ status error, loop.removals (errorBody status error) = []
  /-- a page is a page -/
  checkSearch_page : ∀ page, loop.checkSearch 200 (pageBody page) = .ok ()
  /-- the items are read -/
  checkDeletes_ok : loop.checkDeletes 200 = .ok ()

/-- A document that the search finds and the version is not older than. -/
def Preceding (key : DocKey) (store : Store) : Prop :=
  ∃ w doc, store key = some (w, some doc) ∧ loop.finds key doc = true ∧ w ≤ v

/-- No such document is left. -/
def Cleared (store : Store) : Prop :=
  ∀ key, ¬ loop.Preceding v key store

/-- The newer documents are as they were. -/
def Spared (store store' : Store) : Prop :=
  ∀ key w doc, store key = some (w, some doc) → v < w → store' key = store key

/-- The target carries out the delete of a document. -/
def Carries (r : RoundAnswers) (key : DocKey) : Prop :=
  match r.deletes with
  | .items refusal => refusal key = none
  | _ => False

/-- The page has one of the preceding documents, and its delete is carried out. -/
def Advances (r : RoundAnswers) (store : Store) : Prop :=
  ∃ key ∈ loop.page r store, loop.Preceding v key store ∧ Carries r key

/-- The search of a round is refused. -/
def SearchRefused (r : RoundAnswers) : Prop :=
  match r.search with
  | .refused _ _ => True
  | _ => False

/-- The search of a round is refused, or the delete of one of its documents. -/
def Refuses (r : RoundAnswers) (store : Store) : Prop :=
  SearchRefused r ∨ ∃ key ∈ loop.page r store, ¬ Carries r key

end Rounds

variable {loop : PagedDelete} {v : ℕ} {r : RoundAnswers} {store t : Store}

theorem mem_page (h : key ∈ loop.page r store) :
    ∃ w doc, store key = some (w, some doc) ∧ loop.finds key doc = true := by
  rw [page] at h
  cases hr : r.search with
  | page picked =>
    rw [hr] at h
    have hfound := (List.mem_filter.mp (List.mem_of_mem_take h)).2
    rcases hslot : store key with - | ⟨w, - | doc⟩
    · simp [hslot, Slot.content] at hfound
    · simp [hslot, Slot.content] at hfound
    · exact ⟨w, doc, rfl, by simpa [hslot, Slot.content] using hfound⟩
  | _ => simp [hr] at h

/-- A document of a page precedes the version when its delete would remove it. -/
theorem preceding_iff (h : key ∈ loop.page r store) :
    loop.Preceding v key store ↔ Removable v (store key) := by
  obtain ⟨w, doc, hslot, hfinds⟩ := mem_page h
  constructor
  · rintro ⟨w', doc', hslot', -, hle⟩
    exact ⟨w', doc', hslot', hle⟩
  · rintro ⟨w', doc', hslot', hle⟩
    have heq : some (w, some doc) = some (w', some doc') := hslot.symm.trans hslot'
    cases heq
    exact ⟨w, doc, hslot, hfinds, hle⟩

/-- The items say how many documents were deleted: none exactly when the round did not
advance. -/
theorem deletedItems_eq_zero {refusal : DocKey → Option Refusal} (hr : r.deletes = .items refusal) :
    deletedItems (.obj [("items", .arr (carryOut refusal
      (removalsOf v (loop.page r store)) store).1)]) = 0 ↔ ¬ loop.Advances v r store := by
  have hcarries : ∀ key, Carries r key ↔ refusal key = none := fun key => by rw [Carries, hr]
  have hitems : items (.obj [("items", .arr (carryOut refusal
      (removalsOf v (loop.page r store)) store).1)]) =
      (carryOut refusal (removalsOf v (loop.page r store)) store).1 := rfl
  rw [deletedItems, hitems, List.countP_eq_zero, ← not_iff_not, not_not]
  push Not
  rw [saysDeleted_carryOut]
  refine exists_congr fun key => and_congr_right fun hkey => ?_
  rw [preceding_iff hkey, hcarries, and_comm]

/-- What a round can come to: it fails, it ends without a delete that was carried out, or the
target took the deletes. -/
theorem round_cases (h : loop.Reads v) (r : RoundAnswers) (store : Store) :
    (∃ e, loop.round r store = (.error e, store)) ∨
      (loop.round r store = (.ok true, store) ∧ ∀ key ∈ loop.page r store, ¬ Carries r key) ∨
      ∃ refusal last, r.deletes = .items refusal ∧ ¬ SearchRefused r ∧
        (last = true ↔ ¬ loop.Advances v r store) ∧
        loop.round r store = (.ok last,
          (carryOut refusal (removalsOf v (loop.page r store)) store).2) := by
  cases hsearch : r.search with
  | unreachable why =>
    left
    exact ⟨loop.failed why, by rw [round, search, hsearch]; rfl⟩
  | refused status error =>
    have hempty : loop.page r store = [] := by rw [page, hsearch]
    rcases hcheck : loop.checkSearch status.val (errorBody status error) with e | ⟨⟩
    · left
      refine ⟨e, ?_⟩
      simp only [round, search, hsearch, hcheck, Bind.bind, Except.bind]
    · right
      left
      refine ⟨?_, by simp [hempty]⟩
      simp only [round, search, hsearch, hcheck, Bind.bind, Except.bind, Pure.pure, Except.pure,
        h.removals_error]
  | page picked =>
    have hshown : ¬ SearchRefused r := by rw [SearchRefused, hsearch]; exact id
    have hfinds : ∀ key ∈ loop.page r store, ∃ doc, loop.finds key doc = true := by
      intro key hkey
      obtain ⟨-, doc, -, hfound⟩ := mem_page hkey
      exact ⟨doc, hfound⟩
    rw [round, search, hsearch]
    simp only [Bind.bind, Except.bind, h.checkSearch_page, Pure.pure, Except.pure,
      h.removals_page _ hfinds]
    rcases hpage : loop.page r store with - | ⟨key, keys⟩
    · right
      left
      simp [removalsOf]
    · rw [removalsOf, List.map_cons]
      dsimp only
      rw [send]
      cases hdeletes : r.deletes with
      | unreachable why =>
        left
        exact ⟨_, rfl⟩
      | refused status error =>
        rcases hcheck : loop.checkDeletes status.val with e | ⟨⟩
        · left
          exact ⟨e, by simp only [hcheck]⟩
        · right
          left
          refine ⟨?_, fun key _ => by simp [Carries, hdeletes]⟩
          simp only [hcheck]
          rfl
      | items refusal =>
        right
        right
        refine ⟨refusal, decide (deletedItems (.obj [("items", .arr (carryOut refusal
          (removalsOf v (loop.page r store)) store).1)]) = 0), rfl, hshown, ?_, ?_⟩
        · rw [decide_eq_true_iff, deletedItems_eq_zero hdeletes]
        · simp only [h.checkDeletes_ok, hpage, removalsOf, List.map_cons]

/-- A round that goes on has deleted a document. -/
theorem round_again (h : loop.Reads v) (hround : loop.round r store = (.ok false, t)) :
    loop.Advances v r store ∧ ¬ SearchRefused r := by
  rcases loop.round_cases h r store with ⟨e, he⟩ | ⟨he, -⟩ | ⟨refusal, last, -, hshown, hlast, he⟩
  · rw [he] at hround
    cases hround
  · rw [he] at hround
    cases hround
  · rw [he] at hround
    cases hround
    exact ⟨not_not.mp fun hnot => Bool.noConfusion (hlast.mpr hnot), hshown⟩

/-- The last round has deleted nothing, and nothing has become of any document. -/
theorem round_done (h : loop.Reads v) (hround : loop.round r store = (.ok true, t)) :
    ¬ loop.Advances v r store ∧
      ∀ key w doc, t key = some (w, some doc) ↔ store key = some (w, some doc) := by
  rcases loop.round_cases h r store with
    ⟨e, he⟩ | ⟨he, hnone⟩ | ⟨refusal, last, hr, -, hlast, he⟩
  · rw [he] at hround
    cases hround
  · rw [he] at hround
    cases hround
    refine ⟨?_, fun key w doc => Iff.rfl⟩
    rintro ⟨key, hkey, -, hcarries⟩
    exact hnone key hkey hcarries
  · rw [he] at hround
    cases hround
    have hnot := hlast.mp rfl
    refine ⟨hnot, fun key w doc => carryOut_live _ _ ?_ w doc⟩
    rintro ⟨hkey, hcarries, hremovable⟩
    refine hnot ⟨key, hkey, (preceding_iff hkey).mpr hremovable, ?_⟩
    rw [Carries, hr]
    exact hcarries

/-- No round touches a newer document. -/
theorem round_spared (h : loop.Reads v) (r : RoundAnswers) (store : Store) :
    Spared v store (loop.round r store).2 := by
  intro key w doc hslot hlt
  rcases loop.round_cases h r store with ⟨e, he⟩ | ⟨he, -⟩ | ⟨refusal, last, -, -, -, he⟩
  · rw [he]
  · rw [he]
  · rw [he, hslot]
    refine (carryOut_live _ _ ?_ w doc).mpr hslot
    rintro ⟨-, -, w', doc', hslot', hle⟩
    have heq : some (w, some doc) = some (w', some doc') := hslot.symm.trans hslot'
    cases heq
    omega

theorem Spared.trans {a b c : Store} (hab : Spared v a b) (hbc : Spared v b c) : Spared v a c := by
  intro key w doc hslot hlt
  have hkept := hab key w doc hslot hlt
  exact (hbc key w doc (hkept.trans hslot) hlt).trans hkept

/-! ## The loop, run to its end -/

variable {rounds : List RoundAnswers} {store' : Store}

/-- The loop touches no newer document. -/
theorem run_spared (h : loop.Reads v) {result : Except CoreError Unit}
    (hrun : loop.run rounds store = some (result, store')) : Spared v store store' :=
  RoundLoop.run_keeps (fun hab hbc => hab.trans hbc) (loop.round_spared h) hrun

/-- What precedes the version is gone after the last round exactly when it was gone before. -/
theorem cleared_iff_of_done (h : loop.Reads v) (hround : loop.round r store = (.ok true, t)) :
    loop.Cleared v t ↔ loop.Cleared v store := by
  have hlive := (round_done h hround).2
  refine forall_congr' fun key => not_congr ?_
  exact exists₂_congr fun w doc => and_congr_left fun _ => hlive key w doc

/-- The loop ends with nothing preceding left exactly when each of its rounds, if there was
something, deleted something. -/
theorem run_cleared_iff (h : loop.Reads v)
    (hrun : loop.run rounds store = some (.ok (), store')) :
    loop.Cleared v store' ↔
      RoundLoop.Always loop.round (fun r s => loop.Cleared v s ∨ loop.Advances v r s) rounds
        store := by
  refine Iff.trans ?_ (RoundLoop.run_ok_iff (Q := fun _ _ t => loop.Cleared v t)
    (fun hround => Or.inr (round_again h hround).1) (fun hround => ?_) hrun)
  · exact (RoundLoop.atEnd_map (fun _ => loop.Cleared v store') (C := fun _ _ => True) hrun).symm
  · have hnot := (round_done h hround).1
    rw [cleared_iff_of_done h hround]
    exact ⟨Or.inl, fun hor => hor.resolve_right hnot⟩

/-- It ends so, and not because the target refused something, exactly when no search was
refused and each round, if there was something or a delete was refused, deleted something. -/
theorem run_cleared_unrefused_iff (h : loop.Reads v)
    (hrun : loop.run rounds store = some (.ok (), store')) :
    loop.Cleared v store' ∧ ¬ RoundLoop.AtEnd loop.round loop.Refuses rounds store ↔
      RoundLoop.Always loop.round (fun r s => ¬ SearchRefused r ∧
        (loop.Cleared v s ∧ (∀ key ∈ loop.page r s, Carries r key) ∨ loop.Advances v r s))
        rounds store := by
  refine Iff.trans ?_ (RoundLoop.run_ok_iff
    (Q := fun r s t => loop.Cleared v t ∧ ¬ loop.Refuses r s) (fun hround => ?_)
    (fun hround => ?_) hrun)
  · exact (RoundLoop.atEnd_map (fun refused => loop.Cleared v store' ∧ ¬ refused) hrun).symm
  · have hboth := round_again h hround
    exact ⟨hboth.2, Or.inr hboth.1⟩
  · have hnot := (round_done h hround).1
    rw [cleared_iff_of_done h hround, Refuses, not_or, and_left_comm]
    push Not
    exact and_congr_right fun _ => ⟨Or.inl, fun hor => hor.resolve_right hnot⟩

end PagedDelete

/-! ## Truncate -/

section Truncate

variable (flavour : Flavour) (index : String) (names : String → Bool) (v : ℕ)
  (only : Option (String × String))

/-- A truncate deletes the documents of its page, each where it was found. -/
theorem reads_truncateAtVersion : (truncateAtVersion flavour index names v only).Reads v where
  removals_page page _ := by
    have hhits : hitsOf (pageBody page) = page.map hit := rfl
    have hone : ∀ key : DocKey, ((do
        let foundIn ← ((hit key).index "_index").asStr
        let id ← ((hit key).index "_id").asStr
        return ⟨⟨foundIn, id, ((hit key).index "_routing").asStr⟩, some v⟩) : Option Removal) =
        some ⟨key, some v⟩ := by
      rintro ⟨index, id, - | routing⟩ <;> rfl
    simp only [truncateAtVersion, hhits, List.filterMap_map, removalsOf]
    rw [← List.filterMap_eq_map]
    exact List.filterMap_congr fun key _ => hone key
  removals_error _ _ := rfl
  checkSearch_page _ := rfl
  checkDeletes_ok := by cases flavour <;> rfl

/-- A truncate that ends well has left nothing that precedes it, touched nothing newer and not
ended on a refusal exactly when no search was refused and every round deleted something, unless
nothing was left to delete and no delete was refused. -/
theorem truncateAtVersion_clears_iff (rounds : List RoundAnswers) (store store' : Store)
    (h : (truncateAtVersion flavour index names v only).run rounds store =
      some (.ok (), store')) :
    ((truncateAtVersion flavour index names v only).Cleared v store' ∧
        PagedDelete.Spared v store store' ∧
        ¬ RoundLoop.AtEnd (truncateAtVersion flavour index names v only).round
          (truncateAtVersion flavour index names v only).Refuses rounds store) ↔
      RoundLoop.Always (truncateAtVersion flavour index names v only).round
        (fun r s => ¬ PagedDelete.SearchRefused r ∧
          ((truncateAtVersion flavour index names v only).Cleared v s ∧
              (∀ key ∈ (truncateAtVersion flavour index names v only).page r s,
                PagedDelete.Carries r key) ∨
            (truncateAtVersion flavour index names v only).Advances v r s))
        rounds store := by
  have hreads := reads_truncateAtVersion flavour index names v only
  have hspared := PagedDelete.run_spared hreads h
  rw [← PagedDelete.run_cleared_unrefused_iff hreads h]
  exact ⟨fun hall => ⟨hall.1, hall.2.2⟩, fun hboth => ⟨hboth.1, hspared, hboth.2⟩⟩

end Truncate

/-- One document of an index, written at version 1. -/
def loneOrder : Store :=
  Function.update (fun _ => none) ⟨"orders", "7", none⟩ (some (1, some (.obj [("id", .int 7)])))

/-- A target that shows the document and deletes it, and then has none to show. -/
def deletesOrder : List RoundAnswers :=
  [⟨.page [⟨"orders", "7", none⟩], .items fun _ => none⟩, ⟨.page [], .items fun _ => none⟩]

/-- The truncate of an index with one older document takes two rounds. -/
theorem truncateAtVersion_clears_loneOrder :
    let truncate := truncateAtVersion .openSearch "orders" (· = "orders") 5 none
    let store' := Function.update loneOrder ⟨"orders", "7", none⟩ (some (5, none))
    (truncate.Cleared 5 store' ∧ PagedDelete.Spared 5 loneOrder store' ∧
        ¬ RoundLoop.AtEnd truncate.round truncate.Refuses deletesOrder loneOrder) ↔
      RoundLoop.Always truncate.round
        (fun r s => ¬ PagedDelete.SearchRefused r ∧
          (truncate.Cleared 5 s ∧ (∀ key ∈ truncate.page r s, PagedDelete.Carries r key) ∨
            truncate.Advances 5 r s))
        deletesOrder loneOrder :=
  truncateAtVersion_clears_iff .openSearch "orders" (· = "orders") 5 none deletesOrder loneOrder _
    (by rfl)

/-- A search that is refused reads as one that found nothing: the truncate ends well, and the
older document is still there. -/
theorem refusedSearch_not_clears :
    ¬ ∀ (flavour : Flavour) (index : String) (names : String → Bool) (v : ℕ)
        (only : Option (String × String)) (rounds : List RoundAnswers) (store store' : Store),
      (truncateAtVersion flavour index names v only).run rounds store = some (.ok (), store') →
      (truncateAtVersion flavour index names v only).Cleared v store' := by
  intro h
  have hleft := h .openSearch "orders" (· = "orders") 5 none
    [⟨.refused ⟨503, by decide⟩ (.str "all shards failed"), .items fun _ => none⟩]
    loneOrder loneOrder rfl
  exact hleft ⟨"orders", "7", none⟩ ⟨1, .obj [("id", .int 7)], rfl, rfl, by decide⟩

/-! ## Cascade -/

section Cascade

variable (flavour : Flavour) (target : VersionedTarget)
  (index field parentName parentId : String) (v : ℕ)

/-- A cascade deletes the children of its page, on the shard of their parent. -/
theorem reads_deleteChildren :
    (deleteChildren flavour target index field parentName parentId (some v)).Reads v where
  removals_page page hfinds := by
    have hhits : hitsOf (pageBody page) = page.map hit := rfl
    simp only [deleteChildren, hhits, List.filterMap_map, removalsOf]
    rw [← List.filterMap_eq_map]
    refine List.filterMap_congr fun key hkey => ?_
    obtain ⟨doc, hdoc⟩ := hfinds key hkey
    obtain ⟨hindex, hrouting⟩ : key.index = index ∧ key.routing = some parentId := by
      simp only [deleteChildren, VersionedTarget.isChild] at hdoc
      split at hdoc
      · simp only [Bool.and_eq_true, decide_eq_true_eq] at hdoc
        exact ⟨hdoc.1.1.1.1, hdoc.1.1.1.2⟩
      · cases hdoc
    obtain ⟨_, id, _⟩ := key
    subst hindex hrouting
    rfl
  removals_error _ _ := rfl
  checkSearch_page _ := by cases flavour <;> rfl
  checkDeletes_ok := by cases flavour <;> rfl

/-- A cascade that ends well has left no older child and touched no newer one exactly when each
of its rounds, if there was an older child, deleted one. -/
theorem deleteChildren_clears_iff (rounds : List RoundAnswers) (store store' : Store)
    (h : (deleteChildren flavour target index field parentName parentId (some v)).run rounds
      store = some (.ok (), store')) :
    ((deleteChildren flavour target index field parentName parentId (some v)).Cleared v store' ∧
        PagedDelete.Spared v store store') ↔
      RoundLoop.Always
        (deleteChildren flavour target index field parentName parentId (some v)).round
        (fun r s =>
          (deleteChildren flavour target index field parentName parentId (some v)).Cleared v s ∨
          (deleteChildren flavour target index field parentName parentId (some v)).Advances v r s)
        rounds store := by
  have hreads := reads_deleteChildren flavour target index field parentName parentId v
  rw [← PagedDelete.run_cleared_iff hreads h]
  exact and_iff_left (PagedDelete.run_spared hreads h)

end Cascade

/-- A target whose orders are children of its customers. -/
def ordersTarget : VersionedTarget where
  ingest _ doc := doc
  parentOf _ _ relation := if relation = "order" then some "customer" else none
  stored := []

/-- An order of a customer, written at version 1. -/
def childOrder : Json :=
  .obj [("relation", .obj [("name", .str "order"), ("parent", .str "7")])]

/-- The order, where its customer is. -/
def loneChild : Store :=
  Function.update (fun _ => none) ⟨"shop", "1", some "7"⟩ (some (1, some childOrder))

/-- The cascade over a customer with one older order takes two rounds. -/
theorem deleteChildren_clears_loneChild :
    let cascade := deleteChildren .elasticsearch ordersTarget "shop" "relation" "customer" "7"
      (some 5)
    let rounds : List RoundAnswers := [⟨.page [⟨"shop", "1", some "7"⟩], .items fun _ => none⟩,
      ⟨.page [], .items fun _ => none⟩]
    let store' := Function.update loneChild ⟨"shop", "1", some "7"⟩ (some (5, none))
    (cascade.Cleared 5 store' ∧ PagedDelete.Spared 5 loneChild store') ↔
      RoundLoop.Always cascade.round (fun r s => cascade.Cleared 5 s ∨ cascade.Advances 5 r s)
        rounds loneChild :=
  deleteChildren_clears_iff .elasticsearch ordersTarget "shop" "relation" "customer" "7" 5 _ _ _
    (by rfl)

/-- A delete that the target is too busy for ends the cascade like the delete of a newer
child: the older child outlives its parent. -/
theorem refusedDelete_not_clears :
    ¬ ∀ (flavour : Flavour) (target : VersionedTarget)
        (index field parentName parentId : String) (v : ℕ) (rounds : List RoundAnswers)
        (store store' : Store),
      (deleteChildren flavour target index field parentName parentId (some v)).run rounds store =
        some (.ok (), store') →
      (deleteChildren flavour target index field parentName parentId (some v)).Cleared v
        store' := by
  intro h
  have hleft := h .elasticsearch ordersTarget "shop" "relation" "customer" "7" 5
    [⟨.page [⟨"shop", "1", some "7"⟩], .items fun _ => some ⟨429, by decide⟩⟩]
    loneChild loneChild (by rfl)
  exact hleft ⟨"shop", "1", some "7"⟩ ⟨1, childOrder, by rfl, by decide, by decide⟩

end Pg2osync
