import Pg2osync.Held

/-!
# A transaction in pieces

What is held of a transaction is flushed when it ends, and before when it grows too large. Beside
the rows and keys that are held there are two sets, by which a key is held once; a flush empties
them with everything else. So each piece is on its own: it sends the rows that were held since
the last one and reads each parent that was named since then once, unless a row covers it.
-/

namespace Pg2osync.Children

open ChildrenPending

open ParentKeys (keyLookup)

/-- `Pending`: what is held, and the keys that are. -/
structure Pending : Type where
  /-- the rows and keys -/
  held : ChildrenPending
  /-- the parents that were named -/
  seen : List (TableName × String)
  /-- the children that were named, by the collection they are of -/
  seenThrough : List ((TableName × String) × String)

namespace Pending

/-- `default`. -/
def start : Pending := ⟨.empty, [], []⟩

/-- `hold_parent`. -/
def holdParent (p : Pending) (table : TableName) (change : RowChange) : Pending :=
  { p with held := p.held.holdParent table change }

/-- `name_parent`. -/
def nameParent (p : Pending) (table : TableName) (key : Json) : Pending :=
  if (table, keyLookup key) ∈ p.seen then p
  else { p with
    held := { p.held with named := p.held.named ++ [(table, key)] }
    seen := (table, keyLookup key) :: p.seen }

/-- `name_through`. -/
def nameThrough (p : Pending) (table : TableName) (field : String) (childKey : Json) : Pending :=
  if ((table, field), keyLookup childKey) ∈ p.seenThrough then p
  else { p with
    held := { p.held with through := p.held.through ++ [((table, field), childKey)] }
    seenThrough := ((table, field), keyLookup childKey) :: p.seenThrough }

/-- The keys of one collection. -/
def throughOf (p : Pending) (collection : TableName × String) : List Json :=
  p.held.through.filterMap fun child => if child.1 = collection then some child.2 else none

/-- `take_through`. -/
def takeThrough (p : Pending) : List ((TableName × String) × List Json) × Pending :=
  ((p.held.through.map Prod.fst).dedup.map fun collection => (collection, p.throughOf collection),
    { p with held := { p.held with through := [] } })

/-- `take`. -/
def take (p : Pending) (table : TableName) : (List RowChange × List Json) × Pending :=
  ((p.held.rowsOf table, p.held.namedOf table),
    { p with held := { p.held with
        parents := p.held.parents.filter fun held => held.1 ≠ table
        named := p.held.named.filter fun named => named.1 ≠ table } })

/-- `clear_seen`. -/
def clearSeen (p : Pending) : Pending :=
  { p with seen := [], seenThrough := [] }

end Pending

/-- What a flush finds in the database, and the order its maps have. -/
structure PieceReads : Type where
  /-- the order in which a map gives its tables -/
  order : List TableName → List TableName
  /-- it gives each -/
  perm : ∀ tables, (order tables).Perm tables
  /-- the order in which a map gives its collections -/
  drained : List ((TableName × String) × List Json) → List ((TableName × String) × List Json)
  /-- it gives each -/
  drainedPerm : ∀ groups, (drained groups).Perm groups
  /-- `parents_through`, for a collection that is configured -/
  parentsThrough : TableName → String → Option (List Json → Except CoreError (List Json))
  /-- `refetch_parents`: the documents, by the text of their key -/
  refetch : TableName → List Json → Except CoreError (String → Option Json)
  /-- what is attached to a key's document, among the documents of some keys -/
  attach : TableName → List Json → Except CoreError (Json → Json → Json)

/-- What a flush did for one parent table. -/
structure TableFlush : Type where
  /-- the table -/
  table : TableName
  /-- the keys it asked for -/
  reread : List Json
  /-- the rows it sent -/
  sent : List RowChange

/-- One collection's children become the parents they belong to. -/
def resolveGroup (reads : PieceReads) (p : Pending) (group : (TableName × String) × List Json) :
    Except CoreError Pending :=
  match reads.parentsThrough group.1.1 group.1.2 with
  | none => .ok p
  | some query => do
    let parents ← query group.2
    return parents.foldl (fun p key => p.nameParent group.1.1 key) p

/-- `resolve_through`. -/
def resolveThrough (reads : PieceReads) (p : Pending) : Except CoreError Pending :=
  let (groups, p) := p.takeThrough
  (reads.drained groups).foldlM (resolveGroup reads) p

/-- The documents of the keys that are read again. -/
def refetchMissing (reads : PieceReads) (table : TableName) (missing : List Json) :
    Except CoreError (String → Option Json) :=
  if missing.isEmpty then .ok fun _ => none else reads.refetch table missing

/-- What is sent of a table: the rows that were held, then what was read again. -/
def emittedRows (table : TableName) (rows : List RowChange) (missing : List Json)
    (found : String → Option Json) : List RowChange :=
  rows ++ missing.filterMap fun key =>
    (found (keyLookup key)).map fun doc => ⟨table, .insert key doc, none⟩

/-- The keys of the changes that have a document. -/
def documentKeys (rows : List RowChange) : List Json :=
  rows.filterMap fun row => match row.kind with
    | .insert pk _ => some pk
    | .update pk _ _ _ _ => some pk
    | .delete _ _ => none

/-- The loop of `flush_pending`. -/
def flushTables (reads : PieceReads) (version : Option ℕ) :
    List TableName → Pending → Except CoreError (List TableFlush × Pending)
  | [], p => .ok ([], p)
  | table :: rest, p => do
    let ((rows, named), p) := p.take table
    let missing := keysNeedingRefetch rows named
    let found ← refetchMissing reads table missing
    let emitted := emittedRows table rows missing found
    let attach ← reads.attach table (documentKeys emitted)
    let (more, p) ← flushTables reads version rest p
    return (⟨table, missing, emitted.map fun row =>
      { row with kind := row.kind.mapDoc (attach row.kind.pk), version := version }⟩ :: more, p)

/-- `flush_pending`, with what it leaves. -/
def flushPiece (reads : PieceReads) (version : Option ℕ) (p : Pending) :
    Except CoreError (List TableFlush × Pending) :=
  if p.held.isEmpty then .ok ([], p)
  else do
    let p ← resolveThrough reads p
    let (flushes, p) ← flushTables reads version (reads.order p.held.tables) p
    return (flushes, p.clearSeen)

/-- What a stream does with what it holds. -/
inductive HeldCall : Type where
  /-- `hold_parent` -/
  | hold (table : TableName) (change : RowChange) : HeldCall
  /-- `name_parent` -/
  | name (table : TableName) (key : Json) : HeldCall
  /-- `name_through` -/
  | through (table : TableName) (field : String) (childKey : Json) : HeldCall

/-- One call. -/
def Pending.apply (p : Pending) : HeldCall → Pending
  | .hold table change => p.holdParent table change
  | .name table key => p.nameParent table key
  | .through table field childKey => p.nameThrough table field childKey

/-- What is held before a flush, and what the flush finds. -/
structure Piece : Type where
  /-- what is held -/
  calls : List HeldCall
  /-- what it finds -/
  reads : PieceReads
  /-- the position of the transaction -/
  version : Option ℕ

/-- A transaction: each piece is held and flushed. -/
def runPieces : List Piece → Pending → Except CoreError (List (List TableFlush) × Pending)
  | [], p => .ok ([], p)
  | piece :: rest, p => do
    let (flushes, p) ← flushPiece piece.reads piece.version (piece.calls.foldl Pending.apply p)
    let (more, p) ← runPieces rest p
    return (flushes :: more, p)

/-! ## What a piece is about -/

/-- The keys of a list, each once: the first of those with one text. -/
def distinctKeys (keys : List Json) : List Json :=
  keys.foldl (fun known key =>
    if keyLookup key ∈ known.map keyLookup then known else known ++ [key]) []

/-- The rows of a table that are held. -/
def heldOf (calls : List HeldCall) (t : TableName) : List RowChange :=
  calls.filterMap fun call => match call with
    | .hold table change => if table = t then some change else none
    | .name _ _ | .through _ _ _ => none

/-- The parents of a table that are named. -/
def namedIn (calls : List HeldCall) (t : TableName) : List Json :=
  calls.filterMap fun call => match call with
    | .name table key => if table = t then some key else none
    | .hold _ _ | .through _ _ _ => none

/-- The children of a collection that are named. -/
def throughIn (calls : List HeldCall) (collection : TableName × String) : List Json :=
  calls.filterMap fun call => match call with
    | .through table field key => if (table, field) = collection then some key else none
    | .hold _ _ | .name _ _ => none

/-- A parent is named in a piece: by itself, or by a child that is paired with it. -/
def NamedIn (piece : Piece) (t : TableName) (text : String) : Prop :=
  text ∈ (namedIn piece.calls t).map keyLookup ∨
    ∃ field query parents, throughIn piece.calls (t, field) ≠ [] ∧
      piece.reads.parentsThrough t field = some query ∧
      query (distinctKeys (throughIn piece.calls (t, field))) = .ok parents ∧
      text ∈ parents.map keyLookup

/-- What a flush does with a piece. -/
structure PieceFlushed (piece : Piece) (flushes : List TableFlush) : Prop where
  /-- no table is flushed twice -/
  once : (flushes.map TableFlush.table).Nodup
  /-- and none is left out -/
  every : ∀ t, heldOf piece.calls t ≠ [] ∨ (∃ text, NamedIn piece t text) →
    t ∈ flushes.map TableFlush.table
  /-- no parent is read twice -/
  distinct : ∀ f ∈ flushes, (f.reread.map keyLookup).Nodup
  /-- those are read that were named and that no row covers -/
  reread : ∀ f ∈ flushes, ∀ text, text ∈ f.reread.map keyLookup ↔
    NamedIn piece f.table text ∧
      text ∉ (heldOf piece.calls f.table).map fun row => keyLookup row.kind.pk
  /-- the rows that were held are sent in the order they came in, and behind them what was read;
  each with what belongs to it attached -/
  sent : ∀ f ∈ flushes, ∃ found attach,
    refetchMissing piece.reads f.table f.reread = .ok found ∧
      piece.reads.attach f.table (documentKeys (emittedRows f.table
        (heldOf piece.calls f.table) f.reread found)) = .ok attach ∧
      f.sent = (emittedRows f.table (heldOf piece.calls f.table) f.reread found).map fun row =>
        { row with kind := row.kind.mapDoc (attach row.kind.pk), version := piece.version }

/-! ## Keys, each once -/

theorem distinctKeys_concat (keys : List Json) (key : Json) :
    distinctKeys (keys ++ [key]) =
      if keyLookup key ∈ (distinctKeys keys).map keyLookup then distinctKeys keys
      else distinctKeys keys ++ [key] := by
  rw [distinctKeys, List.foldl_append]
  rfl

theorem mem_distinctKeys (text : String) (keys : List Json) :
    text ∈ (distinctKeys keys).map keyLookup ↔ text ∈ keys.map keyLookup := by
  induction keys using List.reverseRecOn with
  | nil => rfl
  | append_singleton keys key ih =>
    rw [distinctKeys_concat, List.map_append, List.mem_append, ← ih]
    split
    · next hknown =>
      constructor
      · exact Or.inl
      · rintro (h | h)
        · exact h
        · rw [List.mem_singleton.mp h]
          exact hknown
    · rw [List.map_append, List.mem_append]

theorem nodup_distinctKeys (keys : List Json) : ((distinctKeys keys).map keyLookup).Nodup := by
  induction keys using List.reverseRecOn with
  | nil => exact List.nodup_nil
  | append_singleton keys key ih =>
    rw [distinctKeys_concat]
    split
    · exact ih
    · next hnew =>
      rw [List.map_append]
      refine ih.append (List.nodup_singleton _) ?_
      intro text htext hkey
      rw [List.mem_singleton.mp hkey] at htext
      exact hnew htext

theorem distinctKeys_eq_nil {keys : List Json} : distinctKeys keys = [] ↔ keys = [] := by
  constructor
  · intro h
    have hnone : keys.map keyLookup = [] := by
      refine List.eq_nil_iff_forall_not_mem.mpr fun text htext => ?_
      rw [← mem_distinctKeys, h] at htext
      cases htext
    exact List.map_eq_nil_iff.mp hnone
  · rintro rfl
    rfl

/-! ## What the queues and the sets hold -/

/-- What a queue has of one group. -/
def ofGroup {κ β : Type} [DecidableEq κ] (queue : List (κ × β)) (group : κ) : List β :=
  queue.filterMap fun entry => if entry.1 = group then some entry.2 else none

theorem mem_groups {κ β : Type} [DecidableEq κ] {queue : List (κ × β)} {group : κ} :
    group ∈ queue.map Prod.fst ↔ ofGroup queue group ≠ [] := by
  rw [ofGroup, ne_eq, List.filterMap_eq_nil_iff, not_forall]
  constructor
  · intro h
    obtain ⟨entry, hentry, rfl⟩ := List.mem_map.mp h
    exact ⟨entry, fun hnone => by simp [hentry] at hnone⟩
  · rintro ⟨entry, hentry⟩
    rw [Classical.not_imp] at hentry
    obtain ⟨hmem, hsome⟩ := hentry
    refine List.mem_map.mpr ⟨entry, hmem, ?_⟩
    by_contra hother
    exact hsome (if_neg hother)

/-- Keys that came in are in a queue, each once, and their texts in a set. -/
structure Queued {κ : Type} [DecidableEq κ] (queue : List (κ × Json)) (seen : List (κ × String))
    (keys : κ → List Json) : Prop where
  /-- the queue -/
  queue : ∀ group, ofGroup queue group = distinctKeys (keys group)
  /-- the set -/
  seen : ∀ group text, (group, text) ∈ seen ↔ text ∈ (keys group).map keyLookup

variable {key : Json}

section

variable {κ : Type} [DecidableEq κ] {queue : List (κ × Json)} {seen : List (κ × String)}
  {keys : κ → List Json}

theorem queued_nil : Queued ([] : List (κ × Json)) [] fun _ => [] :=
  ⟨fun _ => rfl, fun _ _ => by simp⟩

/-- A key that is in the set is in the queue. -/
theorem Queued.known (h : Queued queue seen keys) {group : κ}
    (hseen : (group, keyLookup key) ∈ seen) :
    Queued queue seen fun g => keys g ++ if group = g then [key] else [] := by
  have hknown : keyLookup key ∈ (keys group).map keyLookup := (h.seen group _).mp hseen
  refine ⟨fun g => ?_, fun g text => ?_⟩
  · by_cases hg : group = g
    · subst hg
      rw [if_pos rfl, distinctKeys_concat, if_pos ((mem_distinctKeys _ _).mpr hknown)]
      exact h.queue group
    · rw [if_neg hg, List.append_nil]
      exact h.queue g
  · rw [h.seen, List.map_append, List.mem_append]
    refine ⟨Or.inl, ?_⟩
    rintro (htext | htext)
    · exact htext
    · split at htext
      · next hg =>
        subst hg
        rw [List.mem_singleton.mp htext]
        exact hknown
      · cases htext

/-- Any other is added to both. -/
theorem Queued.new (h : Queued queue seen keys) {group : κ} (hnew : (group, keyLookup key) ∉ seen) :
    Queued (queue ++ [(group, key)]) ((group, keyLookup key) :: seen) fun g =>
      keys g ++ if group = g then [key] else [] := by
  refine ⟨fun g => ?_, fun g text => ?_⟩
  · have hsplit : ofGroup (queue ++ [(group, key)]) g =
        ofGroup queue g ++ ofGroup [(group, key)] g := List.filterMap_append
    rw [hsplit, h.queue g]
    by_cases hg : group = g
    · subst hg
      have hother : keyLookup key ∉ (distinctKeys (keys group)).map keyLookup := fun hin =>
        hnew ((h.seen group _).mpr ((mem_distinctKeys _ _).mp hin))
      rw [if_pos rfl, distinctKeys_concat, if_neg hother]
      simp [ofGroup]
    · simp [ofGroup, hg]
  · rw [List.mem_cons, h.seen, List.map_append, List.mem_append]
    by_cases hg : group = g
    · subst hg
      simp [or_comm]
    · simp [hg, Ne.symm hg]

/-- The set answers for the queue. -/
theorem Queued.seen_iff (h : Queued queue seen keys) {group : κ} :
    (group, keyLookup key) ∈ seen ↔
      (queue.any fun n => n.1 = group && keyLookup n.2 = keyLookup key) = true := by
  rw [h.seen, ← mem_distinctKeys, ← h.queue, List.mem_map, List.any_eq_true]
  constructor
  · rintro ⟨other, hother, htext⟩
    obtain ⟨entry, hentry, heq⟩ := List.mem_filterMap.mp hother
    split at heq
    · next hgroup =>
      obtain rfl := Option.some.inj heq
      refine ⟨entry, hentry, ?_⟩
      simp [hgroup, htext]
    · cases heq
  · rintro ⟨entry, hentry, heq⟩
    rw [Bool.and_eq_true, decide_eq_true_iff, decide_eq_true_iff] at heq
    refine ⟨entry.2, List.mem_filterMap.mpr ⟨entry, hentry, ?_⟩, heq.2⟩
    rw [if_pos heq.1]

theorem Queued.of_nil (h : Queued queue seen keys) (hqueue : queue = []) :
    seen = [] ∧ ∀ group, keys group = [] := by
  subst hqueue
  have hkeys : ∀ group, keys group = [] := fun group =>
    distinctKeys_eq_nil.mp (h.queue group).symm
  refine ⟨List.eq_nil_iff_forall_not_mem.mpr fun entry hentry => ?_, hkeys⟩
  have htext := (h.seen entry.1 entry.2).mp hentry
  rw [hkeys] at htext
  cases htext

end

namespace Pending

/-- What came in since the last flush is held. -/
structure Holds (p : Pending) (calls : List HeldCall) : Prop where
  /-- the rows -/
  rows : ∀ t, p.held.rowsOf t = heldOf calls t
  /-- the parents -/
  named : Queued p.held.named p.seen (namedIn calls)
  /-- the children -/
  through : Queued p.held.through p.seenThrough (throughIn calls)

theorem start_holds : start.Holds [] :=
  ⟨fun _ => rfl, queued_nil, queued_nil⟩

variable {p : Pending} {names : TableName → List Json} {calls : List HeldCall}

@[simp] theorem parents_nameParent (p : Pending) (table : TableName) (key : Json) :
    (p.nameParent table key).held.parents = p.held.parents := by
  rw [nameParent]
  split <;> rfl

@[simp] theorem through_nameParent (p : Pending) (table : TableName) (key : Json) :
    (p.nameParent table key).held.through = p.held.through := by
  rw [nameParent]
  split <;> rfl

@[simp] theorem seenThrough_nameParent (p : Pending) (table : TableName) (key : Json) :
    (p.nameParent table key).seenThrough = p.seenThrough := by
  rw [nameParent]
  split <;> rfl

theorem queued_nameParent (h : Queued p.held.named p.seen names) (table : TableName) (key : Json) :
    Queued (p.nameParent table key).held.named (p.nameParent table key).seen fun t =>
      names t ++ if table = t then [key] else [] := by
  rw [Pending.nameParent]
  split
  · next hseen => exact h.known hseen
  · next hseen => exact h.new hseen

theorem Holds.holdParent (h : p.Holds calls) (table : TableName) (change : RowChange) :
    (p.holdParent table change).Holds (calls ++ [.hold table change]) := by
  refine ⟨fun t => ?_, ?_, ?_⟩
  · have hsplit : (p.holdParent table change).held.rowsOf t =
        p.held.rowsOf t ++ if table = t then [change] else [] := by
      by_cases ht : table = t <;>
        simp [Pending.holdParent, ChildrenPending.holdParent, rowsOf, ht]
    rw [hsplit, h.rows]
    by_cases ht : table = t <;> simp [heldOf, ht]
  · have hsame : namedIn (calls ++ [.hold table change]) = namedIn calls := by
      funext t
      simp [namedIn]
    rw [hsame]
    exact h.named
  · have hsame : throughIn (calls ++ [.hold table change]) = throughIn calls := by
      funext c
      simp [throughIn]
    rw [hsame]
    exact h.through

theorem Holds.nameParent (h : p.Holds calls) (table : TableName) (key : Json) :
    (p.nameParent table key).Holds (calls ++ [.name table key]) := by
  refine ⟨fun t => ?_, ?_, ?_⟩
  · rw [rowsOf, parents_nameParent]
    refine (h.rows t).trans ?_
    simp [heldOf]
  · have hmore : namedIn (calls ++ [.name table key]) = fun t =>
        namedIn calls t ++ if table = t then [key] else [] := by
      funext t
      by_cases ht : table = t <;> simp [namedIn, ht]
    rw [hmore]
    exact queued_nameParent h.named table key
  · have hsame : throughIn (calls ++ [.name table key]) = throughIn calls := by
      funext c
      simp [throughIn]
    rw [hsame, through_nameParent, seenThrough_nameParent]
    exact h.through

theorem Holds.nameThrough (h : p.Holds calls) (table : TableName) (field : String) (key : Json) :
    (p.nameThrough table field key).Holds (calls ++ [.through table field key]) := by
  have hrows : heldOf (calls ++ [.through table field key]) = heldOf calls := by
    funext t
    simp [heldOf]
  have hnames : namedIn (calls ++ [.through table field key]) = namedIn calls := by
    funext t
    simp [namedIn]
  have hmore : throughIn (calls ++ [.through table field key]) = fun c =>
      throughIn calls c ++ if (table, field) = c then [key] else [] := by
    funext c
    by_cases hc : (table, field) = c <;> simp [throughIn, hc]
  rw [Pending.nameThrough]
  split
  · next hseen =>
    refine ⟨?_, ?_, ?_⟩
    · rw [hrows]
      exact h.rows
    · rw [hnames]
      exact h.named
    · rw [hmore]
      exact h.through.known hseen
  · next hseen =>
    refine ⟨?_, ?_, ?_⟩
    · rw [hrows]
      exact h.rows
    · rw [hnames]
      exact h.named
    · rw [hmore]
      exact h.through.new hseen

theorem Holds.apply (h : p.Holds calls) (call : HeldCall) :
    (p.apply call).Holds (calls ++ [call]) := by
  cases call with
  | hold table change => exact h.holdParent table change
  | name table key => exact h.nameParent table key
  | through table field childKey => exact h.nameThrough table field childKey

theorem holds_calls (calls : List HeldCall) : (calls.foldl Pending.apply start).Holds calls := by
  induction calls using List.reverseRecOn with
  | nil => exact start_holds
  | append_singleton calls call ih =>
    rw [List.foldl_append]
    exact ih.apply call

/-- One call, where the queues are searched. -/
def applyHeld (held : ChildrenPending) : HeldCall → ChildrenPending
  | .hold table change => held.holdParent table change
  | .name table key => held.nameParent table key
  | .through table field childKey => held.nameThrough table field childKey

theorem Holds.held_apply (h : p.Holds calls) (call : HeldCall) :
    (p.apply call).held = applyHeld p.held call := by
  cases call with
  | hold table change => rfl
  | name table key =>
    change (p.nameParent table key).held = p.held.nameParent table key
    rw [Pending.nameParent, ChildrenPending.nameParent]
    by_cases hseen : (table, keyLookup key) ∈ p.seen
    · rw [if_pos hseen, if_pos (h.named.seen_iff.mp hseen)]
    · rw [if_neg hseen, if_neg fun hany => hseen (h.named.seen_iff.mpr hany)]
  | through table field childKey =>
    change (p.nameThrough table field childKey).held = p.held.nameThrough table field childKey
    rw [Pending.nameThrough, ChildrenPending.nameThrough]
    by_cases hseen : ((table, field), keyLookup childKey) ∈ p.seenThrough
    · rw [if_pos hseen, if_pos (h.through.seen_iff.mp hseen)]
    · rw [if_neg hseen, if_neg fun hany => hseen (h.through.seen_iff.mpr hany)]

/-- The sets decide nothing that the queues do not. -/
theorem held_calls (calls : List HeldCall) :
    (calls.foldl Pending.apply start).held = calls.foldl applyHeld .empty := by
  induction calls using List.reverseRecOn with
  | nil => rfl
  | append_singleton calls call ih =>
    rw [List.foldl_append, List.foldl_append, ← ih]
    exact (holds_calls calls).held_apply call

end Pending

/-! ## Children become parents -/

/-- The parents that the children of a group are paired with. -/
def parentsOf (reads : PieceReads) (group : (TableName × String) × List Json) : List Json :=
  match reads.parentsThrough group.1.1 group.1.2 with
  | none => []
  | some query => match query group.2 with
    | .ok parents => parents
    | .error _ => []

/-- Two that differ in the parents they name. -/
structure Pending.SameRest (p q : Pending) : Prop where
  /-- the rows are the same -/
  parents : q.held.parents = p.held.parents
  /-- and the children -/
  through : q.held.through = p.held.through

section

variable {reads : PieceReads} {p q : Pending} {names : TableName → List Json}

theorem nameAll (table : TableName) (keys : List Json) (h : Queued p.held.named p.seen names) :
    p.SameRest (keys.foldl (fun p key => p.nameParent table key) p) ∧
      Queued (keys.foldl (fun p key => p.nameParent table key) p).held.named
        (keys.foldl (fun p key => p.nameParent table key) p).seen fun t =>
          names t ++ if table = t then keys else [] := by
  induction keys generalizing p names with
  | nil =>
    refine ⟨⟨rfl, rfl⟩, ?_⟩
    simpa using h
  | cons key rest ih =>
    obtain ⟨hrest, hnames⟩ := ih (Pending.queued_nameParent h table key)
    refine ⟨⟨?_, ?_⟩, ?_⟩
    · exact hrest.parents.trans (p.parents_nameParent table key)
    · exact hrest.through.trans (p.through_nameParent table key)
    · have hmore : (fun t => names t ++ if table = t then key :: rest else []) = fun t =>
          (names t ++ if table = t then [key] else []) ++ if table = t then rest else [] := by
        funext t
        by_cases ht : table = t <;> simp [ht]
      rw [hmore]
      exact hnames

theorem resolveGroup_ok {group : (TableName × String) × List Json}
    (h : Queued p.held.named p.seen names) (hok : resolveGroup reads p group = .ok q) :
    p.SameRest q ∧ Queued q.held.named q.seen fun t =>
      names t ++ if group.1.1 = t then parentsOf reads group else [] := by
  rw [resolveGroup] at hok
  rw [parentsOf]
  split at hok
  · next hnone =>
    obtain rfl := Except.ok.inj hok
    refine ⟨⟨rfl, rfl⟩, ?_⟩
    simpa using h
  · next query hquery =>
    obtain ⟨parents, hparents, hok⟩ := Except.bind_eq_ok hok
    obtain rfl := Except.ok.inj hok
    simp only [hparents]
    exact nameAll group.1.1 parents h

theorem resolveGroups_ok (groups : List ((TableName × String) × List Json))
    (h : Queued p.held.named p.seen names) (hok : groups.foldlM (resolveGroup reads) p = .ok q) :
    p.SameRest q ∧ Queued q.held.named q.seen fun t =>
      names t ++ groups.flatMap fun group =>
        if group.1.1 = t then parentsOf reads group else [] := by
  induction groups generalizing p names with
  | nil =>
    obtain rfl := Except.ok.inj hok
    refine ⟨⟨rfl, rfl⟩, ?_⟩
    simpa using h
  | cons group rest ih =>
    rw [List.foldlM_cons] at hok
    obtain ⟨next, hnext, hok⟩ := Except.bind_eq_ok hok
    obtain ⟨hsame, hnames⟩ := resolveGroup_ok h hnext
    obtain ⟨hsame', hnames'⟩ := ih hnames hok
    refine ⟨⟨hsame'.parents.trans hsame.parents, hsame'.through.trans hsame.through⟩, ?_⟩
    simpa [List.append_assoc] using hnames'

end

variable {reads : PieceReads}

theorem mem_parentsOf {group : (TableName × String) × List Json} :
    key ∈ parentsOf reads group ↔ ∃ query parents,
      reads.parentsThrough group.1.1 group.1.2 = some query ∧ query group.2 = .ok parents ∧
        key ∈ parents := by
  rw [parentsOf]
  constructor
  · intro h
    split at h
    · cases h
    · next query hquery =>
      split at h
      · next parents hparents => exact ⟨query, parents, hquery, hparents, h⟩
      · cases h
  · rintro ⟨query, parents, hquery, hparents, hkey⟩
    simp only [hquery, hparents]
    exact hkey

variable {piece : Piece} {p q : Pending}

/-- After the children were resolved, the parents that the piece names are held. -/
theorem resolveThrough_ok (h : p.Holds piece.calls) (hok : resolveThrough piece.reads p = .ok q) :
    q.held.parents = p.held.parents ∧ q.held.through = [] ∧
      ∃ names, Queued q.held.named q.seen names ∧
        ∀ t text, text ∈ (names t).map keyLookup ↔ NamedIn piece t text := by
  rw [resolveThrough] at hok
  obtain ⟨hrest, hnames⟩ := resolveGroups_ok _ (p := { p with
    held := { p.held with through := [] } }) h.named hok
  refine ⟨hrest.parents, hrest.through, _, hnames, fun t text => ?_⟩
  rw [List.map_append, List.mem_append, NamedIn]
  refine or_congr_right ?_
  rw [List.mem_map]
  constructor
  · rintro ⟨key, hkey, rfl⟩
    obtain ⟨group, hgroup, hkey⟩ := List.mem_flatMap.mp hkey
    split at hkey
    · next ht =>
      obtain ⟨query, parents, hquery, hparents, hin⟩ := mem_parentsOf.mp hkey
      rw [(piece.reads.drainedPerm _).mem_iff] at hgroup
      obtain ⟨⟨table, field⟩, hcollection, rfl⟩ := List.mem_map.mp hgroup
      obtain rfl : table = t := ht
      have hqueue : p.throughOf (table, field) =
          distinctKeys (throughIn piece.calls (table, field)) := h.through.queue (table, field)
      rw [List.mem_dedup] at hcollection
      refine ⟨field, query, parents, ?_, hquery, ?_, List.mem_map_of_mem hin⟩
      · intro hnone
        rw [hnone] at hqueue
        exact mem_groups.mp hcollection hqueue
      · rw [← hqueue]
        exact hparents
    · cases hkey
  · rintro ⟨field, query, parents, hsome, hquery, hparents, htext⟩
    obtain ⟨key, hkey, rfl⟩ := List.mem_map.mp htext
    have hqueue : p.throughOf (t, field) = distinctKeys (throughIn piece.calls (t, field)) :=
      h.through.queue (t, field)
    refine ⟨key, List.mem_flatMap.mpr ⟨((t, field), p.throughOf (t, field)), ?_, ?_⟩, rfl⟩
    · rw [(piece.reads.drainedPerm _).mem_iff]
      refine List.mem_map.mpr ⟨(t, field), List.mem_dedup.mpr (mem_groups.mpr ?_), rfl⟩
      intro hnone
      exact hsome (distinctKeys_eq_nil.mp (hqueue.symm.trans hnone))
    · rw [if_pos rfl]
      refine mem_parentsOf.mpr ⟨query, parents, hquery, ?_, hkey⟩
      rw [hqueue]
      exact hparents

/-! ## One table after the other -/

/-- What was done for a table goes by what was held of it. -/
def FlushedTable (reads : PieceReads) (version : Option ℕ) (p : Pending) (f : TableFlush) : Prop :=
  f.reread = keysNeedingRefetch (p.held.rowsOf f.table) (p.held.namedOf f.table) ∧
    ∃ found attach,
      refetchMissing reads f.table f.reread = .ok found ∧
        reads.attach f.table (documentKeys (emittedRows f.table (p.held.rowsOf f.table) f.reread
          found)) = .ok attach ∧
        f.sent = (emittedRows f.table (p.held.rowsOf f.table) f.reread found).map fun row =>
          { row with kind := row.kind.mapDoc (attach row.kind.pk), version := version }

variable {β : Type}

theorem filterMap_filter_ne (held : List (TableName × β)) {table t : TableName} (h : t ≠ table) :
    ((held.filter fun entry => entry.1 ≠ table).filterMap fun entry =>
      if entry.1 = t then some entry.2 else none) =
      held.filterMap fun entry => if entry.1 = t then some entry.2 else none := by
  rw [List.filterMap_filter]
  refine List.filterMap_congr fun entry _ => ?_
  by_cases ht : entry.1 = t
  · have hne : entry.1 ≠ table := fun htable => h (ht.symm.trans htable)
    simp [ht, ht ▸ hne]
  · simp [ht]

theorem filter_filter_notMem (held : List (TableName × β)) {table : TableName}
    {rest : List TableName} :
    (held.filter fun entry => entry.1 ≠ table).filter (fun entry => entry.1 ∉ rest) =
      held.filter fun entry => entry.1 ∉ table :: rest := by
  rw [List.filter_filter]
  refine List.filter_congr fun entry _ => ?_
  simp [Bool.and_comm]

theorem flushedTable_take {version : Option ℕ} {p : Pending} {table : TableName} {f : TableFlush}
    (hne : f.table ≠ table) (h : FlushedTable reads version (p.take table).2 f) :
    FlushedTable reads version p f := by
  have hrows : (p.take table).2.held.rowsOf f.table = p.held.rowsOf f.table :=
    filterMap_filter_ne p.held.parents hne
  have hnamed : (p.take table).2.held.namedOf f.table = p.held.namedOf f.table :=
    filterMap_filter_ne p.held.named hne
  rw [FlushedTable, hrows, hnamed] at h
  exact h

variable {flushes : List TableFlush}

theorem flushTables_ok {version : Option ℕ} (tables : List TableName) (hnodup : tables.Nodup)
    (hok : flushTables reads version tables p = .ok (flushes, q)) :
    flushes.map TableFlush.table = tables ∧ (∀ f ∈ flushes, FlushedTable reads version p f) ∧
      (q.held.parents = p.held.parents.filter fun held => held.1 ∉ tables) ∧
      (q.held.named = p.held.named.filter fun named => named.1 ∉ tables) ∧
      q.held.through = p.held.through := by
  induction tables generalizing p flushes with
  | nil =>
    obtain ⟨rfl, rfl⟩ := Prod.mk.inj (Except.ok.inj hok)
    refine ⟨rfl, fun f hf => absurd hf List.not_mem_nil, ?_, ?_, rfl⟩ <;> simp
  | cons table rest ih =>
    obtain ⟨hnew, hnodup⟩ := List.nodup_cons.mp hnodup
    rw [flushTables] at hok
    obtain ⟨found, hfound, hok⟩ := Except.bind_eq_ok hok
    obtain ⟨attach, hattach, hok⟩ := Except.bind_eq_ok hok
    obtain ⟨⟨more, q'⟩, hmore, hok⟩ := Except.bind_eq_ok hok
    obtain ⟨rfl, rfl⟩ := Prod.mk.inj (Except.ok.inj hok)
    obtain ⟨htables, hflushed, hparents, hnamed, hthrough⟩ := ih hnodup hmore
    refine ⟨?_, ?_, ?_, ?_, hthrough⟩
    · rw [List.map_cons, htables]
    · intro f hf
      rcases List.mem_cons.mp hf with rfl | hf
      · exact ⟨rfl, found, attach, hfound, hattach, rfl⟩
      · have hin : f.table ∈ rest := htables ▸ List.mem_map_of_mem hf
        refine flushedTable_take (fun heq => ?_) (hflushed f hf)
        rw [heq] at hin
        exact hnew hin
    · exact hparents.trans (filter_filter_notMem p.held.parents)
    · exact hnamed.trans (filter_filter_notMem p.held.named)

/-! ## Pieces -/

theorem mem_tables {p : Pending} {t : TableName} :
    t ∈ p.held.tables ↔ p.held.rowsOf t ≠ [] ∨ p.held.namedOf t ≠ [] := by
  rw [tables, List.mem_dedup, List.mem_append, mem_groups, mem_groups]
  rfl

theorem mem_keysNeedingRefetch {rows : List RowChange} {named : List Json} {text : String} :
    text ∈ (keysNeedingRefetch rows named).map keyLookup ↔
      text ∈ named.map keyLookup ∧ text ∉ rows.map fun row => keyLookup row.kind.pk := by
  rw [keysNeedingRefetch, List.mem_map, List.mem_map]
  constructor
  · rintro ⟨key, hkey, rfl⟩
    obtain ⟨hkey, hfree⟩ := List.mem_filter.mp hkey
    refine ⟨⟨key, hkey, rfl⟩, fun hcovered => ?_⟩
    simp only [Bool.not_eq_true', List.contains_eq_mem, decide_eq_false_iff_not] at hfree
    exact hfree hcovered
  · rintro ⟨⟨key, hkey, rfl⟩, hfree⟩
    refine ⟨key, List.mem_filter.mpr ⟨hkey, ?_⟩, rfl⟩
    simp only [Bool.not_eq_true', List.contains_eq_mem, decide_eq_false_iff_not]
    exact hfree

theorem filter_notMem_eq_nil {held : List (TableName × β)} {tables : List TableName}
    (h : ∀ entry ∈ held, entry.1 ∈ tables) : held.filter (fun entry => entry.1 ∉ tables) = [] := by
  refine List.filter_eq_nil_iff.mpr fun entry hentry => ?_
  simp [h entry hentry]

/-- What a flush did, where it had something to do. -/
theorem pieceFlushed {r : Pending} {names : TableName → List Json}
    (hrows : ∀ t, r.held.rowsOf t = heldOf piece.calls t)
    (hnames : Queued r.held.named r.seen names)
    (hnamed : ∀ t text, text ∈ (names t).map keyLookup ↔ NamedIn piece t text)
    (htables : flushes.map TableFlush.table = piece.reads.order r.held.tables)
    (hflushes : ∀ f ∈ flushes, FlushedTable piece.reads piece.version r f) :
    PieceFlushed piece flushes := by
  have hqueue : ∀ t, r.held.namedOf t = distinctKeys (names t) := hnames.queue
  refine ⟨?_, fun t ht => ?_, fun f hf => ?_, fun f hf text => ?_, fun f hf => ?_⟩
  · rw [htables]
    exact (piece.reads.perm _).nodup_iff.mpr (List.nodup_dedup _)
  · rw [htables, (piece.reads.perm _).mem_iff, mem_tables, hrows, hqueue]
    refine ht.imp_right ?_
    rintro ⟨text, htext⟩ hnone
    rw [← hnamed, distinctKeys_eq_nil.mp hnone] at htext
    cases htext
  · rw [(hflushes f hf).1, hqueue]
    exact (nodup_distinctKeys (names f.table)).sublist (List.filter_sublist.map keyLookup)
  · rw [(hflushes f hf).1, mem_keysNeedingRefetch, hqueue, mem_distinctKeys, hnamed, hrows]
  · obtain ⟨found, attach, hfound, hattach, hsent⟩ := (hflushes f hf).2
    rw [hrows] at hattach hsent
    exact ⟨found, attach, hfound, hattach, hsent⟩

/-- A piece of which nothing is held. -/
theorem pieceFlushed_nil {p : Pending} (h : p.Holds piece.calls) (hempty : p.held.isEmpty = true) :
    p = Pending.start ∧ PieceFlushed piece [] := by
  rw [ChildrenPending.isEmpty, Bool.and_eq_true, Bool.and_eq_true, List.isEmpty_iff,
    List.isEmpty_iff, List.isEmpty_iff] at hempty
  obtain ⟨⟨hparents, hnamed⟩, hthrough⟩ := hempty
  obtain ⟨hseen, hnames⟩ := h.named.of_nil hnamed
  obtain ⟨hseenThrough, hchildren⟩ := h.through.of_nil hthrough
  constructor
  · obtain ⟨⟨parents, named, through⟩, seen, seenThrough⟩ := p
    obtain rfl : parents = [] := hparents
    obtain rfl : named = [] := hnamed
    obtain rfl : through = [] := hthrough
    obtain rfl : seen = [] := hseen
    obtain rfl : seenThrough = [] := hseenThrough
    rfl
  · refine ⟨List.nodup_nil, fun t ht => ?_, ?_, ?_, ?_⟩
    · rw [← h.rows t, rowsOf, hparents] at ht
      rcases ht with ht | ⟨text, htext | ⟨field, query, parents, hsome, -⟩⟩
      · exact absurd rfl ht
      · rw [hnames t] at htext
        cases htext
      · exact absurd (hchildren (t, field)) hsome
    all_goals exact fun f hf => absurd hf List.not_mem_nil

/-- A flush leaves nothing, neither in the queues nor in the sets. -/
theorem flushPiece_ok (h : p.Holds piece.calls)
    (hok : flushPiece piece.reads piece.version p = .ok (flushes, q)) :
    q = Pending.start ∧ PieceFlushed piece flushes := by
  rw [flushPiece] at hok
  split at hok
  · next hempty =>
    obtain ⟨rfl, rfl⟩ := Prod.mk.inj (Except.ok.inj hok)
    exact pieceFlushed_nil h hempty
  · obtain ⟨r, hresolved, hok⟩ := Except.bind_eq_ok hok
    obtain ⟨⟨flushes', s⟩, hflushed, hok⟩ := Except.bind_eq_ok hok
    obtain ⟨rfl, rfl⟩ := Prod.mk.inj (Except.ok.inj hok)
    obtain ⟨hparents, hthrough, names, hnames, hnamed⟩ := resolveThrough_ok h hresolved
    have hnodup : (piece.reads.order r.held.tables).Nodup :=
      (piece.reads.perm _).nodup_iff.mpr (List.nodup_dedup _)
    obtain ⟨htables, hflushes, hparents', hnamed', hthrough'⟩ := flushTables_ok _ hnodup hflushed
    constructor
    · have hleft : s.held.parents = [] := by
        refine hparents'.trans (filter_notMem_eq_nil fun entry hentry => ?_)
        rw [(piece.reads.perm _).mem_iff, tables, List.mem_dedup]
        exact List.mem_append_left _ (List.mem_map_of_mem hentry)
      have hleft' : s.held.named = [] := by
        refine hnamed'.trans (filter_notMem_eq_nil fun entry hentry => ?_)
        rw [(piece.reads.perm _).mem_iff, tables, List.mem_dedup]
        exact List.mem_append_right _ (List.mem_map_of_mem hentry)
      obtain ⟨⟨parents, named, through⟩, seen, seenThrough⟩ := s
      obtain rfl : parents = [] := hleft
      obtain rfl : named = [] := hleft'
      obtain rfl : through = [] := hthrough'.trans hthrough
      rfl
    · have hrows : ∀ t, r.held.rowsOf t = heldOf piece.calls t := by
        intro t
        rw [rowsOf, hparents]
        exact h.rows t
      exact pieceFlushed hrows hnames hnamed htables hflushes

theorem runPieces_ok {pieces : List Piece} {outs : List (List TableFlush)} {p : Pending}
    (h : runPieces pieces Pending.start = .ok (outs, p)) :
    p = Pending.start ∧ List.Forall₂ PieceFlushed pieces outs := by
  induction pieces generalizing outs with
  | nil =>
    obtain ⟨rfl, rfl⟩ := Prod.mk.inj (Except.ok.inj h)
    exact ⟨rfl, .nil⟩
  | cons piece rest ih =>
    obtain ⟨⟨flushes, q⟩, hflush, h⟩ := Except.bind_eq_ok h
    obtain ⟨⟨more, p'⟩, hmore, h⟩ := Except.bind_eq_ok h
    obtain ⟨rfl, rfl⟩ := Prod.mk.inj (Except.ok.inj h)
    obtain ⟨rfl, hpiece⟩ := flushPiece_ok (Pending.holds_calls piece.calls) hflush
    obtain ⟨hstart, hrest⟩ := ih hmore
    exact ⟨hstart, .cons hpiece hrest⟩

/-! ## Where the database answers -/

theorem answers_bind {α β : Type} {x : Except CoreError α} {f : α → Except CoreError β}
    (hx : ∃ a, x = .ok a) (hf : ∀ a, ∃ b, f a = .ok b) : ∃ b, (x >>= f) = .ok b := by
  obtain ⟨a, ha⟩ := hx
  rw [ha]
  exact hf a

/-- It does. -/
structure PieceReads.Answers (reads : PieceReads) : Prop where
  /-- about the parents of children -/
  parents : ∀ table field query, reads.parentsThrough table field = some query →
    ∀ keys, ∃ parents, query keys = .ok parents
  /-- about documents -/
  refetch : ∀ table keys, ∃ found, reads.refetch table keys = .ok found
  /-- and about what belongs to them -/
  attach : ∀ table keys, ∃ attach, reads.attach table keys = .ok attach

namespace PieceReads.Answers

variable {reads : PieceReads} (h : reads.Answers)

include h

theorem resolveGroup (p : Pending) (group : (TableName × String) × List Json) :
    ∃ q, Children.resolveGroup reads p group = .ok q := by
  rw [Children.resolveGroup]
  split
  · exact ⟨p, rfl⟩
  · next query hquery =>
    apply answers_bind (h.parents _ _ query hquery group.2)
    exact fun parents => ⟨_, rfl⟩

theorem resolveGroups (groups : List ((TableName × String) × List Json)) (p : Pending) :
    ∃ q, groups.foldlM (Children.resolveGroup reads) p = .ok q := by
  induction groups generalizing p with
  | nil => exact ⟨p, rfl⟩
  | cons group rest ih =>
    rw [List.foldlM_cons]
    exact answers_bind (h.resolveGroup p group) ih

theorem refetchMissing (table : TableName) (missing : List Json) :
    ∃ found, Children.refetchMissing reads table missing = .ok found := by
  rw [Children.refetchMissing]
  split
  · exact ⟨_, rfl⟩
  · exact h.refetch table missing

theorem flushTables (version : Option ℕ) (tables : List TableName) (p : Pending) :
    ∃ out, Children.flushTables reads version tables p = .ok out := by
  induction tables generalizing p with
  | nil => exact ⟨_, rfl⟩
  | cons table rest ih =>
    rw [Children.flushTables]
    apply answers_bind (h.refetchMissing table _)
    intro found
    apply answers_bind (h.attach table _)
    intro attach
    apply answers_bind (ih (p.take table).2)
    exact fun out => ⟨_, rfl⟩

theorem flushPiece (version : Option ℕ) (p : Pending) :
    ∃ out, Children.flushPiece reads version p = .ok out := by
  rw [Children.flushPiece]
  split
  · exact ⟨_, rfl⟩
  · apply answers_bind (h.resolveGroups (reads.drained p.takeThrough.1) p.takeThrough.2)
    intro q
    apply answers_bind (h.flushTables version (reads.order q.held.tables) q)
    exact fun out => ⟨_, rfl⟩

end PieceReads.Answers

theorem runPieces_answers {pieces : List Piece} (h : ∀ piece ∈ pieces, piece.reads.Answers)
    (p : Pending) : ∃ out, runPieces pieces p = .ok out := by
  induction pieces generalizing p with
  | nil => exact ⟨_, rfl⟩
  | cons piece rest ih =>
    rw [runPieces]
    apply answers_bind ((h piece List.mem_cons_self).flushPiece piece.version _)
    intro flushed
    apply answers_bind (ih (fun piece hpiece => h piece (List.mem_cons_of_mem _ hpiece)) flushed.2)
    exact fun out => ⟨_, rfl⟩

/-- Each piece of a transaction sends what was held since the last one and reads what was named
since then; at the end nothing is left. It does not fail but with the database. -/
theorem pieces_flushed (pieces : List Piece) :
    ((∀ piece ∈ pieces, piece.reads.Answers) →
      ∃ out, runPieces pieces Pending.start = .ok out) ∧
    ∀ outs p, runPieces pieces Pending.start = .ok (outs, p) →
      p = Pending.start ∧ List.Forall₂ PieceFlushed pieces outs :=
  ⟨fun h => runPieces_answers h Pending.start, fun _ _ => runPieces_ok⟩

end Pg2osync.Children
