import Mathlib.Data.List.TakeWhile
import Pg2osync.AckSafety
import Pg2osync.WriteConflict

/-!
# What open writes keep

About one document: the list of the places whose operations reached it (`log`)
may differ from the order of the batches, and may hold a place several times, but
it agrees with that order wherever the order matters. `KeyStep` says what a step
can do to one document, and every invariant is read off it.
-/

namespace Pg2osync

variable {op : DocumentOp} {place : ℕ × ℕ}

namespace Workload

variable (w : Workload) (key : DocKey)

/-- Whether the operations at two places conflict on a document. -/
def conflictAt (a b : ℕ × ℕ) : Bool :=
  match w.opAt a, w.opAt b with
  | some op, some other => w.conflict key op other
  | _, _ => false

/-- Whether no operation of a later batch that conflicts with the one at a place
has touched a document. -/
def undisturbed (s : ConcurrentState) (place : ℕ × ℕ) : Bool :=
  (s.touched key).all fun other => other.1 ≤ place.1 || !w.conflictAt key place other

/-- Whether a step brings no operation to a document behind a conflicting one of
a later batch. -/
def ordered (s : ConcurrentState) : ConcurrentAction → Bool
  | .land i position =>
    match (w.opAt (i, position)).bind DocumentOp.key with
    | some key => w.undisturbed key s (i, position)
    | none => true
  | .search i => w.keys.all fun key => w.undisturbed key s (i, (s.writes i).start)
  | .strike i key => w.undisturbed key s (i, (s.writes i).start)
  | _ => true

/-- What the operation at a place does to a view. -/
def actAt (place : ℕ × ℕ) (s : Slot) : Slot :=
  match w.opAt place with
  | some op => w.act key op s
  | none => s

/-- The operation at a place may be about a document: it is a write of it, or a
cascade. -/
def Concerns (place : ℕ × ℕ) : Prop :=
  ∃ op, w.opAt place = some op ∧ (op.key = none ∨ op.key = some key)

/-- Whether the operation at a place is a cascade. -/
def cascadeAt (place : ℕ × ℕ) : Bool :=
  (w.opAt place).any DocumentOp.isCascade

/-- A write is through with a place, as far as a document goes. -/
def Finished (s : ConcurrentState) (place : ℕ × ℕ) : Prop :=
  w.Concerns key place ∧ (place.2 < (s.writes place.1).start ∨
    place.2 ∈ (s.writes place.1).handled ∨
    (place.2 = (s.writes place.1).start ∧ (s.writes place.1).searched = true ∧
      key ∉ (s.writes place.1).found))

/-- Two places of a log, in this order, are in order as far as it matters. -/
structure InOrder (a b : ℕ × ℕ) : Prop where
  /-- of two batches, in order or not conflicting -/
  batches : b.1 < a.1 → w.conflictAt key a b = false
  /-- of one batch, on the same side of a cascade -/
  runs : a.1 = b.1 → w.cascadeAt a = true ∨ w.cascadeAt b = true → a.2 ≤ b.2

variable {w key}

theorem opAt_eq_some (h : w.opAt place = some op) :
    ∃ item, (w.batch place.1)[place.2]? = some item ∧ item.op = op :=
  Option.map_eq_some_iff.mp h

theorem lt_length_of_opAt (h : w.opAt place = some op) : place.2 < (w.batch place.1).length := by
  obtain ⟨item, hitem, -⟩ := opAt_eq_some h
  exact (List.getElem?_eq_some_iff.mp hitem).1

theorem mem_ops_of_opAt (h : w.opAt place = some op) : op ∈ w.ops := by
  obtain ⟨item, hitem, rfl⟩ := opAt_eq_some h
  have hmem : item ∈ w.batch place.1 := List.mem_of_getElem? hitem
  unfold batch at hmem
  rcases hb : w.batches[place.1]? with _ | items
  · rw [hb] at hmem
    cases hmem
  · rw [hb] at hmem
    exact List.mem_map_of_mem (List.mem_flatten.mpr ⟨items, List.mem_of_getElem? hb, hmem⟩)

theorem cascadeAt_iff (h : w.opAt place = some op) : w.cascadeAt place = true ↔ op.key = none := by
  rw [cascadeAt, h, key_eq_none_iff]
  rfl

/-! ## Runs -/

theorem runEnd_of_cascade {i start : ℕ} (h : w.cascadeAt (i, start) = true) :
    runEnd (w.batch i) start = start + 1 := by
  obtain ⟨op, hop, hcascade⟩ := (Option.any_eq_true _ _).mp h
  obtain ⟨item, hitem, rfl⟩ := opAt_eq_some hop
  unfold runEnd
  simp only [hitem, hcascade, if_true]

theorem le_runEnd (batch : List LsnOp) (start : ℕ) : start ≤ runEnd batch start := by
  unfold runEnd
  split
  · exact le_refl _
  · split
    · omega
    · omega

theorem runEnd_le {batch : List LsnOp} {start : ℕ} (h : start ≤ batch.length) :
    runEnd batch start ≤ batch.length := by
  unfold runEnd
  split
  · exact h
  · next item hitem =>
    have hlt := (List.getElem?_eq_some_iff.mp hitem).1
    split
    · omega
    · have hpre : (batch.drop start).takeWhile (fun op => !op.op.isCascade) <+:
          batch.drop start := List.takeWhile_prefix _
      have := hpre.length_le
      rw [List.length_drop] at this
      omega

theorem getElem?_takeWhile {α : Type} {p : α → Bool} {l : List α} {n : ℕ} {a : α}
    (hn : n < (l.takeWhile p).length) (ha : l[n]? = some a) : p a = true := by
  have hpre : l.takeWhile p <+: l := List.takeWhile_prefix p
  have hget : (l.takeWhile p)[n] = a := by
    rw [hpre.getElem hn]
    exact (List.getElem?_eq_some_iff.mp ha).2
  exact List.mem_takeWhile_imp (hget ▸ List.getElem_mem hn)

/-- A bulk request reaches no cascade. -/
theorem lt_start_of_cascade {i start position : ℕ} (hrun : w.cascadeAt (i, start) = false)
    (hcascade : w.cascadeAt (i, position) = true) (h : position < runEnd (w.batch i) start) :
    position < start := by
  by_contra hle
  obtain ⟨op, hop, hop'⟩ := (Option.any_eq_true _ _).mp hcascade
  obtain ⟨item, hitem, rfl⟩ := opAt_eq_some hop
  unfold runEnd at h
  split at h
  · exact hle h
  · next first hfirst =>
    have hnot : first.op.isCascade = false := by
      simpa [cascadeAt, opAt, hfirst] using hrun
    simp only [hnot, Bool.false_eq_true, if_false] at h
    have hget : ((w.batch i).drop start)[position - start]? = some item := by
      rw [List.getElem?_drop, ← hitem]
      congr 1
      omega
    have hlt : position - start <
        (((w.batch i).drop start).takeWhile fun op => !op.op.isCascade).length := by omega
    have := getElem?_takeWhile hlt hget
    simp [hop'] at this

end Workload

/-! ## The loop and its writes -/

namespace Workload

variable {w : Workload} {key : DocKey} {loop : SinkLoop} {s s' : ConcurrentState}

/-- What the loop and its writes keep, whatever becomes of the documents. -/
structure WritesInv (w : Workload) (s : ConcurrentState) : Prop where
  /-- the loop keeps what it keeps by itself -/
  loop : Inv s.loop
  /-- what it has taken are the first batches -/
  taken : s.loop.taken = (w.batches.take s.loop.taken.length).map SinkCommand.write
  /-- a write that ended well is at the end of its batch -/
  ended : ∀ i ack, (i, Joined.finished (.ok ack)) ∈ s.loop.done →
    (s.writes i).start = (w.batch i).length
  /-- no write is past the end of its batch -/
  inside : ∀ i, (s.writes i).start ≤ (w.batch i).length
  /-- what a request has handled is of its run -/
  handled : ∀ i, ∀ q ∈ (s.writes i).handled, q < runEnd (w.batch i) (s.writes i).start
  /-- only a cascade searches -/
  searched : ∀ i, (s.writes i).searched = true → w.cascadeAt (i, (s.writes i).start) = true

variable {i : ℕ}

/-- An open write was taken and has not ended. -/
theorem opens_spec (hinv : Inv s.loop) (h : s.opens i = true) :
    i < s.loop.taken.length ∧ ∀ joined, (i, joined) ∉ s.loop.done := by
  obtain ⟨open_, hmem, heq⟩ := List.any_eq_true.mp h
  simp only [Bool.and_eq_true, decide_eq_true_eq, Option.isNone_iff_eq_none] at heq
  obtain ⟨⟨batch, hbatch⟩, houtcome⟩ := hinv.opens open_ hmem
  rw [heq.1] at hbatch houtcome
  refine ⟨(List.getElem?_eq_some_iff.mp hbatch).1, fun joined hjoined => ?_⟩
  have := (houtcome joined).mp hjoined
  rw [heq.2] at this
  cases this

theorem writesInv_start : WritesInv w w.start where
  loop := SinkLoop.inv_start
  taken := rfl
  ended i ack h := by cases h
  inside i := Nat.zero_le _
  handled i q h := by cases h
  searched i h := by cases h

/-- A step that moves one open write on. -/
theorem WritesInv.progress (hinv : WritesInv w s) (hopens : s.opens i = true) {next : WriteProgress}
    (hloop : s'.loop = s.loop) (hwrites : s'.writes = Function.update s.writes i next)
    (hinside : next.start ≤ (w.batch i).length)
    (hhandled : ∀ q ∈ next.handled, q < runEnd (w.batch i) next.start)
    (hsearched : next.searched = true → w.cascadeAt (i, next.start) = true) : WritesInv w s' := by
  have hall : ∀ P : ℕ → WriteProgress → Prop, P i next → (∀ j, P j (s.writes j)) →
      ∀ j, P j (s'.writes j) := fun P hnext hothers =>
    hwrites ▸ (Function.forall_update_iff s.writes P).mpr ⟨hnext, fun j _ => hothers j⟩
  refine ⟨hloop ▸ hinv.loop, hloop ▸ hinv.taken, fun j ack hj => ?_, ?_, ?_, ?_⟩
  · rw [hloop] at hj
    have hne : j ≠ i := by
      rintro rfl
      exact (opens_spec hinv.loop hopens).2 _ hj
    rw [hwrites, Function.update_of_ne hne]
    exact hinv.ended j ack hj
  · exact hall (fun j p => p.start ≤ (w.batch j).length) hinside hinv.inside
  · exact hall (fun j p => ∀ q ∈ p.handled, q < runEnd (w.batch j) p.start) hhandled hinv.handled
  · exact hall (fun j p => p.searched = true → w.cascadeAt (j, p.start) = true) hsearched
      hinv.searched

/-- A step of the loop. -/
theorem WritesInv.loop_step (hinv : WritesInv w s) {action : LoopAction} {next : LoopState}
    (hpermits : w.permits s action = true) (hstep : loop.step s.loop action = some next) :
    WritesInv w { s with loop := next } := by
  obtain ⟨htaken, hdone⟩ := SinkLoop.step_history hstep
  refine ⟨SinkLoop.inv_step hinv.loop hstep, ?_, fun i ack hi => ?_, hinv.inside, hinv.handled,
    hinv.searched⟩
  · rcases htaken with htaken | ⟨command, rfl, htaken⟩
    · simp only [htaken]
      exact hinv.taken
    · have hnext : (w.batches[s.loop.taken.length]?).map SinkCommand.write = some command := by
        simpa [permits] using hpermits
      obtain ⟨batch, hbatch, rfl⟩ := Option.map_eq_some_iff.mp hnext
      obtain ⟨hlt, hget⟩ := List.getElem?_eq_some_iff.mp hbatch
      simp only [htaken, List.length_append, List.length_singleton]
      rw [List.take_succ_eq_append_getElem hlt, List.map_append, ← hinv.taken, hget]
      rfl
  · rcases hdone with hdone | ⟨place, joined, seq, rfl, hplace, hdone⟩
    · exact hinv.ended i ack (hdone ▸ hi)
    · simp only [hdone] at hi
      rcases List.mem_cons.mp hi with heq | hi
      · obtain ⟨rfl, rfl⟩ := Prod.mk.inj heq
        simp only [permits, hplace, Bool.and_eq_true, decide_eq_true_eq] at hpermits
        exact hpermits.1
      · exact hinv.ended i ack hi

/-! ## One document -/

/-- A cascade has found a document and not removed it yet: removing it is still
what the cascade would do to it, or the cascade comes too late for it. -/
structure Pending (w : Workload) (key : DocKey) (s : ConcurrentState) (place : ℕ × ℕ)
    (op : DocumentOp) : Prop where
  /-- the cascade -/
  opAt : w.opAt place = some op
  /-- is one -/
  cascade : op.key = none
  /-- and is about the document -/
  about : w.about key op = true
  /-- which it has touched -/
  touched : place ∈ s.touched key
  /-- what removing the document does -/
  strike : mark op.rank none (w.view key (s.store key)) = w.act key op (w.view key (s.store key)) ∨
    ∃ other ∈ s.touched key, place.1 < other.1 ∧ w.conflictAt key place other = true

/-- What holds of one document. -/
structure KeyInv (w : Workload) (key : DocKey) (s : ConcurrentState) : Prop where
  /-- only operations that may be about it reach it -/
  concerns : ∀ place ∈ s.log key, w.Concerns key place
  /-- from batches that were taken -/
  taken : ∀ place ∈ s.log key, place.1 < s.loop.taken.length
  /-- and runs that were begun -/
  inside : ∀ place ∈ s.log key,
    place.2 < runEnd (w.batch place.1) (s.writes place.1).start
  /-- reaching it is touching it -/
  touched : ∀ place ∈ s.log key, place ∈ s.touched key
  /-- they reached it in order where the order matters -/
  inOrder : (s.log key).Pairwise (w.InOrder key)
  /-- an operation a write is through with has reached it, after all before it -/
  finished : ∀ place, w.Finished key s place → place ∈ s.log key ∧
    ∀ p < place.2, ∀ pre post, s.log key = pre ++ (place.1, p) :: post → place ∈ post
  /-- it is what the operations that reached it made of it -/
  stored : w.view key (s.store key) =
    Interleave.run (w.actAt key) (s.log key) (w.view key (w.target.initial key))
  /-- a cascade that has found it may still remove it -/
  pending : ∀ i, key ∈ (s.writes i).found → ∃ op, w.Pending key s (i, (s.writes i).start) op

/-- A step that brings nothing to a document. -/
structure Quiet (w : Workload) (key : DocKey) (s s' : ConcurrentState) : Prop where
  /-- the document stays as it is -/
  store : s'.store key = s.store key
  /-- and so does its log -/
  log : s'.log key = s.log key
  /-- a search may have found it -/
  touched : ∀ place ∈ s.touched key, place ∈ s'.touched key
  /-- no write is through with more of its operations -/
  finished : ∀ place, w.Finished key s' place → w.Finished key s place
  /-- what is to be removed was to be, or has just been found -/
  found : ∀ i, key ∈ (s'.writes i).found →
    (key ∈ (s.writes i).found ∧ (s'.writes i).start = (s.writes i).start) ∨
    ((i, (s'.writes i).start) ∈ s'.touched key ∧
      ∃ op, w.opAt (i, (s'.writes i).start) = some op ∧ op.key = none ∧
        w.target.reaches op key (s.store key) = true)

/-- A step that brings the operation at a place to a document. -/
structure Reached (w : Workload) (key : DocKey) (s s' : ConcurrentState) (place : ℕ × ℕ)
    (op : DocumentOp) : Prop where
  /-- the operation -/
  opAt : w.opAt place = some op
  /-- may be about the document -/
  concerns : op.key = none ∨ op.key = some key
  /-- it is of a batch that was taken -/
  taken : place.1 < s.loop.taken.length
  /-- and of the run its write is at -/
  inRun : (s.writes place.1).start ≤ place.2 ∧
    place.2 < runEnd (w.batch place.1) (s.writes place.1).start
  /-- it does what it does -/
  view : w.view key (s'.store key) = w.act key op (w.view key (s.store key))
  /-- it goes to the end of the log -/
  log : s'.log key = s.log key ++ [place]
  /-- and has touched the document -/
  touched : s'.touched key = s.touched key ++ [place]
  /-- no conflicting operation of a later batch has -/
  undisturbed : w.undisturbed key s place = true
  /-- its write is through with nothing else -/
  finished : ∀ p, w.Finished key s' p → w.Finished key s p ∨ p = place
  /-- and was through with nothing after it -/
  latest : ∀ p, w.Finished key s p → p.1 = place.1 → p.2 ≤ place.2
  /-- nothing new is found -/
  found : ∀ i, key ∈ (s'.writes i).found →
    key ∈ (s.writes i).found ∧ (s'.writes i).start = (s.writes i).start

/-- A step leaves the writes no further back. -/
structure Onward (w : Workload) (s s' : ConcurrentState) : Prop where
  /-- in the commands taken -/
  taken : s.loop.taken.length ≤ s'.loop.taken.length
  /-- nor in their batches -/
  runs : ∀ i, runEnd (w.batch i) (s.writes i).start ≤ runEnd (w.batch i) (s'.writes i).start

theorem conflictAt_eq {a b : ℕ × ℕ} {op other : DocumentOp} (ha : w.opAt a = some op)
    (hb : w.opAt b = some other) : w.conflictAt key a b = w.conflict key op other := by
  unfold conflictAt
  rw [ha, hb]

theorem conflictAt_symm (a b : ℕ × ℕ) : w.conflictAt key a b = w.conflictAt key b a := by
  unfold conflictAt
  cases w.opAt a <;> cases w.opAt b <;> first | rfl | exact conflict_symm

theorem undisturbed_spec {place other : ℕ × ℕ} (h : w.undisturbed key s place = true)
    (hother : other ∈ s.touched key) (hlt : place.1 < other.1) :
    w.conflictAt key place other = false := by
  have := List.all_eq_true.mp h other hother
  simp only [Bool.or_eq_true, decide_eq_true_eq, Bool.not_eq_true'] at this
  rcases this with hle | hno
  · omega
  · exact hno

section

variable (huniform : w.Uniform)

include huniform

theorem good_actAt (place : ℕ × ℕ) (v : Slot) (hv : w.Good key v) :
    w.Good key (w.actAt key place v) := by
  unfold actAt
  split
  · next op hop => exact good_act huniform (mem_ops_of_opAt hop) hv
  · exact hv

omit huniform in
theorem good_initial : w.Good key (w.view key (w.target.initial key)) := by
  refine ⟨view_view _, fun doc hdoc => ?_⟩
  rw [content_view] at hdoc
  refine List.mem_append_left _ ?_
  rw [hdoc]
  exact List.mem_singleton.mpr rfl

theorem KeyInv.good (h : KeyInv w key s) : w.Good key (w.view key (s.store key)) := by
  rw [h.stored]
  exact Interleave.good_run (good_actAt huniform) _ good_initial

/-- A removal that was still right stays so, or comes too late, when an
operation reaches the document. -/
theorem Pending.reached (hkey : KeyInv w key s) {place place' : ℕ × ℕ} {op op' : DocumentOp}
    (h : w.Pending key s place op) (hreached : w.Reached key s s' place' op')
    (hself : place'.1 = place.1 → place' = place) : w.Pending key s' place op := by
  have hmem : ∀ other ∈ s.touched key, other ∈ s'.touched key := fun other hother => by
    rw [hreached.touched]
    exact List.mem_append_left _ hother
  refine ⟨h.opAt, h.cascade, h.about, hmem _ h.touched, ?_⟩
  rcases h.strike with hstrike | ⟨other, hother, hlt, hconflict⟩
  · have hc := mem_ops_of_opAt h.opAt
    have hgood := hkey.good huniform
    -- an operation that does not conflict leaves the removal right
    have hapart : w.conflict key op op' = false →
        mark op.rank none (w.view key (s'.store key)) =
          w.act key op (w.view key (s'.store key)) := fun hno => by
      rw [hreached.view]
      exact strike_act huniform hc (mem_ops_of_opAt hreached.opAt) h.cascade h.about
        hreached.concerns hno hgood hstrike
    rcases Nat.lt_trichotomy place'.1 place.1 with hlt | heq | hgt
    · have hno := undisturbed_spec hreached.undisturbed h.touched hlt
      rw [conflictAt_symm, conflictAt_eq h.opAt hreached.opAt] at hno
      exact .inl (hapart hno)
    · -- the cascade itself, which does not find the document any more or removes it
      have hsame : op' = op := by
        have := hself heq ▸ hreached.opAt
        exact Option.some.inj (this.symm.trans h.opAt)
      refine .inl ?_
      rw [hreached.view, hsame, act_self huniform hc hgood, ← hstrike, mark_self]
    · cases hconflict : w.conflict key op op' with
      | false => exact .inl (hapart hconflict)
      | true =>
        refine .inr ⟨place', ?_, hgt, by rw [conflictAt_eq h.opAt hreached.opAt, hconflict]⟩
        rw [hreached.touched]
        exact List.mem_append_right _ (List.mem_singleton.mpr rfl)
  · exact .inr ⟨other, hmem _ hother, hlt, hconflict⟩

/-- A removal of what has just been found is right. -/
theorem pending_of_reaches (hkey : KeyInv w key s) (hop : w.opAt place = some op)
    (hcascade : op.key = none) (hreaches : w.target.reaches op key (s.store key) = true)
    (hstore : s'.store key = s.store key) (htouched : place ∈ s'.touched key) :
    w.Pending key s' place op := by
  have hgood := hkey.good huniform
  rw [← reaches_congr (content_view (s.store key))] at hreaches
  refine ⟨hop, hcascade, about_of_reaches hgood.content hreaches, htouched, .inl ?_⟩
  rw [hstore, act_eq huniform (mem_ops_of_opAt hop) hgood, if_pos hreaches,
    leaves_of_cascade hcascade]

theorem KeyInv.quiet (hkey : KeyInv w key s) (honward : Onward w s s')
    (hquiet : Quiet w key s s') : KeyInv w key s' where
  concerns := hquiet.log ▸ hkey.concerns
  taken place hplace :=
    lt_of_lt_of_le (hkey.taken place (hquiet.log ▸ hplace)) honward.taken
  inside place hplace :=
    lt_of_lt_of_le (hkey.inside place (hquiet.log ▸ hplace)) (honward.runs place.1)
  touched place hplace := hquiet.touched _ (hkey.touched place (hquiet.log ▸ hplace))
  inOrder := hquiet.log ▸ hkey.inOrder
  finished place hplace := hquiet.log ▸ hkey.finished place (hquiet.finished place hplace)
  stored := by rw [hquiet.store, hquiet.log, hkey.stored]
  pending i hi := by
    rcases hquiet.found i hi with ⟨hold, hstart⟩ | ⟨htouched, op, hop, hcascade, hreaches⟩
    · obtain ⟨op, hpending⟩ := hkey.pending i hold
      refine ⟨op, hstart ▸ hpending.opAt, hpending.cascade, hpending.about,
        hquiet.touched _ (hstart ▸ hpending.touched), ?_⟩
      rw [hquiet.store, hstart]
      exact hpending.strike.imp_right fun ⟨other, hother, hlt⟩ =>
        ⟨other, hquiet.touched _ hother, hlt⟩
    · exact ⟨op, pending_of_reaches huniform hkey hop hcascade hreaches hquiet.store htouched⟩

omit huniform in
/-- The new arrival is in order behind what reached the document before. -/
theorem inOrder_reached (hkey : KeyInv w key s) (hreached : w.Reached key s s' place op) {a : ℕ × ℕ}
    (ha : a ∈ s.log key) : w.InOrder key a place := by
  refine ⟨fun hlt => ?_, fun hsame hcascade => ?_⟩
  · rw [conflictAt_symm]
    exact undisturbed_spec hreached.undisturbed (hkey.touched a ha) hlt
  · obtain ⟨hstart, hend⟩ := hreached.inRun
    have hinside := hkey.inside a ha
    rw [hsame] at hinside
    cases hrun : w.cascadeAt (place.1, (s.writes place.1).start) with
    | true =>
      rw [runEnd_of_cascade hrun] at hinside
      omega
    | false =>
      rcases hcascade with hcascade | hcascade
      · have : w.cascadeAt (place.1, a.2) = true := hsame ▸ hcascade
        have := lt_start_of_cascade hrun this hinside
        omega
      · have : place.2 < (s.writes place.1).start := lt_start_of_cascade hrun hcascade hend
        omega

theorem KeyInv.reached (hkey : KeyInv w key s) (honward : Onward w s s')
    (hreached : w.Reached key s s' place op) : KeyInv w key s' := by
  have hcases : ∀ {P : ℕ × ℕ → Prop}, (∀ a ∈ s.log key, P a) → P place →
      ∀ a ∈ s'.log key, P a := fun hold hnew a ha => by
    rw [hreached.log] at ha
    rcases List.mem_append.mp ha with ha | ha
    · exact hold a ha
    · rw [List.mem_singleton.mp ha]
      exact hnew
  refine ⟨hcases hkey.concerns ⟨op, hreached.opAt, hreached.concerns⟩, ?_, ?_, ?_, ?_, ?_, ?_, ?_⟩
  · exact hcases (fun a ha => lt_of_lt_of_le (hkey.taken a ha) honward.taken)
      (lt_of_lt_of_le hreached.taken honward.taken)
  · exact hcases (fun a ha => lt_of_lt_of_le (hkey.inside a ha) (honward.runs a.1))
      (lt_of_lt_of_le hreached.inRun.2 (honward.runs place.1))
  · rw [hreached.touched]
    exact hcases (fun a ha => List.mem_append_left _ (hkey.touched a ha))
      (List.mem_append_right _ (List.mem_singleton.mpr rfl))
  · rw [hreached.log]
    refine List.pairwise_append.mpr ⟨hkey.inOrder, List.pairwise_singleton _ _, ?_⟩
    intro a ha b hb
    rw [List.mem_singleton.mp hb]
    exact inOrder_reached hkey hreached ha
  · intro p hp
    rw [hreached.log]
    rcases hreached.finished p hp with hold | rfl
    · obtain ⟨hmem, hafter⟩ := hkey.finished p hold
      refine ⟨List.mem_append_left _ hmem, fun q hq pre post heq => ?_⟩
      rcases Register.eq_or_eq_of_append_singleton heq with ⟨-, -, hplace⟩ | ⟨rest, rfl, hlog⟩
      · -- the new arrival would be an earlier position of a batch that is past it
        have := hreached.latest p hold (by rw [hplace])
        rw [hplace] at this
        exact absurd hq (Nat.not_lt_of_le this)
      · exact List.mem_append_left _ (hafter q hq pre rest hlog)
    · refine ⟨List.mem_append_right _ (List.mem_singleton.mpr rfl), fun q hq pre post heq => ?_⟩
      rcases Register.eq_or_eq_of_append_singleton heq with ⟨-, -, hplace⟩ | ⟨rest, rfl, -⟩
      · rw [hplace] at hq
        exact absurd hq (Nat.lt_irrefl _)
      · exact List.mem_append_right _ (List.mem_singleton.mpr rfl)
  · rw [hreached.view, hreached.log, hkey.stored, Interleave.run_append]
    simp only [Interleave.run_cons, Interleave.run_nil, actAt, hreached.opAt]
  · intro i hi
    obtain ⟨hold, hstart⟩ := hreached.found i hi
    obtain ⟨op', hpending⟩ := hkey.pending i hold
    rw [hstart]
    refine ⟨op', hpending.reached huniform hkey hreached fun hsame => ?_⟩
    have hrun := runEnd_of_cascade ((cascadeAt_iff hpending.opAt).mpr hpending.cascade)
    have hbatch : place.1 = i := hsame
    have hin := hreached.inRun
    rw [hbatch, hrun] at hin
    have hposition : place.2 = (s.writes i).start := by omega
    exact Prod.ext hbatch hposition

end

/-! ## The steps -/

/-- What a step does to one document. -/
def KeyStep (w : Workload) (key : DocKey) (s s' : ConcurrentState) : Prop :=
  Quiet w key s s' ∨ ∃ place op, Reached w key s s' place op

/-- What a write is through with after one write has moved on: the same, except
in that write. -/
theorem finished_update {next : WriteProgress}
    (hwrites : s'.writes = Function.update s.writes i next) (h : w.Finished key s' place) :
    (place.1 ≠ i ∧ w.Finished key s place) ∨
      (place.1 = i ∧ w.Concerns key place ∧ (place.2 < next.start ∨ place.2 ∈ next.handled ∨
        (place.2 = next.start ∧ next.searched = true ∧ key ∉ next.found))) := by
  obtain ⟨hconcerns, h⟩ := h
  rw [hwrites] at h
  rcases Decidable.em (place.1 = i) with heq | hne
  · rw [heq, Function.update_self] at h
    exact .inr ⟨heq, hconcerns, h⟩
  · rw [Function.update_of_ne hne] at h
    exact .inl ⟨hne, hconcerns, h⟩

/-- What is to be removed after one write has moved on. -/
theorem found_update {next : WriteProgress} (hwrites : s'.writes = Function.update s.writes i next)
    {j : ℕ} (h : key ∈ (s'.writes j).found) :
    (key ∈ (s.writes j).found ∧ s'.writes j = s.writes j) ∨ (j = i ∧ key ∈ next.found) := by
  rw [hwrites] at h
  rcases Decidable.em (j = i) with rfl | hne
  · rw [Function.update_self] at h
    exact .inr ⟨rfl, h⟩
  · rw [Function.update_of_ne hne] at h
    exact .inl ⟨h, by rw [hwrites, Function.update_of_ne hne]⟩

/-- A write that moves on within its run and finds nothing new. -/
theorem kept_update {next : WriteProgress} (hwrites : s'.writes = Function.update s.writes i next)
    (hstart : next.start = (s.writes i).start)
    (hfound : key ∈ next.found → key ∈ (s.writes i).found) (j : ℕ) (h : key ∈ (s'.writes j).found) :
    key ∈ (s.writes j).found ∧ (s'.writes j).start = (s.writes j).start := by
  rcases found_update hwrites h with ⟨hold, hsame⟩ | ⟨rfl, hnew⟩
  · exact ⟨hold, by rw [hsame]⟩
  · exact ⟨hfound hnew, by rw [hwrites, Function.update_self, hstart]⟩

theorem onward_update {next : WriteProgress} (hloop : s'.loop = s.loop)
    (hwrites : s'.writes = Function.update s.writes i next)
    (hruns : runEnd (w.batch i) (s.writes i).start ≤ runEnd (w.batch i) next.start) :
    Onward w s s' := by
  refine ⟨by rw [hloop], fun j => ?_⟩
  rw [hwrites]
  rcases Decidable.em (j = i) with rfl | hne
  · rw [Function.update_self]
    exact hruns
  · rw [Function.update_of_ne hne]

/-- A write that moves on without bringing anything to a document. -/
theorem quiet_update {next : WriteProgress} (hwrites : s'.writes = Function.update s.writes i next)
    (hstore : s'.store key = s.store key) (hlog : s'.log key = s.log key)
    (htouched : ∀ place ∈ s.touched key, place ∈ s'.touched key)
    (hfinished : ∀ place, place.1 = i → w.Concerns key place →
      place.2 < next.start ∨ place.2 ∈ next.handled ∨
        (place.2 = next.start ∧ next.searched = true ∧ key ∉ next.found) →
      w.Finished key s place)
    (hfound : key ∈ next.found → (key ∈ (s.writes i).found ∧ next.start = (s.writes i).start) ∨
      ((i, next.start) ∈ s'.touched key ∧ ∃ op, w.opAt (i, next.start) = some op ∧
        op.key = none ∧ w.target.reaches op key (s.store key) = true)) : Quiet w key s s' := by
  refine ⟨hstore, hlog, htouched, fun place hplace => ?_, fun j hj => ?_⟩
  · rcases finished_update hwrites hplace with ⟨-, hold⟩ | ⟨heq, hconcerns, hnew⟩
    · exact hold
    · exact hfinished place heq hconcerns hnew
  · rcases found_update hwrites hj with ⟨hold, hsame⟩ | ⟨rfl, hnew⟩
    · exact .inl ⟨hold, by rw [hsame]⟩
    · rw [hwrites, Function.update_self]
      exact hfound hnew

/-- What a search for children does not hit, the cascade does not reach. -/
theorem mem_keys {doc : Json} (h : doc ∈ w.contents key) : key ∈ w.keys := by
  unfold contents at h
  unfold keys
  rcases List.mem_append.mp h with h | h
  · refine List.mem_append_left _ ?_
    have hsome : w.target.initial key ≠ none := by
      intro hnone
      rw [hnone] at h
      cases h
    obtain ⟨held, hheld⟩ := Option.ne_none_iff_exists'.mp hsome
    obtain ⟨pre, post, hsplit, -⟩ := List.lookup_eq_some_iff.mp hheld
    rw [hsplit]
    simp
  · refine List.mem_append_right _ ?_
    obtain ⟨op, hop, hleaves⟩ := List.mem_filterMap.mp h
    split at hleaves
    · next hkey => exact List.mem_filterMap.mpr ⟨op, hop, hkey⟩
    · cases hleaves

theorem conflict_of_not_mem_keys {op other : DocumentOp} (hkey : key ∉ w.keys)
    (hcascade : op.key = none) : w.conflict key op other = false := by
  have hnil : w.contents key = [] :=
    List.eq_nil_iff_forall_not_mem.mpr fun doc hdoc => hkey (mem_keys hdoc)
  unfold conflict
  rw [hcascade]
  cases other.key with
  | none => simp [hnil]
  | some own => simp [cascadeConflict, about, hcascade, hnil]

/-- A cascade's write is through with nothing behind the cascade. -/
theorem latest_of_cascade (hinv : WritesInv w s) (hrun : w.cascadeAt (i, (s.writes i).start) = true)
    {p : ℕ × ℕ} (hp : w.Finished key s p) (heq : p.1 = i) : p.2 ≤ (s.writes i).start := by
  obtain ⟨-, h⟩ := hp
  rw [heq] at h
  rcases h with h | h | h
  · exact le_of_lt h
  · have := hinv.handled i p.2 h
    rw [runEnd_of_cascade hrun] at this
    omega
  · exact le_of_eq h.1

section

variable (huniform : w.Uniform) (hinv : WritesInv w s) (hkeys : ∀ key, KeyInv w key s)

include huniform hinv hkeys

/-- **An operation of a bulk request reaches its document.** -/
theorem keyStep_land {i position : ℕ} {own : DocKey} (hop : w.opAt (i, position) = some op)
    (hown : op.key = some own) (hopens : s.opens i = true)
    (hturn : w.inTurn i (s.writes i) position own = true)
    (hordered : w.undisturbed own s (i, position) = true) (key : DocKey) :
    KeyStep w key s ((s.reach (i, position) own (w.target.actOn op own (s.store own))).progress i
      { s.writes i with handled := position :: (s.writes i).handled }) := by
  unfold inTurn at hturn
  simp only [Bool.and_eq_true, decide_eq_true_eq, List.all_eq_true, Bool.or_eq_true] at hturn
  obtain ⟨⟨hstart, hend⟩, hlast⟩ := hturn
  rcases Decidable.em (own = key) with rfl | hne
  · refine .inr ⟨(i, position), op, hop, .inr hown, (opens_spec hinv.loop hopens).1,
      ⟨hstart, hend⟩, ?_, Function.update_self .., Function.update_self .., hordered, ?_, ?_, ?_⟩
    · rw [← view_actOn huniform (mem_ops_of_opAt hop) ((hkeys own).good huniform)]
      exact congrArg _ (Function.update_self ..)
    · intro p hp
      rcases finished_update rfl hp with ⟨-, hold⟩ | ⟨heq, hconcerns, hnew⟩
      · exact .inl hold
      · have hfinished : w.Finished own s p ∨ p.2 = position := by
          rw [← heq] at hnew
          rcases hnew with hnew | hnew | hnew
          · exact .inl ⟨hconcerns, .inl hnew⟩
          · rcases List.mem_cons.mp hnew with hnew | hnew
            · exact .inr hnew
            · exact .inl ⟨hconcerns, .inr (.inl hnew)⟩
          · exact .inl ⟨hconcerns, .inr (.inr hnew)⟩
        exact hfinished.imp_right fun hposition => Prod.ext heq hposition
    · intro p ⟨⟨op', hop', hkey'⟩, hp⟩ heq
      have heq : p.1 = i := heq
      rw [heq] at hp
      rcases hp with hp | hp | hp
      · exact le_trans (le_of_lt hp) hstart
      · rcases hlast p.2 hp with hlt | hother
        · exact le_of_lt hlt
        · -- a cascade is not part of a bulk request
          rcases hkey' with hnone | hsome
          · have hcascade : w.cascadeAt (i, p.2) = true := by
              rw [← heq]
              exact (cascadeAt_iff hop').mpr hnone
            cases hrun : w.cascadeAt (i, (s.writes i).start) with
            | true =>
              have := hinv.handled i p.2 hp
              rw [runEnd_of_cascade hrun] at this
              exact le_trans (Nat.le_of_lt_succ this) hstart
            | false =>
              have := lt_start_of_cascade hrun hcascade (hinv.handled i p.2 hp)
              exact le_trans (le_of_lt this) hstart
          · have hp' : w.opAt (i, p.2) = some op' := heq ▸ hop'
            exact absurd (by rw [hp']; exact hsome) hother
      · exact le_of_eq_of_le hp.1 hstart
    · exact kept_update rfl rfl id
  · refine .inl (quiet_update rfl (Function.update_of_ne (Ne.symm hne) ..)
      (Function.update_of_ne (Ne.symm hne) ..) ?_ ?_ fun hfound => .inl ⟨hfound, rfl⟩)
    · intro place hplace
      have htouched : (s.reach (i, position) own (w.target.actOn op own (s.store own))).touched
          key = s.touched key := Function.update_of_ne (Ne.symm hne) ..
      exact htouched ▸ hplace
    · intro p heq hconcerns hnew
      refine ⟨hconcerns, ?_⟩
      rw [heq]
      rcases hnew with hnew | hnew | hnew
      · exact .inl hnew
      · rcases List.mem_cons.mp hnew with hnew | hnew
        · -- the new position is about another document
          obtain ⟨op', hop', hkey'⟩ := hconcerns
          have hp : p = (i, position) := Prod.ext heq hnew
          rw [hp, hop] at hop'
          rw [← Option.some.inj hop', hown] at hkey'
          rcases hkey' with hkey' | hkey'
          · cases hkey'
          · exact absurd (Option.some.inj hkey') hne
        · exact .inr (.inl hnew)
      · exact .inr (.inr hnew)

/-- **A cascade searches.** -/
theorem keyStep_search (hop : w.opAt (i, (s.writes i).start) = some op)
    (hcascade : op.isCascade = true) (hopens : s.opens i = true)
    (hordered : ∀ key ∈ w.keys, w.undisturbed key s (i, (s.writes i).start) = true) (key : DocKey) :
    KeyStep w key s (searched s (i, (s.writes i).start) (w.hits op s.store)) := by
  have hnone : op.key = none := key_eq_none_iff.mpr hcascade
  have hrun := (cascadeAt_iff hop).mpr hnone
  rcases Decidable.em (key ∈ w.hits op s.store) with hhit | hmiss
  · refine .inl (quiet_update rfl rfl (if_pos hhit) (fun _ h => List.mem_append_left _ h) ?_ ?_)
    · intro p heq hconcerns hnew
      refine ⟨hconcerns, ?_⟩
      rw [heq]
      rcases hnew with hnew | hnew | ⟨-, -, hnew⟩
      · exact .inl hnew
      · exact .inr (.inl hnew)
      · exact absurd (List.mem_append_right _ hhit) hnew
    · intro _
      refine .inr ⟨List.mem_append_right _ (List.mem_singleton.mpr rfl), op, hop, hnone, ?_⟩
      exact (List.mem_filter.mp hhit).2
  · have hreaches : w.target.reaches op key (w.view key (s.store key)) = false := by
      cases hr : w.target.reaches op key (w.view key (s.store key)) with
      | false => rfl
      | true =>
        have hr' : w.target.reaches op key (s.store key) = true := by
          rwa [reaches_congr (content_view _)] at hr
        unfold VersionedTarget.reaches at hr
        rw [hnone] at hr
        obtain ⟨doc, hdoc, -⟩ := (Option.any_eq_true _ _).mp hr
        have hmem := mem_keys (((hkeys key).good huniform).content doc hdoc)
        exact absurd (List.mem_filter.mpr ⟨hmem, hr'⟩) hmiss
    refine .inr ⟨(i, (s.writes i).start), op, hop, .inl hnone,
      (opens_spec hinv.loop hopens).1, ⟨le_refl _, ?_⟩, ?_, if_neg hmiss, rfl, ?_, ?_, ?_, ?_⟩
    · rw [runEnd_of_cascade hrun]
      exact Nat.lt_succ_self _
    · rw [act_eq huniform (mem_ops_of_opAt hop) ((hkeys key).good huniform), hreaches]
      rfl
    · rcases Decidable.em (key ∈ w.keys) with hmem | hmem
      · exact hordered key hmem
      · refine List.all_eq_true.mpr fun other _ => ?_
        have : w.conflictAt key (i, (s.writes i).start) other = false := by
          unfold conflictAt
          rw [hop]
          cases w.opAt other with
          | none => rfl
          | some op' => exact conflict_of_not_mem_keys hmem hnone
        simp [this]
    · intro p hp
      rcases finished_update rfl hp with ⟨-, hold⟩ | ⟨heq, hconcerns, hnew⟩
      · exact .inl hold
      · rw [← heq] at hnew
        rcases hnew with hnew | hnew | ⟨hnew, -⟩
        · exact .inl ⟨hconcerns, .inl hnew⟩
        · exact .inl ⟨hconcerns, .inr (.inl hnew)⟩
        · rw [heq] at hnew
          exact .inr (Prod.ext heq hnew)
    · exact fun p hp heq => latest_of_cascade hinv hrun hp heq
    · refine kept_update rfl rfl fun hnew => ?_
      rcases List.mem_append.mp hnew with hnew | hnew
      · exact hnew
      · exact absurd hnew hmiss

/-- **A cascade removes a document it found.** -/
theorem keyStep_strike {own : DocKey} (hop : w.opAt (i, (s.writes i).start) = some op)
    (hopens : s.opens i = true) (hfound : own ∈ (s.writes i).found)
    (hordered : w.undisturbed own s (i, (s.writes i).start) = true) (key : DocKey) :
    KeyStep w key s ((s.reach (i, (s.writes i).start) own
        (writeSlot op.rank (w.target.leaves op) (s.store own))).progress i
      { s.writes i with found := (s.writes i).found.filter (· ≠ own) }) := by
  obtain ⟨op', hpending⟩ := (hkeys own).pending i hfound
  have hsame : op' = op := Option.some.inj (hpending.opAt.symm.trans hop)
  subst hsame
  have hrun := (cascadeAt_iff hop).mpr hpending.cascade
  rcases Decidable.em (own = key) with rfl | hne
  · refine .inr ⟨(i, (s.writes i).start), op', hop, .inl hpending.cascade,
      (opens_spec hinv.loop hopens).1, ⟨le_refl _, ?_⟩, ?_, Function.update_self ..,
      Function.update_self .., hordered, ?_, ?_, ?_⟩
    · rw [runEnd_of_cascade hrun]
      exact Nat.lt_succ_self _
    · have hview : w.view own (writeSlot op'.rank (w.target.leaves op') (s.store own)) =
          w.act own op' (w.view own (s.store own)) := by
        rw [leaves_of_cascade hpending.cascade,
          view_writeSlot (rank_of_about huniform (mem_ops_of_opAt hop) hpending.about)]
        rcases hpending.strike with hstrike | ⟨other, hother, hlt, hconflict⟩
        · exact hstrike
        · rw [undisturbed_spec hordered hother hlt] at hconflict
          cases hconflict
      rw [← hview]
      exact congrArg _ (Function.update_self ..)
    · intro p hp
      rcases finished_update rfl hp with ⟨-, hold⟩ | ⟨heq, hconcerns, hnew⟩
      · exact .inl hold
      · rw [← heq] at hnew
        rcases hnew with hnew | hnew | ⟨hnew, -⟩
        · exact .inl ⟨hconcerns, .inl hnew⟩
        · exact .inl ⟨hconcerns, .inr (.inl hnew)⟩
        · rw [heq] at hnew
          exact .inr (Prod.ext heq hnew)
    · exact fun p hp heq => latest_of_cascade hinv hrun hp heq
    · exact kept_update rfl rfl fun hnew => (List.mem_filter.mp hnew).1
  · refine .inl (quiet_update rfl (Function.update_of_ne (Ne.symm hne) ..)
      (Function.update_of_ne (Ne.symm hne) ..) ?_ ?_ fun hnew =>
        .inl ⟨(List.mem_filter.mp hnew).1, rfl⟩)
    · intro place hplace
      have htouched : (s.reach (i, (s.writes i).start) own
          (writeSlot op'.rank (w.target.leaves op') (s.store own))).touched key = s.touched key :=
        Function.update_of_ne (Ne.symm hne) ..
      exact htouched ▸ hplace
    · intro p heq hconcerns hnew
      refine ⟨hconcerns, ?_⟩
      rw [heq]
      rcases hnew with hnew | hnew | ⟨hstart, hsearched, hnew⟩
      · exact .inl hnew
      · exact .inr (.inl hnew)
      · refine .inr (.inr ⟨hstart, hsearched, fun hold => hnew ?_⟩)
        exact List.mem_filter.mpr ⟨hold, by simpa using Ne.symm hne⟩

omit huniform hinv hkeys in
/-- **A write goes on to its next run.** Everything of the run it leaves it is
through with. -/
theorem keyStep_advance (hdone : w.runDone i (s.writes i) = true) (key : DocKey) :
    KeyStep w key s (s.progress i (.at_ (runEnd (w.batch i) (s.writes i).start))) := by
  refine .inl (quiet_update rfl rfl rfl (fun _ h => h) ?_ fun hnew => by cases hnew)
  intro p heq hconcerns hnew
  refine ⟨hconcerns, ?_⟩
  rw [heq]
  rcases hnew with hnew | hnew | ⟨-, hnew, -⟩
  · have hnew : p.2 < runEnd (w.batch i) (s.writes i).start := hnew
    rcases Nat.lt_or_ge p.2 (s.writes i).start with hlt | hge
    · exact .inl hlt
    · unfold runDone at hdone
      split at hdone
      · cases hdone
      · next op hop =>
        split at hdone
        · next hcascade =>
          simp only [Bool.and_eq_true, decide_eq_true_eq] at hdone
          have hrun := (cascadeAt_iff hop).mpr (key_eq_none_iff.mpr hcascade)
          rw [runEnd_of_cascade hrun] at hnew
          exact .inr (.inr ⟨by omega, hdone.1, by simp [hdone.2]⟩)
        · have hmem := List.all_eq_true.mp hdone p.2
            (List.mem_range'_1.mpr ⟨hge, by omega⟩)
          exact .inr (.inl (of_decide_eq_true hmem))
  · cases hnew
  · cases hnew

end

/-! ## Runs of the system -/

/-- What the system keeps. -/
structure ConcurrencyInv (w : Workload) (s : ConcurrentState) : Prop where
  /-- of the loop and its writes -/
  writes : WritesInv w s
  /-- of each document -/
  keys : ∀ key, KeyInv w key s

theorem concurrencyInv_start : ConcurrencyInv w w.start := by
  refine ⟨writesInv_start, fun key => ?_⟩
  refine ⟨?_, ?_, ?_, ?_, List.Pairwise.nil, ?_, rfl, ?_⟩
  · intro place h
    cases h
  · intro place h
    cases h
  · intro place h
    cases h
  · intro place h
    cases h
  · rintro place ⟨-, h | h | h⟩
    · exact absurd h (Nat.not_lt_zero _)
    · cases h
    · cases h.2.1
  · intro i h
    cases h

theorem ConcurrencyInv.next (huniform : w.Uniform) (hinv : ConcurrencyInv w s)
    (hwrites : WritesInv w s') (honward : Onward w s s') (hkeys : ∀ key, KeyStep w key s s') :
    ConcurrencyInv w s' := by
  refine ⟨hwrites, fun key => ?_⟩
  rcases hkeys key with hquiet | ⟨place, op, hreached⟩
  · exact (hinv.keys key).quiet huniform honward hquiet
  · exact (hinv.keys key).reached huniform honward hreached

/-- **The step lemma.** -/
theorem ConcurrencyInv.step (huniform : w.Uniform) (hinv : ConcurrencyInv w s)
    {action : ConcurrentAction} (hordered : w.ordered s action = true)
    (hstep : w.step loop s action = some s') : ConcurrencyInv w s' := by
  have hwrites := hinv.writes
  cases action with
  | loop action =>
    simp only [Workload.step] at hstep
    split at hstep
    · next hpermits =>
      obtain ⟨next, hnext, rfl⟩ := Option.map_eq_some_iff.mp hstep
      refine hinv.next huniform (hwrites.loop_step hpermits hnext) ⟨?_, fun i => le_refl _⟩
        fun key => .inl ⟨rfl, rfl, fun _ h => h, fun _ h => h, fun i h => .inl ⟨h, rfl⟩⟩
      obtain ⟨htaken | ⟨command, -, htaken⟩, -⟩ := SinkLoop.step_history hnext
      · exact le_of_eq (congrArg List.length htaken.symm)
      · simp [htaken]
    · cases hstep
  | land i position =>
    simp only [Workload.step] at hstep
    split at hstep
    · cases hstep
    · next op hop =>
      split at hstep
      · cases hstep
      · next own hown =>
        split at hstep
        · next hgoes =>
          obtain ⟨hopens, hturn⟩ := Bool.and_eq_true_iff.mp hgoes
          injection hstep with hstep
          rw [← hstep]
          have hundisturbed : w.undisturbed own s (i, position) = true := by
            simpa [ordered, hop, hown] using hordered
          refine hinv.next huniform ?_ (onward_update rfl rfl (le_refl _))
            (keyStep_land huniform hwrites hinv.keys hop hown hopens hturn hundisturbed)
          refine hwrites.progress hopens rfl rfl (hwrites.inside i) ?_ (hwrites.searched i)
          intro q hq
          rcases List.mem_cons.mp hq with rfl | hq
          · simp only [inTurn, Bool.and_eq_true, decide_eq_true_eq] at hturn
            exact hturn.1.2
          · exact hwrites.handled i q hq
        · cases hstep
  | retry i =>
    simp only [Workload.step] at hstep
    split at hstep
    · next hopens =>
      injection hstep with hstep
      rw [← hstep]
      refine hinv.next huniform ?_ (onward_update rfl rfl (le_refl _)) fun key => .inl ?_
      · exact hwrites.progress hopens rfl rfl (hwrites.inside i) (fun q hq => by cases hq)
          (hwrites.searched i)
      · refine quiet_update rfl rfl rfl (fun _ h => h) ?_ fun h => .inl ⟨h, rfl⟩
        intro p heq hconcerns hnew
        refine ⟨hconcerns, ?_⟩
        rw [heq]
        rcases hnew with hnew | hnew | hnew
        · exact .inl hnew
        · cases hnew
        · exact .inr (.inr hnew)
    · cases hstep
  | search i =>
    simp only [Workload.step] at hstep
    split at hstep
    · cases hstep
    · next op hop =>
      split at hstep
      · next hgoes =>
        obtain ⟨hopens, hcascade⟩ := Bool.and_eq_true_iff.mp hgoes
        injection hstep with hstep
        rw [← hstep]
        refine hinv.next huniform ?_ (onward_update rfl rfl (le_refl _))
          (keyStep_search huniform hwrites hinv.keys hop hcascade hopens
            (List.all_eq_true.mp hordered))
        refine hwrites.progress hopens rfl rfl (hwrites.inside i) (hwrites.handled i) fun _ => ?_
        exact (cascadeAt_iff hop).mpr (key_eq_none_iff.mpr hcascade)
      · cases hstep
  | strike i key =>
    simp only [Workload.step] at hstep
    split at hstep
    · cases hstep
    · next op hop =>
      split at hstep
      · next hgoes =>
        simp only [Bool.and_eq_true, decide_eq_true_eq] at hgoes
        injection hstep with hstep
        rw [← hstep]
        exact hinv.next huniform
          (hwrites.progress hgoes.1 rfl rfl (hwrites.inside i) (hwrites.handled i)
            (hwrites.searched i)) (onward_update rfl rfl (le_refl _))
          (keyStep_strike huniform hwrites hinv.keys hop hgoes.1 hgoes.2 hordered)
      · cases hstep
  | advance i =>
    simp only [Workload.step] at hstep
    split at hstep
    · next hgoes =>
      obtain ⟨hopens, hdone⟩ := Bool.and_eq_true_iff.mp hgoes
      injection hstep with hstep
      rw [← hstep]
      exact hinv.next huniform
        (hwrites.progress hopens rfl rfl (runEnd_le (hwrites.inside i))
          (fun q hq => by cases hq) (fun h => by cases h))
        (onward_update rfl rfl (le_runEnd _ _)) (keyStep_advance hdone)
    · cases hstep

/-- **The run lemma.** -/
theorem concurrencyInv_of_reach (huniform : w.Uniform)
    (h : (w.system loop).ReachUnder (fun s a => w.ordered s a = true) s) : ConcurrencyInv w s :=
  h.invariant (fun _ hs => hs ▸ concurrencyInv_start)
    fun _ _ _ hinv hordered hstep => hinv.step huniform hordered hstep

end Workload

end Pg2osync
