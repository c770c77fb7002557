import Mathlib.Data.List.Pairwise
import Pg2osync.ConcurrencyInvariant

/-!
# Open writes leave what one write at a time would

Whenever nothing is open, every document is what writing the batches one after
another would have made of it, as long as no operation reached a document behind
a conflicting one of a later batch. The log of a document is taken apart with the
two facts about interleaved operations: only the last arrival of an operation
counts, and what arrived in another order commutes.
-/

namespace Pg2osync

namespace Workload

open Interleave

variable {w : Workload} {key : DocKey} {loop : SinkLoop} {s : ConcurrentState}

/-! ## One write at a time -/

/-- The places of the first `n` batches, in order. -/
def places (w : Workload) (n : ℕ) : List (ℕ × ℕ) :=
  (List.range n).flatMap fun i => (List.range (w.batch i).length).map fun p => (i, p)

variable {place : ℕ × ℕ}

theorem mem_places {n : ℕ} :
    place ∈ w.places n ↔ place.1 < n ∧ place.2 < (w.batch place.1).length := by
  obtain ⟨i, p⟩ := place
  simp [places]

theorem places_succ (n : ℕ) :
    w.places (n + 1) =
      w.places n ++ (List.range (w.batch n).length).map fun p => (n, p) := by
  simp [places, List.range_succ]

/-- One place comes before another. -/
def Before (a b : ℕ × ℕ) : Prop :=
  a.1 < b.1 ∨ (a.1 = b.1 ∧ a.2 < b.2)

theorem places_sorted (n : ℕ) : (w.places n).Pairwise Before := by
  induction n with
  | zero => exact List.Pairwise.nil
  | succ n ih =>
    rw [places_succ]
    refine List.pairwise_append.mpr ⟨ih, ?_, fun a ha b hb => Or.inl ?_⟩
    · exact List.pairwise_map.mpr (List.pairwise_lt_range.imp fun h => Or.inr ⟨rfl, h⟩)
    · obtain ⟨p, -, rfl⟩ := List.mem_map.mp hb
      exact (mem_places.mp ha).1

theorem places_nodup (n : ℕ) : (w.places n).Nodup :=
  (places_sorted n).imp fun {a b} h heq => by
    rw [heq] at h
    rcases h with h | ⟨-, h⟩
    · exact Nat.lt_irrefl _ h
    · exact Nat.lt_irrefl _ h

theorem foldl_write (items : List LsnOp) (store : DocKey → Slot) :
    items.foldl (write w.target) store key =
      items.foldl (fun s item => w.target.actOn item.op key s) (store key) := by
  induction items generalizing store with
  | nil => rfl
  | cons item items ih => exact ih _

theorem sequential_succ {n : ℕ} (h : n < w.batches.length) :
    w.sequential (n + 1) key =
      (w.batch n).foldl (fun s item => w.target.actOn item.op key s) (w.sequential n key) := by
  have hbatch : w.batch n = w.batches[n] := by simp [batch, h]
  unfold sequential
  rw [List.take_succ_eq_append_getElem h, List.flatten_append, List.foldl_append, foldl_write,
    hbatch]
  simp

section

variable (huniform : w.Uniform)

include huniform

/-- A batch, an operation at a time from its end. -/
theorem run_batch {v : Slot} (hv : w.Good key (w.view key v)) (n m : ℕ)
    (hm : m ≤ (w.batch n).length) :
    run (w.actAt key) ((List.range m).map fun p => (n, p)) (w.view key v) =
      w.view key
        (((w.batch n).take m).foldl (fun s item => w.target.actOn item.op key s) v) := by
  induction m with
  | zero => rfl
  | succ m ih =>
    have hlt : m < (w.batch n).length := hm
    have hbefore := ih (Nat.le_of_lt hlt)
    have hop : w.opAt (n, m) = some (w.batch n)[m].op := by simp [opAt, hlt]
    rw [List.range_succ, List.map_append, run_append, hbefore,
      List.take_succ_eq_append_getElem hlt, List.foldl_append]
    have hgood : w.Good key (w.view key
        (((w.batch n).take m).foldl (fun s item => w.target.actOn item.op key s) v)) := by
      rw [← hbefore]
      exact good_run (good_actAt huniform) _ hv
    simp only [List.map_cons, List.map_nil, run_cons, run_nil, actAt, hop,
      List.foldl_cons, List.foldl_nil]
    rw [view_actOn huniform (mem_ops_of_opAt hop) hgood]

/-- **Running the places in order is writing one batch at a time.** -/
theorem run_places {n : ℕ} (hn : n ≤ w.batches.length) :
    run (w.actAt key) (w.places n) (w.view key (w.target.initial key)) =
      w.view key (w.sequential n key) := by
  induction n with
  | zero => rfl
  | succ n ih =>
    have hbefore := ih (Nat.le_of_lt hn)
    have hgood : w.Good key (w.view key (w.sequential n key)) := by
      rw [← hbefore]
      exact good_run (good_actAt huniform) _ good_initial
    rw [places_succ, run_append, hbefore, run_batch huniform hgood n _ (le_refl _),
      List.take_length, sequential_succ hn]

/-! ## The log -/

/-- Places that do not conflict commute. -/
theorem commutes_at {a b : ℕ × ℕ} (ha : w.Concerns key a) (hb : w.Concerns key b)
    (h : w.conflictAt key a b = false) :
    Interleave.Commutes (w.actAt key) (w.Good key) a b := by
  obtain ⟨op, hop, hkey⟩ := ha
  obtain ⟨other, hother, hkey'⟩ := hb
  intro v hv
  rw [conflictAt_eq hop hother] at h
  simp only [actAt, hop, hother]
  exact act_comm huniform (mem_ops_of_opAt hop) (mem_ops_of_opAt hother) hkey hkey' h hv

theorem actAt_self (place : ℕ × ℕ) (v : Slot) (hv : w.Good key v) :
    w.actAt key place (w.actAt key place v) = w.actAt key place v := by
  unfold actAt
  split
  · next op hop => exact act_self huniform (mem_ops_of_opAt hop) hv
  · rfl

/-- An operation that reached a document twice covers what reached it in between:
what is of its own run are writes of the same document, anything else does not
conflict with it. -/
theorem covers_between (hinv : KeyInv w key s) {pre mid post : List (ℕ × ℕ)}
    (hlog : s.log key = pre ++ place :: (mid ++ place :: post)) {m : ℕ × ℕ} (hm : m ∈ mid) :
    Interleave.Covers (w.actAt key) (w.Good key) place m := by
  have hpair := hinv.inOrder
  rw [hlog] at hpair
  obtain ⟨hfirst, hrest⟩ := List.pairwise_cons.mp (List.pairwise_append.mp hpair).2.1
  have hbefore : w.InOrder key place m := hfirst m (List.mem_append_left _ hm)
  have hafter : w.InOrder key m place :=
    (List.pairwise_append.mp hrest).2.2 m hm place List.mem_cons_self
  have hplace : w.Concerns key place := hinv.concerns place (by rw [hlog]; simp)
  have hmid : w.Concerns key m := hinv.concerns m (by rw [hlog]; simp [hm])
  rcases Nat.lt_trichotomy m.1 place.1 with hlt | heq | hgt
  · exact covers_of_commutes (commutes_at huniform hplace hmid (hbefore.batches hlt))
  · obtain ⟨op, hop, hkey⟩ := hplace
    obtain ⟨other, hother, hkey'⟩ := hmid
    rcases Decidable.em (w.cascadeAt place = true ∨ w.cascadeAt m = true) with hcascade | hwrites
    · -- the cascade itself, which searched again
      have h₁ := hbefore.runs heq.symm hcascade
      have h₂ := hafter.runs heq hcascade.symm
      have hsame : m = place := Prod.ext heq (by omega)
      rw [hsame]
      exact fun v v' _ _ h => by rw [h]
    · rw [not_or, cascadeAt_iff hop, cascadeAt_iff hother] at hwrites
      have hown := hkey.resolve_left hwrites.1
      have hown' := hkey'.resolve_left hwrites.2
      intro v v' hv hv' h
      simp only [actAt, hop, hother] at h ⊢
      exact act_absorb huniform (mem_ops_of_opAt hop) (mem_ops_of_opAt hother) hown hown' hv hv' h
  · have hno := hafter.batches hgt
    rw [conflictAt_symm] at hno
    exact covers_of_commutes (commutes_at huniform hplace hmid hno)

omit huniform in
/-- Whenever nothing is open, every write taken is at the end of its batch. -/
theorem start_of_idle (hinv : WritesInv w s) (hlive : s.loop.phase.live = true)
    (hidle : s.loop.inflight = []) {i : ℕ} (hi : i < s.loop.taken.length) :
    (s.writes i).start = (w.batch i).length := by
  obtain ⟨batch, hbatch⟩ : ∃ batch, s.loop.taken[i]? = some (.write batch) := by
    rw [hinv.taken, List.getElem?_map, List.getElem?_take_of_lt hi]
    have hlen : i < w.batches.length := by
      have := congrArg List.length hinv.taken
      rw [List.length_map, List.length_take] at this
      omega
    exact ⟨w.batches[i], by simp [hlen]⟩
  rcases hinv.loop.accounted hlive i batch hbatch with ⟨open_, hopen, -⟩ | ⟨ack, hdone, -⟩
  · rw [hidle] at hopen
    cases hopen
  · exact hinv.ended i ack hdone

/-- What was kept of the log in another order than the batches' commutes. -/
theorem commutes_of_inverted (hinv : KeyInv w key s)
    (hend : ∀ i < s.loop.taken.length, (s.writes i).start = (w.batch i).length)
    {a b : ℕ × ℕ} (hab : [a, b].Sublist (s.log key).dedup) (h : Before b a) :
    Interleave.Commutes (w.actAt key) (w.Good key) a b := by
  have hsub := hab.trans (List.dedup_sublist _)
  have ha : a ∈ s.log key := hsub.subset (by simp)
  have hb : b ∈ s.log key := hsub.subset (by simp)
  rcases h with hlt | ⟨heq, hlt⟩
  · have hpair := hinv.inOrder.sublist hsub
    have hinorder : w.InOrder key a b := (List.pairwise_cons.mp hpair).1 b (by simp)
    exact commutes_at huniform (hinv.concerns a ha) (hinv.concerns b hb) (hinorder.batches hlt)
  · -- of one batch the last arrivals are in order
    obtain ⟨pre, post, hlog, hlast⟩ := last_of_dedup hab
    have hconcerns := hinv.concerns a ha
    obtain ⟨op, hop, -⟩ := id hconcerns
    have hfinished : w.Finished key s a := by
      refine ⟨hconcerns, Or.inl ?_⟩
      rw [hend a.1 (hinv.taken a ha)]
      exact lt_length_of_opAt hop
    have hsplit : s.log key = pre ++ (a.1, b.2) :: post := by rw [hlog, ← heq]
    exact absurd ((hinv.finished a hfinished).2 b.2 hlt pre post hsplit) hlast

/-- A place whose operation did not reach a document leaves it alone. -/
theorem actAt_of_not_logged (hinv : KeyInv w key s)
    (hend : ∀ i < s.loop.taken.length, (s.writes i).start = (w.batch i).length)
    (hplace : place ∈ w.places s.loop.taken.length) (h : place ∉ s.log key) (v : Slot)
    (hv : w.Good key v) : w.actAt key place v = v := by
  obtain ⟨htaken, hlt⟩ := mem_places.mp hplace
  unfold actAt
  split
  · next op hop =>
    have hnot : ¬ w.Concerns key place := fun hconcerns =>
      h (hinv.finished place ⟨hconcerns, Or.inl (by rw [hend _ htaken]; exact hlt)⟩).1
    refine act_of_not_about huniform (mem_ops_of_opAt hop) ?_ hv
    cases hkey : op.key with
    | none => exact absurd ⟨op, hop, Or.inl hkey⟩ hnot
    | some own =>
      have hne : own ≠ key := fun heq => hnot ⟨op, hop, Or.inr (heq ▸ hkey)⟩
      simp [about, hkey, hne]
  · rfl

/-- **What open writes leave, whenever none is open.** -/
theorem view_of_idle (hinv : ConcurrencyInv w s) (hlive : s.loop.phase.live = true)
    (hidle : s.loop.inflight = []) (key : DocKey) :
    w.view key (s.store key) = w.view key (w.sequential s.loop.taken.length key) := by
  have hkey := hinv.keys key
  have hend : ∀ i < s.loop.taken.length, (s.writes i).start = (w.batch i).length :=
    fun i hi => start_of_idle hinv.writes hlive hidle hi
  have hlen : s.loop.taken.length ≤ w.batches.length := by
    have := congrArg List.length hinv.writes.taken
    rw [List.length_map, List.length_take] at this
    omega
  have hgood := @good_actAt w key huniform
  -- the log without repetitions and the places that are logged are the same
  have hperm : (s.log key).dedup.Perm
      ((w.places s.loop.taken.length).filter (· ∈ s.log key)) := by
    refine (List.perm_ext_iff_of_nodup (List.nodup_dedup _)
      ((places_nodup _).filter _)).mpr fun place => ?_
    rw [List.mem_dedup, List.mem_filter, decide_eq_true_eq]
    refine ⟨fun hplace => ⟨mem_places.mpr ⟨hkey.taken place hplace, ?_⟩, hplace⟩, And.right⟩
    obtain ⟨op, hop, -⟩ := hkey.concerns place hplace
    exact lt_length_of_opAt hop
  calc w.view key (s.store key)
      = run (w.actAt key) (s.log key) (w.view key (w.target.initial key)) :=
        hkey.stored
    _ = run (w.actAt key) (s.log key).dedup (w.view key (w.target.initial key)) :=
        (run_dedup hgood (actAt_self huniform)
          (fun pre place mid post hlog m hm => covers_between huniform hkey hlog hm)
          good_initial).symm
    _ = run (w.actAt key) ((w.places s.loop.taken.length).filter (· ∈ s.log key))
          (w.view key (w.target.initial key)) :=
        run_eq_of_perm hgood hperm ((places_sorted _).filter _)
          (fun a b hab h => commutes_of_inverted huniform hkey hend hab h) good_initial
    _ = run (w.actAt key) (w.places s.loop.taken.length)
          (w.view key (w.target.initial key)) :=
        run_filter hgood (fun place hplace hnot =>
          actAt_of_not_logged huniform hkey hend hplace (by simpa using hnot)) good_initial
    _ = w.view key (w.sequential s.loop.taken.length key) := run_places huniform hlen

/-- **Open writes leave what one write at a time would.** In every run whose
steps bring no operation to a document behind a conflicting one of a later batch,
whenever nothing is open the target holds what the batches taken so far make of
it one after another: the same documents, and under every key whose operations
have versions the same version with them. -/
theorem openWrites_sequential
    (h : (w.system loop).ReachUnder (fun s a => w.ordered s a = true) s)
    (hlive : s.loop.phase.live = true) (hidle : s.loop.inflight = []) (key : DocKey) :
    Slot.content (s.store key) = Slot.content (w.sequential s.loop.taken.length key) ∧
      (w.versioned key = true → s.store key = w.sequential s.loop.taken.length key) := by
  have hview := view_of_idle huniform (concurrencyInv_of_reach huniform h) hlive hidle key
  refine ⟨?_, fun hversioned => ?_⟩
  · rw [← @content_view w key (s.store key), hview, content_view]
  · simpa [view, hversioned] using hview

end

/-! ## Two writes of one document -/

/-- A document with one field. -/
def named (name : String) : Json :=
  .obj [("name", .str name)]

/-- Two batches that each write the document `t/1`, at a version each. -/
def twoVersions (first second : ℕ) : Workload where
  target := ⟨fun _ doc => doc, fun _ _ _ => none, []⟩
  batches := [[⟨first, .upsert "t" "1" none (named "old") (some first) none⟩],
    [⟨second, .upsert "t" "1" none (named "new") (some second) none⟩]]

/-- Both are open and the second one lands first; the first one is sent again
after its request has already reached the document. -/
def crossing (first second : ℕ) : List ConcurrentAction :=
  [.loop (.start (.ok 0)),
    .loop (.receive (.write [⟨first, .upsert "t" "1" none (named "old") (some first) none⟩])),
    .loop (.receive (.write [⟨second, .upsert "t" "1" none (named "new") (some second) none⟩])),
    .land 1 0, .advance 1, .land 0 0, .retry 0, .land 0 0, .advance 0,
    .loop (.complete 1 (.finished (.ok (SinkAck.written second)))),
    .loop (.complete 0 (.finished (.ok (SinkAck.written first)))),
    .loop (.account (.ok ())), .loop (.account (.ok ()))]

theorem twoVersions_uniform {first second : ℕ}
    (h : ∀ op ∈ (twoVersions first second).ops, op.rank.isSome = true) :
    (twoVersions first second).Uniform :=
  fun key => Or.inl (List.all_eq_true.mpr fun op hop => by rw [h op hop, Bool.or_true])

/-- Of two versions the newer stays, whichever lands last. -/
theorem crossing_sequential :
    ∃ s, ((twoVersions 5 6).system ⟨.halt, 0, 2⟩).runUnder (twoVersions 5 6).ordered
        (twoVersions 5 6).start (crossing 5 6) = some s ∧
      Slot.content (s.store ⟨"t", "1", none⟩) =
        Slot.content ((twoVersions 5 6).sequential 2 ⟨"t", "1", none⟩) := by
  refine ⟨_, rfl, ?_⟩
  have hstart : ((twoVersions 5 6).system ⟨.halt, 0, 2⟩).ReachUnder
      (fun s a => (twoVersions 5 6).ordered s a = true) (twoVersions 5 6).start := .initial rfl
  have hreach := @Transition.System.ReachUnder.of_runUnder _ _ _ _ _ _ hstart (crossing 5 6) rfl
  exact (openWrites_sequential (twoVersions_uniform (by decide)) hreach rfl rfl
    ⟨"t", "1", none⟩).1

/-- Of one version, as in a transaction that was split, the one that lands last
stays: the document is what the first piece made of it. -/
theorem crossing_not_sequential :
    ∃ s, ((twoVersions 5 5).system ⟨.halt, 0, 2⟩).run (twoVersions 5 5).start (crossing 5 5) =
        some s ∧
      s.loop.phase.live = true ∧ s.loop.inflight = [] ∧ s.loop.taken.length = 2 ∧
      Slot.content (s.store ⟨"t", "1", none⟩) = some (named "old") ∧
      Slot.content ((twoVersions 5 5).sequential 2 ⟨"t", "1", none⟩) = some (named "new") :=
  ⟨_, rfl, rfl, rfl, rfl, rfl, rfl⟩

end Workload

end Pg2osync
