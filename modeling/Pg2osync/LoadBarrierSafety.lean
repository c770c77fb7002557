import Pg2osync.LoadBarrier
import Pg2osync.MarkOrder

/-!
# Progress never runs ahead of the data

The ranges first: cut at sorted boundaries, each key falls into exactly one. Then the
runs. What an attempt knows to be written only grows, since an attempt that is over is
over with what it has written; a range is read anew only if it is not recorded as done;
and a wave is recorded when a mark behind its rows has been reported.
-/

namespace Pg2osync

open Pipeline LoadProgress

/-! ## The ranges -/

/-- The boundary below a range. -/
def lowerBound (bounds : List String) : ℕ → Option String
  | 0 => none
  | r + 1 => bounds[r]?

theorem getElem?_rangesFromBounds (bounds : List String) (r : ℕ) :
    (rangesFromBounds bounds)[r]? =
      if r ≤ bounds.length then some ⟨lowerBound bounds r, bounds[r]?⟩ else none := by
  cases bounds with
  | nil => cases r <;> rfl
  | cons b rest =>
    cases r with
    | zero => rfl
    | succ r =>
      rw [rangesFromBounds, List.cons_append, List.getElem?_cons_succ, List.length_cons]
      have hlength : (List.zipWith (fun lo hi => KeyRange.mk (some lo) (some hi)) (b :: rest)
          rest).length = rest.length := by simp
      obtain hlt | rfl | hgt := Nat.lt_trichotomy r rest.length
      · rw [List.getElem?_append_left (hlength ▸ hlt), if_pos (Nat.succ_le_succ hlt.le), lowerBound,
          List.getElem?_zipWith, List.getElem?_cons_succ,
          List.getElem?_eq_getElem (Nat.lt_succ_of_lt hlt : r < (b :: rest).length),
          List.getElem?_eq_getElem hlt]
      · rw [List.getElem?_append_right (hlength ▸ le_rfl), hlength, Nat.sub_self, if_pos le_rfl,
          lowerBound, List.getElem?_cons_succ, List.getElem?_eq_none le_rfl, List.getLast_eq_getElem]
        simp
      · rw [if_neg (by omega), List.getElem?_eq_none]
        rw [List.length_append, hlength, List.length_singleton]
        omega

namespace LoadTable

variable {κ ρ : Type} [LinearOrder κ] {t : LoadTable κ ρ} {bounds : List String}

/-- A key is in a range: not below its lower boundary, and below the upper one. -/
theorem inRange_iff {key : κ} {r : ℕ} :
    t.InRange bounds key r ↔ r ≤ bounds.length ∧
      (∀ lo ∈ lowerBound bounds r, t.meaning lo ≤ key) ∧ ∀ hi ∈ bounds[r]?, key < t.meaning hi := by
  rw [InRange, getElem?_rangesFromBounds]
  split
  · next hle =>
    simp only [Option.mem_def, Option.some.injEq, exists_eq_left', KeyRange.holds, Bool.and_eq_true,
      Option.all_eq_true, decide_eq_true_eq, hle, true_and]
  · next hgt => simp [hgt]

/-- Of two ranges cut at sorted boundaries, the upper one is above the lower. -/
theorem InRange.unique (hsorted : (bounds.map t.meaning).Pairwise (· ≤ ·)) {key : κ} {r r' : ℕ}
    (h : t.InRange bounds key r) (h' : t.InRange bounds key r') : ¬ r < r' := by
  intro hlt
  obtain ⟨-, -, hbelow⟩ := inRange_iff.mp h
  obtain ⟨hle, habove, -⟩ := inRange_iff.mp h'
  obtain ⟨lower, rfl⟩ := Nat.exists_eq_succ_of_ne_zero (Nat.ne_zero_of_lt hlt)
  have hr : r < bounds.length := by omega
  have hlower : lower < bounds.length := by omega
  have hfirst := hbelow bounds[r] (List.getElem?_eq_getElem hr)
  have hsecond := habove bounds[lower] (List.getElem?_eq_getElem hlower)
  have hbetween : t.meaning bounds[r] ≤ t.meaning bounds[lower] := by
    obtain heq | hless := Nat.eq_or_lt_of_le (Nat.lt_succ_iff.mp hlt)
    · simp only [heq, le_refl]
    · have hpair := List.pairwise_iff_getElem.mp hsorted r lower (by rwa [List.length_map])
        (by rwa [List.length_map]) hless
      rwa [List.getElem_map, List.getElem_map] at hpair
  exact absurd (hfirst.trans_le hbetween) (not_lt.mpr hsecond)

/-- **Sorted boundaries partition the keys.** -/
theorem partitions (hsorted : (bounds.map t.meaning).Pairwise (· ≤ ·)) : t.Partitions bounds := by
  intro key
  obtain ⟨range, hmem, hholds⟩ := exists_range t.meaning key bounds
  obtain ⟨r, hr⟩ := List.getElem?_of_mem hmem
  have hin : t.InRange bounds key r := ⟨range, hr, hholds⟩
  have honly : ∀ r', t.InRange bounds key r' → r' = r := by
    intro r' hr'
    have hnot := hr'.unique hsorted hin
    have hnot' := hin.unique hsorted hr'
    omega
  refine ⟨⟨r, hin, honly⟩, fun done => ⟨?_, fun hnone => ⟨r, ?_, hin⟩⟩⟩
  · rintro ⟨above, hge, habove⟩ ⟨below, hlt, hbelow⟩
    have hsame := (honly above habove).trans (honly below hbelow).symm
    omega
  · by_contra hlt
    exact hnone ⟨r, not_le.mp hlt, hin⟩

end LoadTable

/-! ## What has come through -/

variable {change : RowChange} {mark : ℕ}

namespace PipeState

variable {s s' s'' : PipeState Unit}

/-- The way goes on: nothing that was sent, dealt with, put out or settled is forgotten. -/
structure Grows (s s' : PipeState Unit) : Prop where
  /-- the rows sent -/
  sent : s.sent <+: s'.sent
  /-- the marks taken -/
  marks : s.marks <+: s'.marks
  /-- the rows dealt with -/
  written : s.written <+: s'.written
  /-- what was put out -/
  log : s.engine.log <+: s'.engine.log
  /-- the sink loop's books -/
  sink : Extends s.sink s'.sink

theorem Grows.refl (s : PipeState Unit) : s.Grows s :=
  ⟨List.prefix_refl _, List.prefix_refl _, List.prefix_refl _, List.prefix_refl _, .refl _⟩

theorem Grows.taken (h : s.Grows s') (ht : s.Taken mark) : s'.Taken mark :=
  ⟨ht.1, ht.2.trans h.marks.length_le⟩

theorem Grows.promise (h : s.Grows s') (ht : s.Taken mark) : s'.promise mark = s.promise mark := by
  obtain ⟨more, hmore⟩ := h.marks
  obtain ⟨hpos, hle⟩ := ht
  rw [PipeState.promise, PipeState.promise, ← hmore, List.getElem?_append_left (by omega)]

/-- A row that was among the first ones sent still is. -/
theorem Grows.mem_take (h : s.Grows s') {n : ℕ} (hmem : change ∈ (s.sent.take n).map Prod.snd) :
    change ∈ (s'.sent.take n).map Prod.snd := by
  obtain ⟨more, hmore⟩ := h.sent
  rw [← hmore, List.take_append, List.map_append]
  exact List.mem_append_left _ hmem

theorem Grows.mem_sent (h : s.Grows s') (hmem : change ∈ s.sent.map Prod.snd) :
    change ∈ s'.sent.map Prod.snd :=
  (h.sent.map Prod.snd).subset hmem

end PipeState

namespace Pipeline

open PipeState

variable {p : Pipeline} {s s' : PipeState Unit}

theorem grows_feedCopy {ev : ChangeEvent} (h : p.feedCopy s ev = some s') : s.Grows s' := by
  rw [feedCopy_eq h]
  exact ⟨List.prefix_refl _, List.prefix_refl _, List.prefix_refl _, List.prefix_refl _, .refl _⟩

theorem grows {action : PipeAction Unit} (hstep : p.step s action = some s') : s.Grows s' := by
  cases action with
  | row tag change =>
    obtain ⟨t, ht, rfl⟩ := Option.map_eq_some_iff.mp hstep
    obtain ⟨hsent, hmarks, hwritten, hlog, hsink⟩ := grows_feedCopy ht
    exact ⟨hsent.trans (List.prefix_append _ _), hmarks, hwritten, hlog, hsink⟩
  | copy event =>
    simp only [step] at hstep
    split at hstep
    · exact grows_feedCopy hstep
    · cases hstep
  | take =>
    cases hstep
    exact ⟨List.prefix_refl _, List.prefix_append _ _, List.prefix_refl _, List.prefix_refl _, .refl _⟩
  | mark mark =>
    simp only [step] at hstep
    split at hstep
    · obtain ⟨t, ht, rfl⟩ := Option.map_eq_some_iff.mp hstep
      obtain ⟨hsent, hmarks, hwritten, hlog, hsink⟩ := grows_feedCopy ht
      exact ⟨hsent, hmarks, hwritten, hlog, hsink⟩
    · cases hstep
  | engine action =>
    simp only [step] at hstep
    split at hstep
    · obtain ⟨e, he, rfl⟩ := Option.map_eq_some_iff.mp hstep
      exact ⟨List.prefix_refl _, List.prefix_refl _, List.prefix_append _ _, (Engine.learns he).log,
        .refl _⟩
    · cases hstep
  | sink action =>
    simp only [step] at hstep
    split at hstep
    · obtain ⟨k, hk, rfl⟩ := Option.map_eq_some_iff.mp hstep
      exact ⟨List.prefix_refl _, List.prefix_refl _, List.prefix_refl _, List.prefix_refl _,
        (SinkLoop.loopFrame hk).keeps⟩
    · cases hstep

end Pipeline

theorem PipeState.Delivered.grows {s s' : PipeState Unit} (h : s.Delivered change)
    (hgrows : s.Grows s') : s'.Delivered change := by
  obtain ⟨row, hrow, hsame, hops⟩ := h
  refine ⟨row, hgrows.written.subset hrow, hsame, fun op hop => ?_⟩
  exact (hops op hop).imp (fun hsettled => hsettled.mono hgrows.sink)
    fun hdropped => hdropped.mono hgrows.log

/-- When a mark is reported, every row sent before it was taken has come through. -/
theorem PipeState.PipeInv.delivered {s : PipeState Unit} (h : s.PipeInv) (hdrop : s.DropInv)
    (hpos : 0 < mark) (hle : mark ≤ s.sink.loadDone)
    (hmem : change ∈ (s.sent.take (s.promise mark)).map Prod.snd) : s.Delivered change := by
  obtain ⟨tagged, htagged, rfl⟩ := List.mem_map.mp hmem
  obtain ⟨k, hk, hget⟩ := List.getElem_of_mem htagged
  have hbound : k < s.promise mark := lt_of_lt_of_le hk (List.length_take_le _ _)
  obtain ⟨row, hrow, hchange, hsettled⟩ := h.durable hpos hle hbound
  have hwritten := List.mem_of_getElem? hrow
  rw [List.getElem_take] at hget
  rw [List.getElem?_eq_getElem (by rw [List.length_take] at hk; omega), hget, Option.map_some,
    Option.some.injEq] at hchange
  exact ⟨row, hwritten, hchange.symm, fun op hop =>
    (hdrop.dropped row hwritten op hop).imp_left (hsettled op)⟩

/-! ## The invariant -/

theorem BarrierState.Landed.mono {ρ : Type} {s s' : BarrierState ρ} (h : s.Landed change)
    (hpipes : ∀ pipe ∈ s.pipes, ∃ pipe' ∈ s'.pipes, pipe.Grows pipe') : s'.Landed change := by
  obtain ⟨pipe, hpipe, hdelivered⟩ := h
  obtain ⟨pipe', hpipe', hgrows⟩ := hpipes pipe hpipe
  exact ⟨pipe', hpipe', hdelivered.grows hgrows⟩

namespace LoadTable

variable {κ ρ : Type} [LinearOrder κ] {t : LoadTable κ ρ}

theorem RangeWritten.mono {lastRead lastRead' : ℕ → Option (Reading ρ)} {boundaries : List String}
    {r : ℕ} {written written' : RowChange → Prop} (h : t.RangeWritten lastRead boundaries r written)
    (hsame : lastRead' r = lastRead r) (himp : ∀ change, written change → written' change) :
    t.RangeWritten lastRead' boundaries r written' := by
  intro range hrange
  obtain ⟨reading, hread, heq, hrows⟩ := h range hrange
  exact ⟨reading, hsame.trans hread, heq, fun row hrow hselects hholds =>
    himp _ (hrows row hrow hselects hholds)⟩

/-- What an attempt knows: the ranges it takes for done are written, and no more of them is
written down. -/
structure Knows (t : LoadTable κ ρ) (s : BarrierState ρ) (a : BarrierAttempt) : Prop where
  /-- what it takes for done -/
  done : ∀ r < a.done, t.RangeWritten s.lastRead a.boundaries r s.Landed
  /-- what is written down -/
  stored : ∀ progress, s.doc.bind LoadProgress.fromDoc = some progress →
    ∃ done ≤ a.done, progress = ⟨.ranges a.boundaries done, false⟩

/-- A wave that is sent before a mark. -/
structure Sent (t : LoadTable κ ρ) (s : BarrierState ρ) (a : BarrierAttempt) (width mark : ℕ) :
    Prop where
  /-- the mark was taken -/
  taken : a.pipe.Taken mark
  /-- behind the rows of every range -/
  rows : ∀ i < width, t.RangeWritten s.lastRead a.boundaries (a.done + i) fun change =>
    change ∈ (a.pipe.sent.take (a.pipe.promise mark)).map Prod.snd

/-- What holds of an attempt, phase by phase. -/
def PhaseInv (t : LoadTable κ ρ) (s : BarrierState ρ) (a : BarrierAttempt) : BarrierPhase → Prop
  | .visiting | .passed => True
  | .cut => a.done = 0 ∧ s.doc.bind LoadProgress.fromDoc = none
  | .between | .confirmed => t.Knows s a
  | .reading readers => t.Knows s a ∧ ∀ i unsent, readers[i]? = some (some unsent) →
      t.RangeWritten s.lastRead a.boundaries (a.done + i) fun change =>
        change ∈ unsent ∨ change ∈ a.pipe.sent.map Prod.snd
  | .marked width mark | .waiting width mark => t.Knows s a ∧ t.Sent s a width mark
  | .finishing => t.Knows s a ∧ (rangesFromBounds a.boundaries).length ≤ a.done

/-- What holds between any two steps. -/
structure BarrierInv (t : LoadTable κ ρ) (s : BarrierState ρ) : Prop where
  /-- what is written down is so -/
  stored : t.ProgressHolds s s.Landed
  /-- the way of an attempt keeps its books -/
  pipe : ∀ a, s.attempt = some a → a.pipe.PipeInv ∧ a.pipe.DropInv
  /-- and the loader its own -/
  phase : ∀ a, s.attempt = some a → t.PhaseInv s a a.phase

/-! ## One step -/

variable {s s' : BarrierState ρ} {a : BarrierAttempt}

/-- What came through stays so while the way goes on. -/
theorem landed_of_grows (ha : s.attempt = some a) {a' : BarrierAttempt} (ha' : s'.attempt = some a')
    (hpast : s'.past = s.past) (hgrows : a.pipe.Grows a'.pipe) (change : RowChange)
    (h : s.Landed change) : s'.Landed change := by
  refine h.mono fun old hold => ?_
  rw [BarrierState.pipes, ha] at hold
  rw [BarrierState.pipes, ha', hpast]
  obtain rfl | hold := List.mem_cons.mp hold
  · exact ⟨a'.pipe, List.mem_cons_self, hgrows⟩
  · exact ⟨old, List.mem_cons_of_mem _ hold, .refl old⟩

/-- Progress that is written down stays right while only other ranges are read. -/
theorem ProgressHolds.mono (h : t.ProgressHolds s s.Landed) (hdoc : s'.doc = s.doc)
    (hlanded : ∀ change, s.Landed change → s'.Landed change)
    (hread : ∀ boundaries done finished,
      s.doc.bind fromDoc = some ⟨.ranges boundaries done, finished⟩ →
      ∀ r, r < done ∨ finished = true → s'.lastRead r = s.lastRead r) :
    t.ProgressHolds s' s'.Landed := by
  intro boundaries done finished hstored r hr
  rw [hdoc] at hstored
  exact (h boundaries done finished hstored r hr).mono (hread _ _ _ hstored r hr) hlanded

theorem Knows.mono (h : t.Knows s a) {a' : BarrierAttempt} (hboundaries : a'.boundaries = a.boundaries)
    (hdone : a'.done = a.done) (hdoc : s'.doc = s.doc)
    (hread : ∀ r < a.done, s'.lastRead r = s.lastRead r)
    (hlanded : ∀ change, s.Landed change → s'.Landed change) : t.Knows s' a' where
  done r hr := by
    rw [hdone] at hr
    rw [hboundaries]
    exact (h.done r hr).mono (hread r hr) hlanded
  stored := by
    rw [hdoc, hdone, hboundaries]
    exact h.stored

/-- The way goes on by itself. -/
theorem PhaseInv.grows {phase next : BarrierPhase} (h : t.PhaseInv s a phase)
    (ha : s.attempt = some a) {pipe : PipeState Unit} (hgrows : a.pipe.Grows pipe) :
    t.PhaseInv { s with attempt := some { a with pipe := pipe, phase := next } }
      { a with pipe := pipe, phase := next } phase := by
  have hlanded : ∀ change, s.Landed change → BarrierState.Landed
      { s with attempt := some { a with pipe := pipe, phase := next } } change :=
    landed_of_grows ha rfl rfl hgrows
  have hknows : t.Knows s a →
      t.Knows { s with attempt := some { a with pipe := pipe, phase := next } }
        { a with pipe := pipe, phase := next } :=
    fun hknows => hknows.mono rfl rfl rfl (fun _ _ => rfl) hlanded
  have hsent : ∀ {width mark : ℕ}, t.Sent s a width mark →
      t.Sent { s with attempt := some { a with pipe := pipe, phase := next } }
        { a with pipe := pipe, phase := next } width mark := by
    rintro width mark ⟨htaken, hrows⟩
    refine ⟨hgrows.taken htaken, fun i hi => (hrows i hi).mono rfl fun change hmem => ?_⟩
    change change ∈ (pipe.sent.take (pipe.promise mark)).map Prod.snd
    rw [hgrows.promise htaken]
    exact hgrows.mem_take hmem
  cases phase with
  | visiting | passed => trivial
  | cut => exact h
  | between | confirmed => exact hknows h
  | reading readers =>
    refine ⟨hknows h.1, fun i unsent hi => (h.2 i unsent hi).mono rfl fun change hmem => ?_⟩
    exact hmem.imp_right hgrows.mem_sent
  | marked width mark | waiting width mark => exact ⟨hknows h.1, hsent h.2⟩
  | finishing => exact ⟨hknows h.1, h.2⟩

/-- The attempt goes on, and nothing is written down. -/
theorem BarrierInv.next (h : t.BarrierInv s) (ha : s.attempt = some a) {a' : BarrierAttempt}
    (hgrows : a.pipe.Grows a'.pipe) (hpipe : a'.pipe.PipeInv ∧ a'.pipe.DropInv)
    (hphase : t.PhaseInv { s with attempt := some a' } a' a'.phase) :
    t.BarrierInv { s with attempt := some a' } where
  stored := h.stored.mono rfl (landed_of_grows ha rfl rfl hgrows) fun _ _ _ _ _ _ => rfl
  pipe := by
    rintro _ ⟨⟩
    exact hpipe
  phase := by
    rintro _ ⟨⟩
    exact hphase

/-- The loader goes on by itself. -/
theorem BarrierInv.turn (h : t.BarrierInv s) (ha : s.attempt = some a) {a' : BarrierAttempt}
    (hsame : a'.pipe = a.pipe) (hphase : t.PhaseInv { s with attempt := some a' } a' a'.phase) :
    t.BarrierInv { s with attempt := some a' } :=
  h.next ha (hsame ▸ .refl _) (hsame ▸ h.pipe a ha) hphase

/-- What came through stays so while the loader goes on. -/
theorem landed_of_turn (ha : s.attempt = some a) {a' : BarrierAttempt} (ha' : s'.attempt = some a')
    (hsame : a'.pipe = a.pipe) (hpast : s'.past = s.past) (change : RowChange)
    (h : s.Landed change) : s'.Landed change :=
  landed_of_grows ha ha' hpast (hsame ▸ .refl _) change h

variable {phase : BarrierPhase}

/-- Progress is written down that the attempt knows of. -/
theorem BarrierInv.write (h : t.BarrierInv s) (ha : s.attempt = some a) (hknows : t.Knows s a)
    {finished : Bool} (hall : finished = true → (rangesFromBounds a.boundaries).length ≤ a.done)
    (hphase : t.PhaseInv { s with
      doc := some (toDoc ⟨.ranges a.boundaries a.done, finished⟩) 
      attempt := some { a with phase := phase } } { a with phase := phase } phase) :
    t.BarrierInv { s with
      doc := some (toDoc ⟨.ranges a.boundaries a.done, finished⟩)
      attempt := some { a with phase := phase } } where
  stored := by
    intro boundaries done flag hstored r hr
    rw [Option.bind_some] at hstored
    cases eq_of_fromDoc_toDoc hstored
    have hlanded : ∀ change, s.Landed change → BarrierState.Landed { s with
        doc := some (toDoc ⟨.ranges a.boundaries a.done, finished⟩)
        attempt := some { a with phase := phase } } change :=
      landed_of_turn ha rfl rfl rfl
    obtain hlt | hflag := hr
    · exact (hknows.done r hlt).mono rfl hlanded
    · by_cases hrange : r < (rangesFromBounds a.boundaries).length
      · exact (hknows.done r (lt_of_lt_of_le hrange (hall hflag))).mono rfl hlanded
      · intro range hnone
        rw [List.getElem?_eq_none (not_lt.mp hrange)] at hnone
        cases hnone
  pipe := by
    rintro _ ⟨⟩
    exact h.pipe a ha
  phase := by
    rintro _ ⟨⟩
    exact hphase

/-- What is written down then is what the attempt knows. -/
theorem Knows.recorded (h : t.Knows s a) (ha : s.attempt = some a) :
    t.Knows { s with
      doc := some (toDoc ⟨.ranges a.boundaries a.done, false⟩)
      attempt := some { a with phase := phase } } { a with phase := phase } where
  done r hr := (h.done r hr).mono rfl (landed_of_turn ha rfl rfl rfl)
  stored progress hstored := by
    rw [Option.bind_some] at hstored
    exact ⟨a.done, le_rfl, eq_of_fromDoc_toDoc hstored⟩

/-- An attempt is over. -/
theorem BarrierInv.crash (h : t.BarrierInv s) (ha : s.attempt = some a) :
    t.BarrierInv { s with attempt := none, past := a.pipe :: s.past } where
  stored := by
    have hlanded : ∀ change, s.Landed change →
        BarrierState.Landed { s with attempt := none, past := a.pipe :: s.past } change := by
      intro change hlanded
      refine hlanded.mono fun old hold => ⟨old, ?_, .refl old⟩
      rw [BarrierState.pipes, ha] at hold
      exact hold
    exact h.stored.mono rfl hlanded fun _ _ _ _ _ _ => rfl
  pipe _ hnone := nomatch hnone
  phase _ hnone := nomatch hnone

variable {readers : List (Option (List RowChange))}

/-- A reader reads its range, which is not recorded as done. -/
theorem BarrierInv.read (h : t.BarrierInv s) (ha : s.attempt = some a)
    (hreading : a.phase = .reading readers) {i : ℕ} {range : KeyRange}
    (hrange : (rangesFromBounds a.boundaries)[a.done + i]? = some range) {lsn : Lsn}
    {content : List ρ} :
    t.BarrierInv { s with
      attempt := some { a with
        phase := .reading (readers.set i (some (t.copied ⟨range, lsn, content⟩))) }
      lastRead := Function.update s.lastRead (a.done + i) (some ⟨range, lsn, content⟩) } := by
  have hphase := h.phase a ha
  rw [hreading] at hphase
  obtain ⟨hknows, hrows⟩ := hphase
  refine ⟨h.stored.mono rfl (landed_of_turn ha rfl rfl rfl) ?_, ?_, ?_⟩
  · intro boundaries done finished hstored r hr
    obtain ⟨done', hle, hsame⟩ := hknows.stored _ hstored
    cases hsame
    obtain hlt | hfinished := hr
    · exact Function.update_of_ne (by omega) _ _
    · cases hfinished
  · rintro _ ⟨⟩
    exact h.pipe a ha
  · rintro _ ⟨⟩
    refine ⟨hknows.mono rfl rfl rfl (fun r hr => Function.update_of_ne (by omega) _ _)
      (landed_of_turn ha rfl rfl rfl), fun j unsent hj => ?_⟩
    obtain rfl | hne := eq_or_ne i j
    · -- everything the range held is still to be sent
      intro other hother
      obtain rfl := Option.some.inj (hrange.symm.trans hother)
      refine ⟨_, Function.update_self _ _ _, rfl, fun row hrow hselects hholds => .inl ?_⟩
      have hlt : i < readers.length := by
        have hlength := (List.getElem?_eq_some_iff.mp hj).1
        rwa [List.length_set] at hlength
      rw [List.getElem?_set_self hlt] at hj
      obtain rfl := Option.some.inj (Option.some.inj hj)
      refine List.mem_map_of_mem (List.mem_filter.mpr ⟨hrow, ?_⟩)
      rw [hholds, hselects, Bool.or_true, Bool.and_true]
    · rw [List.getElem?_set_ne hne] at hj
      exact (hrows j unsent hj).mono (Function.update_of_ne (by omega) _ _) fun _ hmem => hmem

/-- A reader sends a row. -/
theorem PhaseInv.send (h : t.PhaseInv s a (.reading readers)) (ha : s.attempt = some a) {i : ℕ}
    {rest : List RowChange} (hi : readers[i]? = some (some (change :: rest)))
    {pipe : PipeState Unit} (hgrows : a.pipe.Grows pipe) (hsent : change ∈ pipe.sent.map Prod.snd) :
    t.PhaseInv
      { s with attempt := some { a with pipe := pipe, phase := .reading (readers.set i (some rest)) } }
      { a with pipe := pipe, phase := .reading (readers.set i (some rest)) }
      (.reading (readers.set i (some rest))) := by
  obtain ⟨hknows, hrows⟩ := h
  refine ⟨hknows.mono rfl rfl rfl (fun _ _ => rfl) (landed_of_grows ha rfl rfl hgrows),
    fun j unsent hj => ?_⟩
  obtain rfl | hne := eq_or_ne i j
  · have hlt : i < readers.length := (List.getElem?_eq_some_iff.mp hi).1
    rw [List.getElem?_set_self hlt] at hj
    obtain rfl := Option.some.inj (Option.some.inj hj)
    refine (hrows i _ hi).mono rfl fun other hmem => ?_
    obtain hunsent | hbefore := hmem
    · obtain rfl | hlater := List.mem_cons.mp hunsent
      · exact .inr hsent
      · exact .inl hlater
    · exact .inr (hgrows.mem_sent hbefore)
  · rw [List.getElem?_set_ne hne] at hj
    exact (hrows j unsent hj).mono rfl fun _ hmem => hmem.imp_right hgrows.mem_sent

/-- A mark is taken behind the rows of a wave. -/
theorem PhaseInv.take (h : t.PhaseInv s a (.reading readers)) (ha : s.attempt = some a)
    (hall : ∀ reader ∈ readers, reader = some []) :
    t.PhaseInv
      { s with attempt := some { a with
          pipe := { a.pipe with marks := a.pipe.marks ++ [a.pipe.sent.length] }, phase := phase } }
      { a with pipe := { a.pipe with marks := a.pipe.marks ++ [a.pipe.sent.length] }, phase := phase }
      (.marked readers.length (a.pipe.marks.length + 1)) := by
  obtain ⟨hknows, hrows⟩ := h
  have hgrows : a.pipe.Grows { a.pipe with marks := a.pipe.marks ++ [a.pipe.sent.length] } :=
    ⟨List.prefix_refl _, List.prefix_append _ _, List.prefix_refl _, List.prefix_refl _, .refl _⟩
  refine ⟨hknows.mono rfl rfl rfl (fun _ _ => rfl) (landed_of_grows ha rfl rfl hgrows),
    ⟨Nat.succ_pos _, ?_⟩, fun i hi => ?_⟩
  · change _ ≤ (a.pipe.marks ++ [a.pipe.sent.length]).length
    rw [List.length_append, List.length_singleton]
  · have hdone : readers[i]? = some (some []) := by
      rw [List.getElem?_eq_getElem hi, hall _ (List.getElem_mem hi)]
    refine (hrows i [] hdone).mono rfl fun change hmem => ?_
    -- all that was sent is behind the mark
    have hpromise : PipeState.promise
        { a.pipe with marks := a.pipe.marks ++ [a.pipe.sent.length] } (a.pipe.marks.length + 1) =
          a.pipe.sent.length := by
      rw [PipeState.promise, Nat.add_sub_cancel, List.getElem?_concat_length, Option.getD_some]
    change change ∈ (a.pipe.sent.take (PipeState.promise
      { a.pipe with marks := a.pipe.marks ++ [a.pipe.sent.length] } _)).map Prod.snd
    rw [hpromise, List.take_length]
    exact hmem.resolve_left List.not_mem_nil

/-- The mark of a wave is reported. -/
theorem Sent.confirm {width mark : ℕ} (h : t.Sent s a width mark) (hknows : t.Knows s a)
    (ha : s.attempt = some a) (hpipe : a.pipe.PipeInv) (hdrop : a.pipe.DropInv)
    (hle : mark ≤ a.pipe.sink.loadDone) :
    t.Knows { s with attempt := some { a with done := a.done + width, phase := .confirmed } }
      { a with done := a.done + width, phase := .confirmed } where
  done r hr := by
    by_cases hold : r < a.done
    · exact (hknows.done r hold).mono rfl (landed_of_turn ha rfl rfl rfl)
    · obtain ⟨i, rfl⟩ := Nat.exists_eq_add_of_le (not_lt.mp hold)
      have hi : i < width := Nat.add_lt_add_iff_left.mp hr
      refine (h.rows i hi).mono rfl fun change hmem => ⟨a.pipe, List.mem_cons_self, ?_⟩
      exact hpipe.delivered hdrop h.taken.1 hle hmem
  stored progress hstored := by
    obtain ⟨done, hdone, hprogress⟩ := hknows.stored progress hstored
    exact ⟨done, hdone.trans (Nat.le_add_right _ _), hprogress⟩

/-- **One step keeps the invariant.** -/
theorem BarrierInv.step (h : t.BarrierInv s) {p : Pipeline} {action : BarrierAction ρ}
    (hstep : (t.barrier p).step s action = some s') : t.BarrierInv s' := by
  cases ha : s.attempt with
  | none =>
    simp only [barrier, ha] at hstep
    cases action with
    | start workers =>
      cases hstep
      refine ⟨h.stored.mono rfl (fun change hlanded => hlanded.mono fun old hold => ⟨old, ?_, .refl old⟩)
        fun _ _ _ _ _ _ => rfl, ?_, ?_⟩
      · rw [BarrierState.pipes, ha] at hold
        exact List.mem_cons_of_mem _ hold
      · rintro _ ⟨⟩
        exact ⟨.start, .start⟩
      · rintro _ ⟨⟩
        trivial
    | _ => cases hstep
  | some a =>
    have hphase := h.phase a ha
    obtain ⟨hpipe, hdrop⟩ := h.pipe a ha
    simp only [barrier, ha] at hstep
    cases action with
    | start => cases hstep
    | visit sampled =>
      simp only [attemptStep] at hstep
      split at hstep
      · next hnone =>
        cases hstep
        exact h.turn ha rfl ⟨rfl, hnone⟩
      · cases hstep
        exact h.turn ha rfl trivial
      · next hstored =>
        cases hstep
        refine h.turn ha rfl ⟨fun r hr => ?_, fun progress hprogress => ⟨_, le_rfl, ?_⟩⟩
        · exact (h.stored _ _ _ hstored r (.inl hr)).mono rfl (landed_of_turn ha rfl rfl rfl)
        · exact Option.some.inj (hprogress.symm.trans hstored)
      · cases hstep
        exact h.crash ha
      · cases hstep
    | store =>
      simp only [attemptStep] at hstep
      split at hstep
      · next hcut =>
        cases hstep
        rw [hcut] at hphase
        obtain ⟨hzero, hnone⟩ := hphase
        have hknows : t.Knows s a :=
          ⟨fun r hr => by rw [hzero] at hr; exact absurd hr (Nat.not_lt_zero r),
            fun progress hstored => by rw [hnone] at hstored; cases hstored⟩
        refine h.write ha hknows (fun hfinished => ?_) (hknows.recorded ha)
        cases hfinished
      · cases hstep
    | wave =>
      simp only [attemptStep] at hstep
      split at hstep
      · next hbetween =>
        rw [hbetween] at hphase
        split at hstep
        · cases hstep
          refine h.turn ha rfl ⟨hphase.mono rfl rfl rfl (fun _ _ => rfl) (landed_of_turn ha rfl rfl rfl),
            fun i unsent hi => ?_⟩
          cases List.eq_of_mem_replicate (List.mem_of_getElem? hi)
        · cases hstep
      · cases hstep
    | read i lsn content =>
      simp only [attemptStep] at hstep
      split at hstep
      · next hreading hrange =>
        split at hstep
        · cases hstep
          exact h.read ha hreading hrange
        · cases hstep
      · cases hstep
    | send i =>
      simp only [attemptStep] at hstep
      split at hstep
      · next hreading =>
        rw [hreading] at hphase
        split at hstep
        · next change rest hi =>
          obtain ⟨pipe, hp, rfl⟩ := Option.map_eq_some_iff.mp hstep
          have hsent : change ∈ pipe.sent.map Prod.snd := by
            obtain ⟨fed, -, rfl⟩ := Option.map_eq_some_iff.mp hp
            rw [List.map_append]
            exact List.mem_append_right _ (List.mem_singleton.mpr rfl)
          exact h.next ha (grows hp) ⟨step_inv hpipe hp, step_drop hdrop hp⟩
            (hphase.send ha hi (grows hp) hsent)
        · cases hstep
      · cases hstep
    | take =>
      simp only [attemptStep] at hstep
      split at hstep
      · next hreading =>
        rw [hreading] at hphase
        split at hstep
        · next hall =>
          obtain ⟨pipe, hp, rfl⟩ := Option.map_eq_some_iff.mp hstep
          have hgrows := grows hp
          have hkeeps := (⟨step_inv hpipe hp, step_drop hdrop hp⟩ :
            pipe.PipeInv ∧ pipe.DropInv)
          cases hp
          exact h.next ha hgrows hkeeps (hphase.take ha hall)
        · cases hstep
      · cases hstep
    | sendMark =>
      simp only [attemptStep] at hstep
      split at hstep
      · next width mark hmarked =>
        rw [hmarked] at hphase
        obtain ⟨pipe, hp, rfl⟩ := Option.map_eq_some_iff.mp hstep
        exact h.next ha (grows hp) ⟨step_inv hpipe hp, step_drop hdrop hp⟩
          (hphase.grows ha (grows hp))
      · cases hstep
    | confirm =>
      simp only [attemptStep] at hstep
      split at hstep
      · next hwaiting =>
        rw [hwaiting] at hphase
        split at hstep
        · next hle =>
          cases hstep
          exact h.turn ha rfl (hphase.2.confirm hphase.1 ha hpipe hdrop hle)
        · cases hstep
      · cases hstep
    | record =>
      simp only [attemptStep] at hstep
      split at hstep
      · next hconfirmed =>
        rw [hconfirmed] at hphase
        cases hstep
        refine h.write ha hphase (fun hfinished => ?_) (Knows.recorded hphase ha)
        cases hfinished
      · cases hstep
    | finish =>
      simp only [attemptStep] at hstep
      split at hstep
      · next hbetween =>
        rw [hbetween] at hphase
        split at hstep
        · next hle =>
          cases hstep
          exact h.turn ha rfl
            ⟨hphase.mono rfl rfl rfl (fun _ _ => rfl) (landed_of_turn ha rfl rfl rfl), hle⟩
        · cases hstep
      · cases hstep
    | recordFinished =>
      simp only [attemptStep] at hstep
      split at hstep
      · next hfinishing =>
        rw [hfinishing] at hphase
        cases hstep
        exact h.write ha hphase.1 (fun _ => hphase.2) trivial
      · cases hstep
    | clear =>
      simp only [attemptStep] at hstep
      split at hstep
      · next hpassed =>
        cases hstep
        refine ⟨fun _ _ _ hstored => ?_, h.pipe, ?_⟩
        · cases hstored
        · intro a' ha'
          cases ha.symm.trans ha'
          rw [hpassed]
          trivial
      · cases hstep
    | beside action =>
      obtain ⟨pipe, hp, rfl⟩ := Option.map_eq_some_iff.mp hstep
      exact h.next ha (grows hp) ⟨step_inv hpipe hp, step_drop hdrop hp⟩
        (hphase.grows ha (grows hp))
    | crash =>
      cases hstep
      exact h.crash ha

/-! ## Every run -/

/-- **Progress never runs ahead of the data**: in every run, whatever the readers, the
stream, the engine and the sink do in whatever order and wherever attempts end, what is
recorded as done has come through; and sorted boundaries partition the keys. -/
theorem progress_behind_data (t : LoadTable κ ρ) (p : Pipeline) :
    (∀ s, (t.barrier p).Reachable s → t.ProgressHolds s s.Landed) ∧
      ∀ boundaries : List String, (boundaries.map t.meaning).Pairwise (· ≤ ·) →
        t.Partitions boundaries := by
  refine ⟨fun s h => ?_, fun boundaries hsorted => partitions hsorted⟩
  have hinv : t.BarrierInv s := by
    refine h.invariant (fun s hs => ?_) fun _ _ _ hs hstep => BarrierInv.step hs hstep
    obtain rfl : s = ⟨none, none, [], fun _ => none⟩ := hs
    refine ⟨fun _ _ _ hstored => ?_, fun _ hnone => ?_, fun _ hnone => ?_⟩
    · cases hstored
    · cases hnone
    · cases hnone
  exact hinv.stored

end LoadTable

/-! ## Two runs -/

/-- A table of numbers, whose literals are quoted numbers. -/
def numbersTable : LoadTable ℕ ℕ where
  meaning literal := (literal.toList.filter Char.isDigit).foldl
    (fun number digit => 10 * number + (digit.toNat - '0'.toNat)) 0
  key row := row
  keyed := true
  selects _ := true
  buildChange lsn row := ⟨("public", "t"), .insert (.int row) (.obj [("id", .int row)]), some lsn⟩

/-- The engine takes an event. -/
def barrierTurn : BarrierAction ℕ := .beside (.engine (.turn ⟨100, 1000000⟩ false false false))

/-- The engine takes a row that is alone, and writes it. -/
def barrierRow : List (BarrierAction ℕ) :=
  [barrierTurn, .beside (.engine (.gather false)),
    .beside (.engine (.fetch (.ok fun _ _ _ => none))), .beside (.engine .write),
    .beside (.engine .write)]

/-- The sink loop writes a batch and reports a mark. -/
def barrierReport (batch : List LsnOp) : List (BarrierAction ℕ) :=
  [.beside (.sink (.start (.ok 0))), .beside (.sink (.receive (.write batch))),
    .beside (.sink (.receive (.loadMark 1))),
    .beside (.sink (.complete 0 (.finished (.ok ⟨1, []⟩)))), .beside (.sink (.account (.ok ()))),
    .beside (.sink (.execute (.ok ())))]

/-- A document of the table as the sink is handed it. -/
def numberOp (row lsn : ℕ) : LsnOp :=
  ⟨0, .upsert "t" (toString row) none (.obj [("id", .int row)]) (some lsn) none⟩

/-- Two readers read a range each. -/
def twoReaders : List (BarrierAction ℕ) :=
  [.start 2, .visit ["'5'"], .store, .wave, .read 1 6 [1, 7], .read 0 5 [1], .send 1] ++
    barrierRow ++ [.send 0] ++ barrierRow ++ [.take, .sendMark, barrierTurn] ++
    barrierReport [numberOp 7 6, numberOp 1 5] ++
    [.confirm, .record, .finish, .recordFinished]

/-- The table is recorded as finished, and its rows have come through. -/
theorem twoReaders_behind : ∃ s,
    (numbersTable.barrier plainPipeline).run ⟨none, none, [], fun _ => none⟩ twoReaders = some s ∧
      s.doc = some (LoadProgress.toDoc ⟨.ranges ["'5'"] 2, true⟩) ∧
      numbersTable.ProgressHolds s s.Landed ∧ numbersTable.Partitions ["'5'"] := by
  have hrun : ((numbersTable.barrier plainPipeline).run ⟨none, none, [], fun _ => none⟩
      twoReaders).map (·.doc) = some (some (LoadProgress.toDoc ⟨.ranges ["'5'"] 2, true⟩)) := by
    decide +kernel
  obtain ⟨s, hs, hdoc⟩ := Option.map_eq_some_iff.mp hrun
  obtain ⟨hruns, hcuts⟩ := LoadTable.progress_behind_data numbersTable plainPipeline
  exact ⟨s, hs, hdoc, hruns s (Transition.System.reachable_of_run rfl hs),
    hcuts _ (List.pairwise_singleton _ _)⟩

/-- A range is read, then the stream removes its only row, and then the row is sent. -/
def removedInBetween : List (BarrierAction ℕ) :=
  [.start 1, .visit [], .store, .wave, .read 0 5 [1],
    .beside (.engine (.feed (removedOne 7)))] ++ barrierRow ++ [.send 0] ++ barrierRow ++
    [.take, .sendMark, barrierTurn] ++ barrierReport [⟨0, .delete "t" "1" none (some 7)⟩] ++
    [.confirm, .record]

/-- **The range is recorded as done, and its row is written nowhere**: it was dropped. -/
theorem removedInBetween_dropped : ∃ s, (numbersTable.barrier plainPipeline).Reachable s ∧
    s.doc = some (LoadProgress.toDoc ⟨.ranges [] 1, false⟩) ∧
      ¬ numbersTable.ProgressHolds s s.WrittenDown := by
  have hrun : ((numbersTable.barrier plainPipeline).run ⟨none, none, [], fun _ => none⟩
      removedInBetween).map (fun s =>
        (s.doc, (s.lastRead 0).map (fun reading => (reading.lsn, reading.content)),
          s.pipes.map fun pipe => (pipe.written.map (·.ops), opsIn pipe.sink.taken))) =
      some (some (LoadProgress.toDoc ⟨.ranges [] 1, false⟩), some (5, [1]),
        [([[(numberOp 1 5).op]], [.delete "t" "1" none (some 7)])]) := rfl
  obtain ⟨s, hs, hend⟩ := Option.map_eq_some_iff.mp hrun
  simp only [Prod.mk.injEq] at hend
  obtain ⟨hdoc, hread, hpipes⟩ := hend
  refine ⟨s, Transition.System.reachable_of_run rfl hs, hdoc, fun h => ?_⟩
  have hstored : s.doc.bind LoadProgress.fromDoc = some ⟨.ranges [] 1, false⟩ := by
    rw [hdoc]
    have hfits : LoadProgress.Fits ⟨.ranges [] 1, false⟩ := by
      change 1 < 2 ^ 64
      decide
    exact LoadProgress.fromDoc_toDoc hfits
  obtain ⟨reading, hreading, -, hrows⟩ := h [] 1 false hstored 0 (.inl Nat.one_pos) _ rfl
  rw [hreading, Option.map_some, Option.some.injEq, Prod.mk.injEq] at hread
  obtain ⟨-, hcontent⟩ := hread
  obtain ⟨pipe, hpipe, row, hrow, -, hops⟩ := hrows 1 (by rw [hcontent]; exact List.mem_cons_self)
    rfl rfl
  -- the only row that was dealt with comes to one write, and only a delete was handed over
  have hone := List.mem_map_of_mem (f := fun pipe : PipeState Unit =>
    (pipe.written.map (·.ops), opsIn pipe.sink.taken)) hpipe
  rw [hpipes, List.mem_singleton, Prod.mk.injEq] at hone
  obtain ⟨hwritten, htaken⟩ := hone
  have hcomes : row.ops = [(numberOp 1 5).op] := by
    have hmem := List.mem_map_of_mem (f := WrittenRow.ops) hrow
    rw [hwritten] at hmem
    exact List.mem_singleton.mp hmem
  obtain ⟨n, -, hop, -⟩ := hops (numberOp 1 5).op (by rw [hcomes]; exact List.mem_cons_self)
  have hall := (opsIn_mono (List.take_prefix n pipe.sink.taken)).subset hop
  rw [htaken, List.mem_singleton] at hall
  cases hall

end Pg2osync
