import Pg2osync.LoadPipeSafety
import Pg2osync.LoadWindow

/-!
# Loaders that wait for their marks

Any number of loaders share the load's channel and the sequence their marks come from.
Each sends rows, takes the next mark, sends it, and waits for the sink to report a mark
as high. Between taking a mark and sending it others may send theirs; the engine holds
one mark while a transaction of the stream is open; and the sink reports by overwriting
what it reported before, so that a waiter may see only what was reported last.
-/

namespace Pg2osync

open Pipeline

/-- The loaders, and the way they send on. -/
structure LoadersState : Type where
  /-- the way to the target; a row is tagged with its loader -/
  pipe : PipeState ℕ
  /-- each loader's mark -/
  loader : ℕ → LoaderMark
  /-- ghost: how many rows had been sent when a loader took the mark it was released for -/
  confirmed : ℕ → ℕ

/-- What happens next. -/
inductive LoadersAction : Type where
  /-- a loader sends a row -/
  | send (loader : ℕ) (change : RowChange) : LoadersAction
  /-- a loader sends a boundary, or that it starts or is done -/
  | boundary (loader : ℕ) (event : ChangeEvent) : LoadersAction
  /-- a loader takes the next mark -/
  | take (loader : ℕ) : LoadersAction
  /-- a loader sends its mark -/
  | sendMark (loader : ℕ) : LoadersAction
  /-- a loader sees a mark reported that is as high -/
  | release (loader : ℕ) : LoadersAction
  /-- the stream sends, or the engine goes on -/
  | engine (action : EngineAction) : LoadersAction
  /-- the sink loop goes on -/
  | sink (action : LoopAction) : LoadersAction

/-- Everything a load has sent is handled, no mark is held, and the sink has carried out
every command. -/
structure PipeState.Drained {τ : Type} (s : PipeState τ) : Prop where
  /-- the engine has not failed -/
  running : ∀ result, s.engine.phase ≠ .ended result
  /-- nothing is pending -/
  pending : s.engine.pending .copy = []
  /-- no mark is held -/
  parked : s.engine.pendingMark = none
  /-- every command is taken -/
  taken : s.sink.taken = s.engine.commands
  /-- and carried out -/
  receiving : s.sink.phase = .receiving

/-- **Marks come through**: a loader is released behind its rows, what is reported never
decreases, no mark is lost, and once everything is carried out nobody waits in vain. -/
structure LoadersState.MarksComeThrough (s : LoadersState) : Prop where
  /-- the rows a loader sent before the mark it was released for are durable -/
  safe : ∀ i change k, s.pipe.sent[k]? = some (i, change) → k < s.confirmed i → s.pipe.Durable k
  /-- reports do not decrease -/
  ascending : s.pipe.reported.Pairwise (· ≤ ·)
  /-- a mark that was sent is on its way, held, or has gone out -/
  kept : (∀ result, s.pipe.engine.phase ≠ .ended result) → ∀ m ∈ s.pipe.announced,
    .loadMark m ∈ s.pipe.engine.pending .copy ∨ s.pipe.engine.pendingMark = some m ∨
      .loadMark m ∈ s.pipe.engine.commands
  /-- a loader that waits may go on, once everything is carried out -/
  released : s.pipe.Drained → ∀ i m, s.loader i = .sent m → m ≤ s.pipe.sink.loadDone

namespace Pipeline

variable (p : Pipeline)

/-- One action, where it can be taken. -/
def loadersStep (s : LoadersState) : LoadersAction → Option LoadersState
  | .send i change =>
    match s.loader i with
    | .none => (p.step s.pipe (.row i change)).map fun pipe => { s with pipe := pipe }
    | _ => none
  | .boundary i event =>
    match s.loader i with
    | .none => (p.step s.pipe (.copy event)).map fun pipe => { s with pipe := pipe }
    | _ => none
  | .take i =>
    match s.loader i with
    | .none => (p.step s.pipe .take).map fun pipe => { s with
        pipe := pipe
        loader := Function.update s.loader i (.taken (s.pipe.marks.length + 1)) }
    | _ => none
  | .sendMark i =>
    match s.loader i with
    | .taken m => (p.step s.pipe (.mark m)).map fun pipe => { s with
        pipe := pipe
        loader := Function.update s.loader i (.sent m) }
    | _ => none
  | .release i =>
    match s.loader i with
    | .sent m =>
      if m ≤ s.pipe.sink.loadDone then some { s with
          loader := Function.update s.loader i .none
          confirmed := Function.update s.confirmed i (s.pipe.promise m) }
      else none
    | _ => none
  | .engine action => (p.step s.pipe (.engine action)).map fun pipe => { s with pipe := pipe }
  | .sink action => (p.step s.pipe (.sink action)).map fun pipe => { s with pipe := pipe }

/-- Loaders that have not begun. -/
def loaders : Transition.System LoadersState LoadersAction where
  initial s := s = ⟨.start ℕ, fun _ => .none, fun _ => 0⟩
  step := p.loadersStep

end Pipeline

/-- Marks reach the engine in the order they were taken in, and none while one is held:
every mark that has gone out is lower, and a mark that is held is higher and about to go
out, its transaction being over. -/
def LoadersState.marksInOrder (s : LoadersState) : LoadersAction → Bool
  | .engine (.turn _ held _ _) =>
    match s.pipe.engine.takeEvent held with
    | some ((_, .loadMark m), _) =>
      (marksIn s.pipe.engine.commands).all (fun out => out < m) &&
        s.pipe.engine.pendingMark.all fun parked => !s.pipe.engine.txnOpen && m < parked
    | _ => true
  | _ => true

/-! ## The invariant -/

theorem EngineState.Sends.marksIn {e e' : EngineState} {mark : Option ℕ} (h : e.Sends e' mark) :
    marksIn e'.commands = Pg2osync.marksIn e.commands ++ mark.toList := by
  obtain ⟨more, hmore, hnone⟩ := h.commands
  rw [hmore, marksIn_append, marksIn_append, hnone, List.nil_append]
  cases mark <;> rfl

/-- A mark is on its way, held, or has gone out. -/
def EngineState.Keeps (e : EngineState) (m : ℕ) : Prop :=
  .loadMark m ∈ e.pending .copy ∨ e.pendingMark = some m ∨ .loadMark m ∈ e.commands

namespace LoadersState

/-- What holds between any two steps. -/
structure MarkInv (s : LoadersState) : Prop where
  /-- the way keeps its invariant -/
  pipe : s.pipe.PipeInv
  /-- a loader waits for a mark that was sent -/
  waiting : ∀ i m, s.loader i = .sent m → m ∈ s.pipe.announced
  /-- and only a mark that was taken is sent -/
  announced : ∀ m ∈ s.pipe.announced, s.pipe.Taken m
  /-- and was released behind its rows -/
  confirmed : ∀ i k, k < s.confirmed i → s.pipe.Durable k
  /-- what is reported is taken first -/
  told : s.pipe.reported <+: marksIn s.pipe.sink.taken
  /-- and a mark that is taken is reported next -/
  prompt : s.pipe.sink.phase.serves = true →
    marksIn s.pipe.sink.taken = s.pipe.reported ++ s.pipe.sink.underway
  /-- marks go out in order -/
  sorted : (marksIn s.pipe.engine.commands).Pairwise (· < ·)
  /-- and a mark that is held is above them -/
  above : ∀ m, s.pipe.engine.pendingMark = some m →
    ∀ out ∈ marksIn s.pipe.engine.commands, out < m
  /-- none is lost -/
  kept : (∀ result, s.pipe.engine.phase ≠ .ended result) →
    ∀ m ∈ s.pipe.announced, s.pipe.engine.Keeps m

variable {s s' : LoadersState}

/-- What was reported went out. -/
theorem MarkInv.reported (h : s.MarkInv) : s.pipe.reported <+: marksIn s.pipe.engine.commands := by
  obtain ⟨rest, hrest⟩ := h.pipe.taken
  rw [← hrest, marksIn_append]
  exact h.told.trans (List.prefix_append _ _)

theorem MarkInv.comeThrough (h : s.MarkInv) : s.MarksComeThrough where
  safe i _ k _ hk := h.confirmed i k hk
  ascending := (h.sorted.sublist h.reported.sublist).imp fun hlt => hlt.le
  kept := h.kept
  released hdrained i m hm := by
    obtain ⟨hrunning, hpending, hparked, htaken, hreceiving⟩ := hdrained
    -- the mark has gone out, so it was taken and reported
    have hout : SinkCommand.loadMark m ∈ s.pipe.engine.commands := by
      obtain hqueued | hheld | hout := h.kept hrunning m (h.waiting i m hm)
      · rw [hpending] at hqueued
        exact absurd hqueued List.not_mem_nil
      · rw [hparked] at hheld
        cases hheld
      · exact hout
    have hall := h.prompt (by rw [hreceiving]; rfl)
    have hunder : s.pipe.sink.underway = [] := by rw [LoopState.underway, hreceiving]
    rw [htaken, hunder, List.append_nil] at hall
    have hmem : m ∈ s.pipe.reported := hall ▸ mem_marksIn.mpr hout
    have hsorted : s.pipe.reported.Pairwise (· < ·) := hall ▸ h.sorted
    rw [h.pipe.last]
    obtain ⟨front, top, hfront⟩ := List.eq_nil_or_concat s.pipe.reported |>.resolve_left
      (List.ne_nil_of_mem hmem)
    rw [List.concat_eq_append] at hfront
    rw [hfront, List.getLast?_concat, Option.getD_some]
    rw [hfront] at hmem hsorted
    obtain hbefore | hlast := List.mem_append.mp hmem
    · exact ((List.pairwise_append.mp hsorted).2.2 m hbefore top (List.mem_singleton.mpr rfl)).le
    · exact (List.mem_singleton.mp hlast).le

/-! ## One step -/

variable {pipe : PipeState ℕ} {p : Pipeline}

/-- The engine goes on, or the stream sends something. -/
theorem MarkInv.engine (h : s.MarkInv) {action : EngineAction}
    (horder : s.marksInOrder (.engine action) = true)
    (hstep : p.step s.pipe (.engine action) = some pipe) : MarkInv { s with pipe := pipe } := by
  have hpipe := step_inv h.pipe hstep
  simp only [step] at hstep
  split at hstep
  · next hbeside =>
    obtain ⟨e, he, rfl⟩ := Option.map_eq_some_iff.mp hstep
    have hgrown : s.pipe.written <+: s.pipe.written ++ p.engine.writtenRow s.pipe.engine e action :=
      List.prefix_append _ _
    have hdurable : ∀ i k, k < s.confirmed i → PipeState.Durable { s.pipe with
        engine := e
        written := s.pipe.written ++ p.engine.writtenRow s.pipe.engine e action } k :=
      fun i k hk => (h.confirmed i k hk).stays hgrown (List.prefix_refl _) rfl
    -- what is left is to follow the marks
    suffices hmarks : (marksIn e.commands).Pairwise (· < ·) ∧
        (∀ m, e.pendingMark = some m → ∀ out ∈ marksIn e.commands, out < m) ∧
        ((∀ result, e.phase ≠ .ended result) → ∀ m ∈ s.pipe.announced, e.Keeps m) from
      ⟨hpipe, h.waiting, h.announced, hdurable, h.told, h.prompt, hmarks.1, hmarks.2.1, hmarks.2.2⟩
    by_cases hended : ∃ result, e.phase = .ended result
    · obtain ⟨result, hresult⟩ := hended
      obtain ⟨hcommands, -, hheld, -⟩ := Engine.ended_frame hbeside he hresult
      rw [hcommands, hheld]
      exact ⟨h.sorted, h.above, fun hrunning => absurd hresult (hrunning result)⟩
    · rw [not_exists] at hended
      have hrunning := Engine.running_of_step he hended
      obtain ⟨hcopy, -⟩ := Engine.copyStep (h.pipe.flows hrunning).tidy hbeside he hended
      have hkept := h.kept hrunning
      generalize p.engine.writtenRow s.pipe.engine e action = news at hcopy
      cases hcopy with
      | elsewhere handled hpending hevents hreleases =>
        have hqueued : ∀ m, .loadMark m ∈ s.pipe.engine.pending .copy → .loadMark m ∈ e.pending .copy := by
          intro m hm
          rw [hpending] at hm
          exact (List.mem_append.mp hm).resolve_left fun hin => (hevents _ hin).2 m rfl
        obtain ⟨hsends, hheld⟩ | ⟨mark, hsends, hheld, hnone⟩ := hreleases
        · have hsame := hsends.marksIn
          rw [Option.toList_none, List.append_nil] at hsame
          rw [hsame, hheld]
          refine ⟨h.sorted, h.above, fun _ m hm => (hkept m hm).imp (hqueued m) (Or.imp ?_ ?_)⟩
          · exact fun hparked => hheld.trans hparked
          · rw [← mem_marksIn, ← mem_marksIn, hsame]
            exact id
        · have hmore := hsends.marksIn
          rw [hmore]
          refine ⟨?_, fun m hm => ?_, fun _ m hm => ?_⟩
          · exact List.pairwise_append.mpr ⟨h.sorted, List.pairwise_singleton _ _,
              fun out hout last hlast => List.mem_singleton.mp hlast ▸ h.above mark hheld out hout⟩
          · rw [hnone] at hm
            cases hm
          · have hout : ∀ m', m' ∈ marksIn s.pipe.engine.commands ++ [mark] →
                SinkCommand.loadMark m' ∈ e.commands := fun m' hm' => mem_marksIn.mp (hmore ▸ hm')
            obtain hqueue | hparked | hgone := hkept m hm
            · exact .inl (hqueued m hqueue)
            · obtain rfl := Option.some.inj (hheld.symm.trans hparked)
              exact .inr (.inr (hout _ (List.mem_append_right _ (List.mem_singleton.mpr rfl))))
            · exact .inr (.inr (hout _ (List.mem_append_left _ (mem_marksIn.mpr hgone))))
      | row written hpending _ _ hsends hheld =>
        have hsame := hsends.marksIn
        rw [Option.toList_none, List.append_nil] at hsame
        rw [hsame, hheld]
        refine ⟨h.sorted, h.above, fun _ m hm => (hkept m hm).imp ?_ (Or.imp ?_ ?_)⟩
        · rw [hpending, List.mem_cons]
          exact fun hin => hin.resolve_left (fun h => by cases h)
        · exact fun hparked => hheld.trans hparked
        · rw [← mem_marksIn, ← mem_marksIn, hsame]
          exact id
      | parked mark hpending htakes hopen hheld hcommands hbuffer =>
        obtain ⟨settings, held, heldAgain, overdue, taken, rfl, htake⟩ := htakes
        simp only [marksInOrder, htake, hopen, Bool.and_eq_true, List.all_eq_true,
          decide_eq_true_eq, Bool.not_true, Bool.false_and] at horder
        obtain ⟨hbelow, hfree⟩ := horder
        have hnone : s.pipe.engine.pendingMark = none := by
          cases hold : s.pipe.engine.pendingMark with
          | none => rfl
          | some old =>
            rw [hold] at hfree
            cases hfree
        rw [hcommands]
        refine ⟨h.sorted, fun m hm => ?_, fun _ m hm => ?_⟩
        · obtain rfl := Option.some.inj (hheld.symm.trans hm)
          exact hbelow
        · obtain hqueue | hparked | hgone := hkept m hm
          · rw [hpending] at hqueue
            obtain hhead | htail := List.mem_cons.mp hqueue
            · cases hhead
              exact .inr (.inl hheld)
            · exact .inl htail
          · rw [hnone] at hparked
            cases hparked
          · exact .inr (.inr (hcommands.symm ▸ hgone))
      | passed mark hpending htakes hopen hsends hheld =>
        obtain ⟨settings, held, heldAgain, overdue, taken, rfl, htake⟩ := htakes
        simp only [marksInOrder, htake, hopen, Bool.and_eq_true, List.all_eq_true,
          decide_eq_true_eq, Bool.not_false, Bool.true_and] at horder
        obtain ⟨hbelow, hfree⟩ := horder
        have hmore := hsends.marksIn
        rw [hmore, hheld]
        refine ⟨?_, fun m hm out hout => ?_, fun _ m hm => ?_⟩
        · exact List.pairwise_append.mpr ⟨h.sorted, List.pairwise_singleton _ _,
            fun out hout last hlast => List.mem_singleton.mp hlast ▸ hbelow out hout⟩
        · obtain hold | hnew := List.mem_append.mp hout
          · exact h.above m hm out hold
          · rw [hm] at hfree
            exact List.mem_singleton.mp hnew ▸ of_decide_eq_true hfree
        · have hout : ∀ m', m' ∈ marksIn s.pipe.engine.commands ++ [mark] →
              SinkCommand.loadMark m' ∈ e.commands := fun m' hm' => mem_marksIn.mp (hmore ▸ hm')
          obtain hqueue | hparked | hgone := hkept m hm
          · rw [hpending] at hqueue
            obtain hhead | htail := List.mem_cons.mp hqueue
            · cases hhead
              exact .inr (.inr (hout _ (List.mem_append_right _ (List.mem_singleton.mpr rfl))))
            · exact .inl htail
          · exact .inr (.inl (hheld.trans hparked))
          · exact .inr (.inr (hout _ (List.mem_append_left _ (mem_marksIn.mpr hgone))))
  · cases hstep

/-- Nothing but the channel of the load is touched; some marks are sent down it. -/
structure Feeds (s s' : PipeState ℕ) (news : List ℕ) : Prop where
  /-- the sink loop is where it was -/
  sink : s'.sink = s.sink
  /-- and so are the rows that are written -/
  written : s'.written = s.written
  /-- the reports -/
  reported : s'.reported = s.reported
  /-- rows are sent -/
  sent : s.sent <+: s'.sent
  /-- the commands -/
  commands : s'.engine.commands = s.engine.commands
  /-- the mark that is held -/
  held : s'.engine.pendingMark = s.engine.pendingMark
  /-- and the loop -/
  phase : s'.engine.phase = s.engine.phase
  /-- what was pending is -/
  queued : ∀ ev ∈ s.engine.pending .copy, ev ∈ s'.engine.pending .copy
  /-- marks are sent -/
  announced : s'.announced = s.announced ++ news
  /-- and pending -/
  fresh : ∀ m ∈ news, .loadMark m ∈ s'.engine.pending .copy
  /-- the marks that were taken are -/
  marks : s.marks.length ≤ s'.marks.length
  /-- and so are those that are sent -/
  taken : ∀ m ∈ news, s'.Taken m

theorem Feeds.of_copy {s : PipeState ℕ} {ev : ChangeEvent} {sent : List (ℕ × RowChange)}
    {announced news : List ℕ} (hsent : s.sent <+: sent)
    (hannounced : announced = s.announced ++ news) (hnews : ∀ m ∈ news, ev = .loadMark m)
    (htaken : ∀ m ∈ news, s.Taken m) :
    Feeds s { s with
      engine := { s.engine with copy := s.engine.copy ++ [ev] }
      sent := sent
      announced := announced } news := by
  have hpending : ({ s.engine with copy := s.engine.copy ++ [ev] } : EngineState).pending .copy =
      s.engine.pending .copy ++ [ev] := Engine.pending_feedCopy .copy
  refine ⟨rfl, rfl, rfl, hsent, rfl, rfl, rfl, fun other hother => ?_, hannounced,
    fun m hm => ?_, le_rfl, htaken⟩
  · exact hpending ▸ List.mem_append_left _ hother
  · exact hpending ▸ List.mem_append_right _ (List.mem_singleton.mpr (hnews m hm).symm)

theorem MarkInv.feeds (h : s.MarkInv) {news : List ℕ} {loader : ℕ → LoaderMark}
    (hpipe : pipe.PipeInv) (hfeeds : Feeds s.pipe pipe news)
    (hwaiting : ∀ i m, loader i = .sent m → s.loader i = .sent m ∨ m ∈ news) :
    MarkInv { s with pipe := pipe, loader := loader } := by
  obtain ⟨hsink, hwritten, hreported, hsent, hcommands, hheld, hphase, hqueued, hannounced, hfresh, hmarks,
    htaken⟩ := hfeeds
  refine ⟨hpipe, fun i m hm => ?_, fun m hm => ?_, fun i k hk => ?_, ?_, ?_, ?_, ?_,
    fun hrunning m hm => ?_⟩
  · rw [hannounced]
    obtain hold | hnew := hwaiting i m hm
    · exact List.mem_append_left _ (h.waiting i m hold)
    · exact List.mem_append_right _ hnew
  · rw [hannounced] at hm
    obtain hold | hnew := List.mem_append.mp hm
    · exact ⟨(h.announced m hold).1, (h.announced m hold).2.trans hmarks⟩
    · exact htaken m hnew
  · exact (h.confirmed i k hk).stays (hwritten ▸ List.prefix_refl _) hsent hsink
  · rw [hsink, hreported]
    exact h.told
  · rw [hsink, hreported]
    exact h.prompt
  · rw [hcommands]
    exact h.sorted
  · rw [hcommands, hheld]
    exact h.above
  · rw [hphase] at hrunning
    rw [hannounced] at hm
    obtain hold | hnew := List.mem_append.mp hm
    · refine (h.kept hrunning m hold).imp (hqueued _) (Or.imp ?_ ?_)
      · exact fun hparked => hheld.trans hparked
      · exact fun hout => hcommands.symm ▸ hout
    · exact .inl (hfresh m hnew)

/-- The sink loop goes on. -/
theorem MarkInv.sink (h : s.MarkInv) {action : LoopAction}
    (hstep : p.step s.pipe (.sink action) = some pipe) : MarkInv { s with pipe := pipe } := by
  have hpipe := step_inv h.pipe hstep
  simp only [step] at hstep
  split at hstep
  · obtain ⟨k, hk, rfl⟩ := Option.map_eq_some_iff.mp hstep
    have hframe := SinkLoop.loopFrame hk
    refine ⟨hpipe, h.waiting, h.announced, fun i j hj => (h.confirmed i j hj).mono (List.prefix_refl _)
      (List.prefix_refl _) hframe.keeps, ?_, fun hserves => ?_, h.sorted, h.above, h.kept⟩
    · -- only what was taken is reported
      change s.pipe.reported ++ reportedBy s.pipe.sink action <+: marksIn k.taken
      rw [hframe.taken, marksIn_append]
      cases hreports : reportedBy s.pipe.sink action with
      | nil =>
        rw [List.append_nil]
        exact h.told.trans (List.prefix_append _ _)
      | cons mark rest =>
        have hunder : s.pipe.sink.phase.serves = true ∧
            s.pipe.sink.underway = reportedBy s.pipe.sink action := by
          cases action with
          | execute truncated =>
            simp only [reportedBy] at hreports ⊢
            split at hreports
            · next m hphase =>
              rw [LoopState.underway, hphase]
              exact ⟨rfl, rfl⟩
            · cases hreports
          | start | complete | account | receive | close | leave => cases hreports
        rw [h.prompt hunder.1, hunder.2, hreports]
        exact List.prefix_append _ _
    · obtain ⟨hbefore, hmarks⟩ := hframe.marks hserves
      change marksIn k.taken = s.pipe.reported ++ reportedBy s.pipe.sink action ++ k.underway
      rw [hframe.taken, marksIn_append, h.prompt hbefore, List.append_assoc, hmarks,
        List.append_assoc]
  · cases hstep

theorem MarkInv.step (h : s.MarkInv) {action : LoadersAction}
    (horder : s.marksInOrder action = true) (hstep : p.loadersStep s action = some s') :
    s'.MarkInv := by
  cases action with
  | send i change =>
    simp only [loadersStep] at hstep
    split at hstep
    · obtain ⟨pipe, hpipe, rfl⟩ := Option.map_eq_some_iff.mp hstep
      have hinv := step_inv h.pipe hpipe
      obtain ⟨t, ht, rfl⟩ := Option.map_eq_some_iff.mp hpipe
      rw [feedCopy_eq ht] at hinv ⊢
      exact h.feeds hinv
        (.of_copy (List.prefix_append _ _) (List.append_nil _).symm nofun nofun) fun _ _ hm => .inl hm
    · cases hstep
  | boundary i event =>
    simp only [loadersStep] at hstep
    split at hstep
    · obtain ⟨pipe, hpipe, rfl⟩ := Option.map_eq_some_iff.mp hstep
      have hinv := step_inv h.pipe hpipe
      simp only [step] at hpipe
      split at hpipe
      · rw [feedCopy_eq hpipe] at hinv ⊢
        exact h.feeds hinv
          (.of_copy (List.prefix_refl _) (List.append_nil _).symm nofun nofun) fun _ _ hm => .inl hm
      · cases hpipe
    · cases hstep
  | take i =>
    simp only [loadersStep] at hstep
    split at hstep
    · obtain ⟨pipe, hpipe, rfl⟩ := Option.map_eq_some_iff.mp hstep
      have hinv := step_inv h.pipe hpipe
      cases hpipe
      refine h.feeds hinv ⟨rfl, rfl, rfl, List.prefix_refl _, rfl, rfl, rfl, fun _ hev => hev,
        (List.append_nil _).symm, nofun, List.length_append ▸ Nat.le_add_right _ _, nofun⟩
        fun j m hm => .inl ?_
      obtain rfl | hne := eq_or_ne j i
      · rw [Function.update_self] at hm
        cases hm
      · rwa [Function.update_of_ne hne] at hm
    · cases hstep
  | sendMark i =>
    simp only [loadersStep] at hstep
    split at hstep
    · next m _ =>
      obtain ⟨pipe, hpipe, rfl⟩ := Option.map_eq_some_iff.mp hstep
      have hinv := step_inv h.pipe hpipe
      simp only [step] at hpipe
      split at hpipe
      · next htaken =>
        obtain ⟨t, ht, rfl⟩ := Option.map_eq_some_iff.mp hpipe
        rw [feedCopy_eq ht] at hinv ⊢
        have hone : ∀ other ∈ [m], other = m := fun other => List.mem_singleton.mp
        refine h.feeds hinv (.of_copy (List.prefix_refl _) rfl
          (fun other hother => by rw [hone other hother]) fun other hother => hone other hother ▸ htaken) fun j m' hm' => ?_
        obtain rfl | hne := eq_or_ne j i
        · rw [Function.update_self] at hm'
          cases hm'
          exact .inr (List.mem_singleton.mpr rfl)
        · rw [Function.update_of_ne hne] at hm'
          exact .inl hm'
      · cases hpipe
    · cases hstep
  | release i =>
    simp only [loadersStep] at hstep
    split at hstep
    · next m hsent =>
      split at hstep
      · next hle =>
        cases hstep
        have hpos := (h.announced m (h.waiting i m hsent)).1
        refine ⟨h.pipe, fun j m' hm' => ?_, h.announced, fun j k hk => ?_, h.told, h.prompt,
          h.sorted, h.above, h.kept⟩
        · change Function.update s.loader i .none j = .sent m' at hm'
          obtain rfl | hne := eq_or_ne j i
          · rw [Function.update_self] at hm'
            cases hm'
          · rw [Function.update_of_ne hne] at hm'
            exact h.waiting j m' hm'
        · change k < Function.update s.confirmed i (s.pipe.promise m) j at hk
          obtain rfl | hne := eq_or_ne j i
          · rw [Function.update_self] at hk
            exact h.pipe.durable hpos hle hk
          · rw [Function.update_of_ne hne] at hk
            exact h.confirmed j k hk
      · cases hstep
    · cases hstep
  | engine action =>
    obtain ⟨pipe, hpipe, rfl⟩ := Option.map_eq_some_iff.mp hstep
    exact h.engine horder hpipe
  | sink action =>
    obtain ⟨pipe, hpipe, rfl⟩ := Option.map_eq_some_iff.mp hstep
    exact h.sink hpipe

theorem MarkInv.start : MarkInv ⟨.start ℕ, fun _ => .none, fun _ => 0⟩ where
  pipe := .start
  waiting := nofun
  announced := nofun
  confirmed _ k hk := absurd hk (Nat.not_lt_zero k)
  told := List.prefix_refl _
  prompt _ := rfl
  sorted := List.Pairwise.nil
  above := nofun
  kept := nofun

/-- **Marks come through, in every run in which they reach the engine in order**: however
many loaders there are, whatever the stream does beside them, and in whatever order all of
it is taken. -/
theorem marks_come_through {p : Pipeline}
    (h : p.loaders.ReachUnder (fun s action => s.marksInOrder action = true) s) :
    s.MarksComeThrough := by
  have hinv : s.MarkInv := by
    refine h.invariant (fun s hs => ?_) fun _ _ _ hs horder hstep => MarkInv.step hs horder hstep
    rw [show s = _ from hs]
    exact MarkInv.start
  exact hinv.comeThrough

end LoadersState

/-! ## Two runs -/

/-- One table without rules, and a sink loop that halts on what it cannot write. -/
def plainPipeline : Pipeline := ⟨plainEngine, ⟨.halt, 10, 2⟩⟩

/-- Loaders that have not begun. -/
def idleLoaders : LoadersState := ⟨.start ℕ, fun _ => .none, fun _ => 0⟩

/-- The loop of the engine takes an event. -/
def loadersTurn : LoadersAction := .engine (.turn ⟨100, 1000000⟩ false false false)

/-- The document a loader sends, as the sink is handed it. -/
def copiedBatch : List LsnOp :=
  [⟨0, .upsert "t" "1" none (.obj [("id", .int 1)]) (some 5) none⟩]

/-- A loader sends a row and its mark, both are written, and the loader goes on. -/
def releasedLoader : List LoadersAction :=
  [.send 3 ⟨("public", "t"), .insert (.int 1) (.obj [("id", .int 1)]), some 5⟩, .take 3,
    .sendMark 3, loadersTurn, .engine (.gather false), .engine (.fetch (.ok fun _ _ _ => none)),
    .engine .write, .engine .write, loadersTurn,
    .sink (.start (.ok 0)), .sink (.receive (.write copiedBatch)), .sink (.receive (.loadMark 1)),
    .sink (.complete 0 (.finished (.ok ⟨1, []⟩))), .sink (.account (.ok ())),
    .sink (.execute (.ok ())), .release 3]

/-- The loader is released, and its row is durable. -/
theorem releasedLoader_comeThrough : ∃ s,
    plainPipeline.loaders.runUnder LoadersState.marksInOrder idleLoaders releasedLoader = some s ∧
      s.pipe.sent.map Prod.fst = [3] ∧ s.confirmed 3 = 1 ∧ s.MarksComeThrough := by
  have hrun : (plainPipeline.loaders.runUnder LoadersState.marksInOrder idleLoaders
      releasedLoader).map (fun s => (s.pipe.sent.map Prod.fst, s.confirmed 3)) = some ([3], 1) := by
    decide +kernel
  obtain ⟨s, hs, hend⟩ := Option.map_eq_some_iff.mp hrun
  obtain ⟨hsent, hconfirmed⟩ := Prod.mk.inj hend
  exact ⟨s, hs, hsent, hconfirmed,
    LoadersState.marks_come_through (.of_runUnder (.initial rfl) hs)⟩

/-- Two loaders take their marks, and the second is the first to send its own. -/
def overtakenMark : List LoadersAction :=
  [.take 3, .take 4, .sendMark 4, .sendMark 3, loadersTurn, loadersTurn,
    .sink (.start (.ok 0)), .sink (.receive (.loadMark 2)), .sink (.execute (.ok ())),
    .sink (.receive (.loadMark 1)), .sink (.execute (.ok ()))]

/-- **The higher mark is reported first and overwritten by the lower one**: everything is
carried out, and the loader that waits for the higher one waits for ever. -/
theorem overtakenMark_waits : ∃ s, plainPipeline.loaders.Reachable s ∧ s.pipe.Drained ∧
    s.pipe.reported = [2, 1] ∧ s.loader 4 = .sent 2 ∧ s.pipe.sink.loadDone = 1 ∧
      ¬ s.MarksComeThrough := by
  have hrun : (plainPipeline.loaders.run idleLoaders overtakenMark).map (fun s =>
      (s.pipe.engine.phase, s.pipe.engine.pending .copy, s.pipe.engine.pendingMark,
        s.pipe.engine.commands, s.pipe.sink.taken)) =
        some (.idle, [], none, [.loadMark 2, .loadMark 1], [.loadMark 2, .loadMark 1]) ∧
      (plainPipeline.loaders.run idleLoaders overtakenMark).map (fun s =>
        (s.pipe.sink.phase, s.pipe.reported, s.loader 4, s.pipe.sink.loadDone)) =
        some (.receiving, [2, 1], .sent 2, 1) := ⟨rfl, rfl⟩
  obtain ⟨hengine, hsink⟩ := hrun
  obtain ⟨s, hs, hend⟩ := Option.map_eq_some_iff.mp hengine
  rw [hs, Option.map_some] at hsink
  simp only [Option.some.injEq, Prod.mk.injEq] at hend hsink
  obtain ⟨hphase, hpending, hparked, hcommands, htaken⟩ := hend
  obtain ⟨hreceiving, hreported, hwaits, hdone⟩ := hsink
  have hdrained : s.pipe.Drained :=
    ⟨fun result => by rw [hphase]; nofun, hpending, hparked, htaken.trans hcommands.symm, hreceiving⟩
  refine ⟨s, Transition.System.reachable_of_run rfl hs, hdrained, hreported, hwaits, hdone,
    fun h => ?_⟩
  have hle := h.released hdrained 4 2 hwaits
  rw [hdone] at hle
  exact absurd hle (by decide)

end Pg2osync
