import Mathlib.Data.List.Induction
import Pg2osync.LoadPipeSteps

/-!
# What a reported mark says

Both ends of the way are queues: what a load has sent is in front of what it sends next,
from its channel to the last command. So when the sink reports a mark, every row sent
before the mark was taken is in a write that has ended well. The invariant follows the
rows and the marks along the way.
-/

namespace Pg2osync

/-! ## The sink loop -/

theorem Extends.refl (s : LoopState) : Extends s s :=
  ⟨List.prefix_refl _, fun _ hd => hd, fun _ hr => hr⟩

/-- The command an action of the loop takes. -/
def LoopAction.received : LoopAction → List SinkCommand
  | .receive command => [command]
  | _ => []

/-- The mark the loop is about to report. -/
def LoopState.underway (s : LoopState) : List ℕ :=
  match s.phase with
  | .draining (.loadMark mark) => [mark]
  | _ => []

/-- The loop takes commands, or is about to. -/
def Phase.serves : Phase → Bool
  | .starting | .receiving | .draining _ => true
  | _ => false

variable {action : LoopAction}

namespace SinkLoop

variable {loop : SinkLoop} {s s' : LoopState}

/-- What a step of the loop leaves behind. -/
structure LoopFrame (s s' : LoopState) (action : LoopAction) : Prop where
  /-- nothing taken, ended or recorded is forgotten -/
  keeps : Extends s s'
  /-- what is taken -/
  taken : s'.taken = s.taken ++ action.received
  /-- what is reported -/
  loadDone : s'.loadDone = (reportedBy s action).getLast?.getD s.loadDone
  /-- a mark is reported right after it was taken -/
  marks : s'.phase.serves = true → s.phase.serves = true ∧
    s.underway ++ marksIn action.received = reportedBy s action ++ s'.underway

theorem LoopFrame.of_eq (hkeeps : Extends s s') (htaken : s'.taken = s.taken)
    (hreceived : action.received = []) (hreported : reportedBy s action = [])
    (hdone : s'.loadDone = s.loadDone)
    (hphase : s'.phase.serves = true → s.phase.serves = true ∧ s'.underway = s.underway) :
    LoopFrame s s' action where
  keeps := hkeeps
  taken := by rw [htaken, hreceived, List.append_nil]
  loadDone := by rw [hdone, hreported]; rfl
  marks hserves := by
    obtain ⟨hold, hsame⟩ := hphase hserves
    rw [hreceived, hreported, hsame]
    exact ⟨hold, List.append_nil _⟩

theorem loopFrame (hstep : loop.step s action = some s') : LoopFrame s s' action := by
  have hrefl : ∀ {phase : Phase}, Extends s { s with phase := phase } :=
    ⟨List.prefix_refl _, fun _ hd => hd, fun _ hr => hr⟩
  cases does hstep with
  | counted hphase =>
    exact .of_eq ⟨List.prefix_refl _, fun _ hd => hd, fun _ hr => hr⟩ rfl rfl rfl rfl
      fun _ => ⟨by rw [hphase]; rfl, by simp only [LoopState.underway, hphase]⟩
  | uncounted | closed | left => exact .of_eq hrefl rfl rfl rfl rfl fun h => by cases h
  | completed =>
    exact .of_eq ⟨List.prefix_refl _, fun _ hd => List.mem_cons_of_mem _ hd, fun _ hr => hr⟩
      rfl rfl rfl rfl fun hserves => ⟨hserves, rfl⟩
  | accounted =>
    exact .of_eq ⟨List.prefix_refl _, fun _ hd => hd, (finish_accounts loop _ _ _ _).recorded⟩
      rfl rfl rfl rfl fun hserves => ⟨hserves, rfl⟩
  | failed =>
    refine .of_eq ⟨List.prefix_refl _, fun _ hd => hd, (finish_accounts loop _ _ _ _).recorded⟩
      rfl rfl rfl rfl fun hserves => ?_
    cases hphase : s.phase <;> simp [stopped, hphase, Phase.serves] at hserves
  | opened hphase =>
    refine ⟨⟨List.prefix_append _ _, fun _ hd => hd, fun _ hr => hr⟩, rfl, rfl,
      fun _ => ⟨by rw [hphase]; rfl, ?_⟩⟩
    simp only [LoopState.underway, hphase]
    rfl
  | @parked command hphase hbarrier =>
    refine ⟨⟨List.prefix_append _ _, fun _ hd => hd, fun _ hr => hr⟩, rfl, rfl,
      fun _ => ⟨by rw [hphase]; rfl, ?_⟩⟩
    simp only [LoopState.underway, hphase]
    cases command with
    | write => cases hbarrier
    | position | truncate | loadMark => rfl
  | @executed truncated command hphase =>
    have hserves : s.phase.serves = true := by rw [hphase]; rfl
    have hout : ∀ (goes : Bool) (t : LoopState),
        t.phase = (if goes then .receiving else .halted) → t.underway = [] := by
      intro goes t ht
      rw [LoopState.underway, ht]
      cases goes <;> rfl
    have hnone := fun result : Except CoreError (Option SinkAck) => hout
      (s.acks.apply loop (s.taken.length - 1) (.ok ()) result).1
    cases command with
    | write batch =>
      exact .of_eq hrefl rfl rfl (by simp only [reportedBy, hphase]) rfl
        fun hserves => ⟨hserves, rfl⟩
    | position lsn =>
      refine .of_eq ⟨List.prefix_refl _, fun _ hd => hd, ?_⟩ rfl rfl
        (by simp only [reportedBy, hphase]) rfl fun _ => ⟨hserves, ?_⟩
      · exact (Acks.apply_accounts loop _ (.ok ()) s.acks (.ok (some (SinkAck.written lsn)))).recorded
      · rw [hnone (.ok (some (SinkAck.written lsn))) _ rfl]
        simp only [LoopState.underway, hphase]
    | truncate index version only =>
      refine .of_eq ⟨List.prefix_refl _, fun _ hd => hd, ?_⟩ rfl rfl
        (by simp only [reportedBy, hphase]) rfl fun _ => ⟨hserves, ?_⟩
      · exact (Acks.apply_accounts loop _ (.ok ()) s.acks (truncated.map fun _ => none)).recorded
      · rw [hnone (truncated.map fun _ => none) _ rfl]
        simp only [LoopState.underway, hphase]
    | loadMark mark =>
      refine ⟨⟨List.prefix_refl _, fun _ hd => hd, fun _ hr => hr⟩, (List.append_nil _).symm, ?_,
        fun _ => ⟨hserves, ?_⟩⟩
      · simp only [reportedBy, hphase]
        rfl
      · have hafter : (loop.execute s (s.taken.length - 1) truncated
            (.loadMark mark)).underway = [] := rfl
        rw [hafter]
        simp only [LoopState.underway, reportedBy, hphase]
        rfl

end SinkLoop

/-! ## The invariant -/

/-- The rows among some events, in number. -/
def rowsIn (events : List ChangeEvent) : ℕ :=
  (events.filterMap ChangeEvent.rowOf).length

theorem rowsIn_append (first second : List ChangeEvent) :
    rowsIn (first ++ second) = rowsIn first + rowsIn second := by
  rw [rowsIn, List.filterMap_append, List.length_append]
  rfl

theorem rowsIn_of_none {events : List ChangeEvent} (h : ∀ ev ∈ events, ev.rowOf = none) :
    rowsIn events = 0 := by
  rw [rowsIn, List.filterMap_eq_nil_iff.mpr h, List.length_nil]

/-- A member of a list that is one longer is the last one, or was there before. -/
theorem split_concat {α : Type} {l pre post : List α} {x y : α} (h : l ++ [x] = pre ++ y :: post) :
    y = x ∧ pre = l ∨ ∃ post', l = pre ++ y :: post' := by
  obtain rfl | ⟨post', z, rfl⟩ := List.eq_nil_or_concat post
  · obtain ⟨rfl, hlast⟩ := List.append_inj' h rfl
    exact .inl ⟨(List.cons.inj hlast).1.symm, rfl⟩
  · rw [List.concat_eq_append, ← List.cons_append, ← List.append_assoc] at h
    exact .inr ⟨post', (List.append_inj' h rfl).1⟩

/-- A member of two lists that is not in the second is in the first. -/
theorem split_of_not_mem {α : Type} {first second pre post : List α} {x : α}
    (h : first ++ second = pre ++ x :: post) (hnot : x ∉ second) :
    ∃ post', first = pre ++ x :: post' := by
  induction second using List.reverseRecOn generalizing post with
  | nil => exact ⟨post, by rw [← h, List.append_nil]⟩
  | append_singleton rest last ih =>
    rw [← List.append_assoc] at h
    rw [List.mem_append, not_or] at hnot
    obtain ⟨rfl, -⟩ | ⟨post', hpost⟩ := split_concat h
    · exact absurd (List.mem_singleton.mpr rfl) hnot.2
    · exact ih hpost hnot.1

namespace PipeState

variable {τ : Type} {s s' : PipeState τ}

/-- A mark that was taken. -/
def Taken (s : PipeState τ) (mark : ℕ) : Prop :=
  0 < mark ∧ mark ≤ s.marks.length

/-- While the engine runs, what a load has sent is written or pending, and a mark is
behind every row that was sent before it was taken. -/
structure Flows (s : PipeState τ) : Prop where
  /-- the engine is tidy -/
  tidy : s.engine.Tidy
  /-- every row is written or pending -/
  rows : s.written.map WrittenRow.row ++ (s.engine.pending .copy).filterMap ChangeEvent.rowOf =
    s.sent.map Prod.snd
  /-- a mark is behind its rows -/
  behind : ∀ pre mark post, s.engine.pending .copy = pre ++ .loadMark mark :: post →
    s.Taken mark ∧ s.promise mark ≤ s.written.length + rowsIn pre

theorem Flows.count (h : s.Flows) :
    s.written.length + rowsIn (s.engine.pending .copy) = s.sent.length := by
  have hlength := congrArg List.length h.rows
  rw [List.length_append, List.length_map, List.length_map] at hlength
  exact hlength

theorem Flows.written (h : s.Flows) : s.written.map WrittenRow.row <+: s.sent.map Prod.snd :=
  h.rows ▸ List.prefix_append _ _

/-- The rows of a mark are put out in some commands. -/
def PutOutIn (s : PipeState τ) (mark : ℕ) (commands : List SinkCommand) : Prop :=
  ∀ k < s.promise mark, ∃ row, s.written[k]? = some row ∧ row.upTo <+: opsIn commands

/-- What holds between any two steps. -/
structure PipeInv (s : PipeState τ) : Prop where
  /-- the sink loop keeps its books -/
  loop : Inv s.sink
  /-- it takes the commands in order -/
  taken : s.sink.taken <+: s.engine.commands
  /-- a later mark is taken behind more rows -/
  marks : s.marks.Pairwise (· ≤ ·) ∧ ∀ c ∈ s.marks, c ≤ s.sent.length
  /-- rows are written in the order they were sent in -/
  rows : s.written.map WrittenRow.row <+: s.sent.map Prod.snd
  /-- a row that is written is put out -/
  upTo : ∀ row ∈ s.written, row.upTo <+: s.engine.putOut ∧ row.out <:+ row.upTo
  /-- what is sent comes through -/
  flows : (∀ result, s.engine.phase ≠ .ended result) → s.Flows
  /-- a mark that is held is behind its rows -/
  parked : ∀ mark, s.engine.pendingMark = some mark →
    s.Taken mark ∧ s.promise mark ≤ s.written.length
  /-- so is a mark that has gone out -/
  out : ∀ pre mark post, s.engine.commands = pre ++ .loadMark mark :: post →
    s.Taken mark ∧ s.PutOutIn mark pre
  /-- and the rows of a reported one are durable -/
  reported : ∀ mark ∈ s.reported, s.Taken mark ∧ ∀ k < s.promise mark, s.Durable k
  /-- the last report stands -/
  last : s.sink.loadDone = s.reported.getLast?.getD 0

/-! ## Frames -/

theorem promise_append (c : ℕ) {mark : ℕ} (h : s.Taken mark) :
    ({ s with marks := s.marks ++ [c] } : PipeState τ).promise mark = s.promise mark := by
  have hlt : mark - 1 < s.marks.length := by
    have := h.2
    have := h.1
    omega
  rw [promise, promise, List.getElem?_append_left hlt]

/-- A later mark promises more rows. -/
theorem PipeInv.promise_mono (h : s.PipeInv) {m m' : ℕ} (hle : m ≤ m') (hm : 0 < m)
    (hm' : s.Taken m') : s.promise m ≤ s.promise m' := by
  have hlt' : m' - 1 < s.marks.length := by
    have := hm'.2
    omega
  have hlt : m - 1 < s.marks.length := by omega
  rw [promise, promise, List.getElem?_eq_getElem hlt, List.getElem?_eq_getElem hlt',
    Option.getD_some, Option.getD_some]
  obtain heq | hless := Nat.eq_or_lt_of_le hle
  · simp only [heq, le_refl]
  · exact List.pairwise_iff_getElem.mp h.marks.1 _ _ hlt hlt' (by omega)

/-- What is settled stays so while the loop goes on. -/
theorem Settled.mono {op : DocumentOp} (h : s.Settled op) (hkeeps : Extends s.sink s'.sink) :
    s'.Settled op := by
  obtain ⟨n, hn, hop, hsettled⟩ := h
  obtain ⟨rest, hrest⟩ := hkeeps.taken
  refine ⟨n, hn.trans hkeeps.taken.length_le, ?_, hkeeps.settledBefore hn hsettled⟩
  rw [← hrest, List.take_append_of_le_length hn]
  exact hop

/-- What is durable stays so while rows are sent and written and the loop goes on. -/
theorem Durable.mono {k : ℕ} (h : s.Durable k) (hwritten : s.written <+: s'.written)
    (hsent : s.sent <+: s'.sent) (hkeeps : Extends s.sink s'.sink) : s'.Durable k := by
  obtain ⟨row, hrow, hchange, hsettled⟩ := h
  obtain ⟨more, hmore⟩ := hwritten
  obtain ⟨later, hlater⟩ := hsent
  refine ⟨row, ?_, ?_, fun op hop => (hsettled op hop).mono hkeeps⟩
  · rw [← hmore, List.getElem?_append_left (List.getElem?_eq_some_iff.mp hrow).1]
    exact hrow
  · obtain ⟨tagged, htagged, -⟩ := Option.map_eq_some_iff.mp hchange
    rw [← hlater, List.getElem?_append_left (List.getElem?_eq_some_iff.mp htagged).1]
    exact hchange

/-- What was sent stays. -/
theorem Durable.stays {k : ℕ} (h : s.Durable k) (hwritten : s.written <+: s'.written)
    (hsent : s.sent <+: s'.sent) (hsink : s'.sink = s.sink) : s'.Durable k :=
  h.mono hwritten hsent (hsink ▸ .refl _)

theorem PutOutIn.mono {mark : ℕ} {commands : List SinkCommand} (h : s.PutOutIn mark commands)
    (hmarks : s'.promise mark = s.promise mark) (hwritten : s.written <+: s'.written) :
    s'.PutOutIn mark commands := by
  intro k hk
  obtain ⟨row, hrow, hupTo⟩ := h k (hmarks ▸ hk)
  obtain ⟨more, hmore⟩ := hwritten
  refine ⟨row, ?_, hupTo⟩
  rw [← hmore, List.getElem?_append_left (List.getElem?_eq_some_iff.mp hrow).1]
  exact hrow

theorem PipeInv.start : (PipeState.start τ).PipeInv where
  loop := SinkLoop.inv_start
  taken := List.prefix_refl _
  marks := ⟨List.Pairwise.nil, fun _ h => absurd h List.not_mem_nil⟩
  rows := List.prefix_refl _
  upTo _ h := absurd h List.not_mem_nil
  flows _ := ⟨⟨fun _ _ _ => rfl, fun _ h => absurd h List.not_mem_nil⟩, rfl,
    fun pre _ _ h => absurd h.symm (by simp [EngineState.pending, EngineState.inHand,
      EngineState.groupRows, EngineState.channel, EngineState.start, PipeState.start])⟩
  parked _ h := nomatch h
  out pre _ _ h := absurd h.symm (by simp [PipeState.start, EngineState.start])
  reported _ h := absurd h List.not_mem_nil
  last := rfl

/-- Whoever sees a report has everything below it durable. -/
theorem PipeInv.durable (h : s.PipeInv) {m k : ℕ} (hpos : 0 < m) (hle : m ≤ s.sink.loadDone)
    (hk : k < s.promise m) : s.Durable k := by
  rw [h.last] at hle
  cases hlast : s.reported.getLast? with
  | none =>
    rw [hlast] at hle
    exact absurd hle (Nat.not_le.mpr hpos)
  | some top =>
    rw [hlast, Option.getD_some] at hle
    obtain ⟨htaken, hdurable⟩ := h.reported top (List.mem_of_getLast? hlast)
    exact hdurable k (lt_of_lt_of_le hk (h.promise_mono hle hpos htaken))

/-! ## One step -/

/-- What a mark promises had been sent when it was taken. -/
theorem PipeInv.promise_le (h : s.PipeInv) {mark : ℕ} (htaken : s.Taken mark) :
    s.promise mark ≤ s.sent.length := by
  have hlt : mark - 1 < s.marks.length := by
    have := htaken.1
    have := htaken.2
    omega
  rw [promise, List.getElem?_eq_getElem hlt, Option.getD_some]
  exact h.marks.2 _ (List.getElem_mem hlt)

/-- A load sends an event. -/
theorem PipeInv.feedCopy (h : s.PipeInv) {ev : ChangeEvent} (rows : List (τ × RowChange))
    (announced : List ℕ) (hrows : [ev].filterMap ChangeEvent.rowOf = rows.map Prod.snd)
    (hmark : ∀ mark, ev = .loadMark mark → s.Taken mark) :
    ({ s with
      engine := { s.engine with copy := s.engine.copy ++ [ev] }
      sent := s.sent ++ rows
      announced := announced } : PipeState τ).PipeInv where
  loop := h.loop
  taken := h.taken
  marks := ⟨h.marks.1, fun c hc =>
    (h.marks.2 c hc).trans (List.length_append ▸ Nat.le_add_right _ _)⟩
  rows := by
    rw [List.map_append]
    exact h.rows.trans (List.prefix_append _ _)
  upTo := h.upTo
  flows hrunning := by
    have hcount := (h.flows hrunning).count
    obtain ⟨htidy, hsent, hbehind⟩ := h.flows hrunning
    have hcopy : ({ s.engine with copy := s.engine.copy ++ [ev] } : EngineState).pending .copy =
        s.engine.pending .copy ++ [ev] := Engine.pending_feedCopy .copy
    have hstream : ({ s.engine with copy := s.engine.copy ++ [ev] } : EngineState).pending .stream =
        s.engine.pending .stream ++ [] := Engine.pending_feedCopy .stream
    rw [List.append_nil] at hstream
    refine ⟨⟨htidy.gathers, fun e he => htidy.stream e (hstream ▸ he)⟩, ?_, ?_⟩
    · rw [hcopy, List.filterMap_append, hrows, ← List.append_assoc, hsent, List.map_append]
    · intro pre mark post hsplit
      rw [hcopy] at hsplit
      obtain ⟨rfl, rfl⟩ | ⟨post', hold⟩ := split_concat hsplit
      · have htaken := hmark mark rfl
        exact ⟨htaken, hcount ▸ h.promise_le htaken⟩
      · exact hbehind pre mark post' hold
  parked := h.parked
  out := h.out
  reported mark hmark := by
    obtain ⟨ht, hdurable⟩ := h.reported mark hmark
    exact ⟨ht, fun k hk => (hdurable k hk).stays (List.prefix_refl _) (List.prefix_append _ _) rfl⟩
  last := h.last

/-- A mark is taken. -/
theorem PipeInv.take (h : s.PipeInv) :
    ({ s with marks := s.marks ++ [s.sent.length] } : PipeState τ).PipeInv := by
  have htaken : ∀ {mark : ℕ}, s.Taken mark →
      ({ s with marks := s.marks ++ [s.sent.length] } : PipeState τ).Taken mark := fun ht =>
    ⟨ht.1, ht.2.trans (List.length_append ▸ Nat.le_add_right _ _)⟩
  refine ⟨h.loop, h.taken, ⟨?_, fun c hc => ?_⟩, h.rows, h.upTo, fun hrunning => ?_, fun mark hmark => ?_,
    fun pre mark post hsplit => ?_, fun mark hmark => ?_, h.last⟩
  · refine List.pairwise_append.mpr ⟨h.marks.1, List.pairwise_singleton _ _, fun c hc d hd => ?_⟩
    rw [List.mem_singleton.mp hd]
    exact h.marks.2 c hc
  · obtain hold | hnew := List.mem_append.mp hc
    · exact h.marks.2 c hold
    · rw [List.mem_singleton.mp hnew]
  · obtain ⟨htidy, hcount, hbehind⟩ := h.flows hrunning
    refine ⟨htidy, hcount, fun pre mark post hsplit => ?_⟩
    obtain ⟨ht, hle⟩ := hbehind pre mark post hsplit
    exact ⟨htaken ht, (promise_append _ ht).symm ▸ hle⟩
  · obtain ⟨ht, hle⟩ := h.parked mark hmark
    exact ⟨htaken ht, (promise_append _ ht).symm ▸ hle⟩
  · obtain ⟨ht, hout⟩ := h.out pre mark post hsplit
    exact ⟨htaken ht, hout.mono (promise_append _ ht) (List.prefix_refl _)⟩
  · obtain ⟨ht, hdurable⟩ := h.reported mark hmark
    refine ⟨htaken ht, fun k hk => ?_⟩
    rw [promise_append _ ht] at hk
    exact hdurable k hk

/-- The sink loop goes on. -/
theorem PipeInv.sink (h : s.PipeInv) {loop : SinkLoop} {k : LoopState}
    (hoffers : s.offers action = true) (hstep : loop.step s.sink action = some k) :
    ({ s with sink := k, reported := s.reported ++ reportedBy s.sink action } :
      PipeState τ).PipeInv := by
  have hframe := SinkLoop.loopFrame hstep
  have hkept : ∀ {j : ℕ}, s.Durable j → ({ s with
      sink := k, reported := s.reported ++ reportedBy s.sink action } : PipeState τ).Durable j :=
    fun hdurable => hdurable.mono (List.prefix_refl _) (List.prefix_refl _) hframe.keeps
  refine ⟨SinkLoop.inv_step h.loop hstep, ?_, h.marks, h.rows, h.upTo, fun hrunning => ?_, h.parked,
    h.out, fun mark hmark => ?_, ?_⟩
  · rw [hframe.taken]
    cases action with
    | receive command =>
      have hnext : s.engine.commands[s.sink.taken.length]? = some command :=
        of_decide_eq_true hoffers
      obtain ⟨rest, hrest⟩ := h.taken
      rw [← hrest, List.getElem?_append_right (le_refl _), Nat.sub_self] at hnext
      cases rest with
      | nil => cases hnext
      | cons first rest =>
        obtain rfl := Option.some.inj hnext
        exact ⟨rest, by rw [← hrest]; simp [LoopAction.received]⟩
    | start | complete | account | close | execute | leave =>
      simp only [LoopAction.received, List.append_nil]
      exact h.taken
  · obtain ⟨htidy, hcount, hbehind⟩ := h.flows hrunning
    exact ⟨htidy, hcount, hbehind⟩
  · obtain hold | hnew := List.mem_append.mp hmark
    · obtain ⟨ht, hdurable⟩ := h.reported mark hold
      exact ⟨ht, fun j hj => hkept (hdurable j hj)⟩
    · -- the barrier is the last command taken, and nothing is open
      cases action with
      | execute truncated =>
        simp only [reportedBy] at hnew
        split at hnew
        · next m hphase =>
          obtain rfl := List.mem_singleton.mp hnew
          have hopen : s.sink.inflight = [] := by
            simp only [SinkLoop.step, hphase] at hstep
            split at hstep
            · assumption
            · cases hstep
          have hlast := h.loop.barrier _ hphase
          obtain ⟨front, hfront⟩ := List.getLast?_eq_some_iff.mp hlast
          obtain ⟨rest, hrest⟩ := h.taken
          obtain ⟨ht, hout⟩ := h.out front mark rest (by rw [← hrest, hfront]; simp)
          refine ⟨ht, fun j hj => hkept ?_⟩
          obtain ⟨row, hrow, hupTo⟩ := hout j hj
          refine ⟨row, hrow, ?_, fun op hop => ?_⟩
          · obtain ⟨later, hlater⟩ := h.rows
            have hj := (List.getElem?_eq_some_iff.mp hrow).1
            rw [← List.getElem?_map, ← hlater, List.getElem?_append_left (by rwa [List.length_map]),
              List.getElem?_map, hrow, Option.map_some]
          · have hput := (h.upTo row (List.mem_of_getElem? hrow)).2
            refine ⟨front.length, ?_, ?_, SinkLoop.settled_of_drained h.loop hphase hopen _⟩
            · rw [hfront, List.length_append]
              exact Nat.le_add_right _ _
            · rw [hfront, List.take_left]
              exact hupTo.subset (hput.subset hop)
        · cases hnew
      | start | complete | account | receive | close | leave => cases hnew
  · change k.loadDone = (s.reported ++ reportedBy s.sink action).getLast?.getD 0
    rw [hframe.loadDone, h.last, List.getLast?_append]
    cases (reportedBy s.sink action).getLast? <;> rfl

/-- The engine hands something over, and a mark only behind its rows. -/
theorem PipeInv.advance (h : s.PipeInv) {e : EngineState} {written : List WrittenRow}
    {mark : Option ℕ} (hsends : s.engine.Sends e mark)
    (hmark : ∀ m, mark = some m → s.Taken m ∧ s.promise m ≤ s.written.length)
    (hrows : (s.written ++ written).map WrittenRow.row <+: s.sent.map Prod.snd)
    (hwritten : ∀ row ∈ written, row.upTo = e.putOut ∧ row.out <:+ e.putOut)
    (hparked : ∀ m, e.pendingMark = some m →
      s.Taken m ∧ s.promise m ≤ s.written.length + written.length)
    (hflows : (∀ result, e.phase ≠ .ended result) →
      ({ s with engine := e, written := s.written ++ written } : PipeState τ).Flows) :
    ({ s with engine := e, written := s.written ++ written } : PipeState τ).PipeInv := by
  obtain ⟨more, hmore, hnone⟩ := hsends.commands
  have hgrown : s.written <+: s.written ++ written := List.prefix_append _ _
  refine ⟨h.loop, h.taken.trans (hmore ▸ List.prefix_append _ _), h.marks, hrows, fun row hrow => ?_, hflows,
    fun m hm => ?_, fun pre m post hsplit => ?_, fun m hm => ?_, h.last⟩
  · obtain hold | hnew := List.mem_append.mp hrow
    · exact ⟨(h.upTo row hold).1.trans hsends.putOut, (h.upTo row hold).2⟩
    · obtain ⟨hupTo, hout⟩ := hwritten row hnew
      rw [hupTo]
      exact ⟨List.prefix_refl _, hout⟩
  · obtain ⟨ht, hle⟩ := hparked m hm
    exact ⟨ht, by rw [List.length_append]; exact hle⟩
  · change e.commands = _ at hsplit
    rw [hmore] at hsplit
    have hcases : mark = some m ∧ pre = s.engine.commands ++ more ∨
        ∃ post', s.engine.commands = pre ++ .loadMark m :: post' := by
      have hold : ∀ post', s.engine.commands ++ more = pre ++ .loadMark m :: post' →
          ∃ post', s.engine.commands = pre ++ .loadMark m :: post' := fun post' hfront => by
        refine split_of_not_mem hfront fun hmem => ?_
        rw [← mem_marksIn, hnone] at hmem
        exact List.not_mem_nil hmem
      cases mark with
      | none =>
        rw [Option.map_none, Option.toList_none, List.append_nil] at hsplit
        exact .inr (hold post hsplit)
      | some last =>
        rw [Option.map_some, Option.toList_some, ← List.append_assoc] at hsplit
        obtain ⟨hlast, hpre⟩ | ⟨post', hfront⟩ := split_concat hsplit
        · cases hlast
          exact .inl ⟨rfl, hpre⟩
        · exact .inr (hold post' hfront)
    obtain ⟨hlast, rfl⟩ | ⟨post', hpost⟩ := hcases
    · obtain ⟨ht, hle⟩ := hmark m hlast
      have hflushed := hsends.flushed (by rw [hlast]; rfl)
      refine ⟨ht, fun k hk => ?_⟩
      have hlt : k < s.written.length := lt_of_lt_of_le hk hle
      refine ⟨s.written[k], ?_, ?_⟩
      · rw [List.getElem?_append_left hlt, List.getElem?_eq_getElem hlt]
      · -- nothing is left in the buffer, so everything put out is handed over
        have hall := (h.upTo _ (List.getElem_mem hlt)).1.trans hsends.putOut
        rw [EngineState.putOut, hflushed, hmore, hlast, List.map_nil, List.append_nil,
          ← List.append_assoc] at hall
        have hsame := @opsIn_push (.loadMark m) (s.engine.commands ++ more) rfl
        exact hsame ▸ hall
    · obtain ⟨ht, hout⟩ := h.out pre m post' hpost
      exact ⟨ht, hout.mono rfl hgrown⟩
  · obtain ⟨ht, hdurable⟩ := h.reported m hm
    exact ⟨ht, fun k hk => (hdurable k hk).stays hgrown (List.prefix_refl _) rfl⟩

end PipeState

variable {action : EngineAction}

namespace Engine

variable {engine : Engine} {e e' : EngineState}

/-- The engine ends with what it had handed over and held. -/
theorem ended_frame {result : Except CoreError Unit} (hbeside : action.besideLoads = true)
    (hstep : engine.step e action = some e') (hended : e'.phase = .ended result) :
    e'.commands = e.commands ∧ e'.buffer = e.buffer ∧ e'.pendingMark = e.pendingMark ∧
      engine.writtenRow e e' action = [] := by
  have hnone : engine.writtenRow e e' action = [] := by
    rw [writtenRow]
    intro _ _ _ _ _ _ _ _ _ hwriting
    rw [hended] at hwriting
    cases hwriting
  suffices hsame : e'.commands = e.commands ∧ e'.buffer = e.buffer ∧
      e'.pendingMark = e.pendingMark from ⟨hsame.1, hsame.2.1, hsame.2.2, hnone⟩
  cases action with
  | feedCopy event => cases hbeside
  | turn settings held heldAgain overdue =>
    simp only [step] at hstep
    split at hstep
    · next hidle =>
      obtain ⟨⟨⟨origin, ev⟩, taken⟩, htake, rfl⟩ := Option.map_eq_some_iff.mp hstep
      obtain ⟨hphase, -⟩ := EngineState.pending_of_takeEvent hidle htake
      cases ev with
      | row change => cases hended
      | commit lsn =>
        rw [handle, EngineState.phase_commit, hphase] at hended
        cases hended
      | loadMark mark =>
        rw [handle, (EngineState.mark_frame mark taken).2.2.2.1, hphase] at hended
        cases hended
      | tableTruncated table version =>
        rw [handle, (EngineState.pending_truncate engine table version taken).2, hphase] at hended
        cases hended
      | begin | loadStarted | loadFinished | schemaDrift =>
        exact absurd (hphase.symm.trans hended) EnginePhase.noConfusion
    · cases hstep
  | gather held =>
    simp only [step] at hstep
    split at hstep
    · split at hstep
      · split at hstep <;> cases hstep <;> cases hended
      · cases hstep
        cases hended
    · cases hstep
  | write =>
    simp only [step] at hstep
    split at hstep
    · split at hstep
      · cases hstep
        cases hended
      · cases hstep
        exact ⟨rfl, rfl, rfl⟩
    · cases hstep
      cases hended
    · cases hstep
  | feed | fetch | closeEvents | closeCopy | shutdown =>
    simp only [step] at hstep
    split at hstep <;> cases hstep
    all_goals exact ⟨rfl, rfl, rfl⟩
  | sinkGone =>
    cases hstep
    exact ⟨rfl, rfl, rfl⟩

/-- It does not run again. -/
theorem running_of_step (hstep : engine.step e action = some e')
    (hrunning : ∀ result, e'.phase ≠ .ended result) (result : Except CoreError Unit) :
    e.phase ≠ .ended result := by
  intro hended
  cases action <;> simp only [step, hended, reduceCtorEq] at hstep
  case feed | feedCopy =>
    split at hstep
    · cases hstep
      exact hrunning result rfl
    · cases hstep
  case sinkGone =>
    cases hstep
    exact hrunning _ rfl

end Engine

namespace PipeState

variable {τ : Type} {s s' : PipeState τ}

/-- The engine goes on, or the stream sends something. -/
theorem PipeInv.engine (h : s.PipeInv) {engine : Engine} {e : EngineState}
    (hbeside : action.besideLoads = true) (hstep : engine.step s.engine action = some e) :
    ({ s with engine := e, written := s.written ++ engine.writtenRow s.engine e action } :
      PipeState τ).PipeInv := by
  by_cases hended : ∃ result, e.phase = .ended result
  · obtain ⟨result, hresult⟩ := hended
    obtain ⟨hcommands, hbuffer, hheld, hnone⟩ := Engine.ended_frame hbeside hstep hresult
    rw [hnone]
    exact h.advance (.of_eq hcommands (by rw [hbuffer])) nofun (by rw [List.append_nil]; exact h.rows)
      (fun _ hrow => absurd hrow List.not_mem_nil) (fun m hm => h.parked m (hheld ▸ hm))
      fun hrunning => absurd hresult (hrunning result)
  · rw [not_exists] at hended
    obtain ⟨htidy, hsent, hbehind⟩ := h.flows (Engine.running_of_step hstep hended)
    obtain ⟨hcopy, htidy'⟩ := Engine.copyStep htidy hbeside hstep hended
    have hrest : ∀ {first : List ChangeEvent}, s.engine.pending .copy = first ++ e.pending .copy →
        ∀ pre m post, e.pending .copy = pre ++ .loadMark m :: post →
          s.Taken m ∧ s.promise m ≤ s.written.length + (rowsIn first + rowsIn pre) := by
      intro first hfirst pre m post hsplit
      rw [← rowsIn_append]
      exact hbehind (first ++ pre) m post (by rw [hfirst, hsplit, List.append_assoc])
    have hmarked : ∀ {mark : ℕ}, s.engine.pending .copy = .loadMark mark :: e.pending .copy →
        ({ s with engine := e, written := s.written ++ [] } : PipeState τ).Flows := by
      intro mark hpending
      rw [← List.singleton_append] at hpending
      rw [List.append_nil]
      refine ⟨htidy', ?_, fun pre m post hsplit => ?_⟩
      · rw [← hsent, hpending, List.filterMap_append]
        rfl
      · have hall := hrest hpending pre m post hsplit
        rw [show rowsIn [ChangeEvent.loadMark mark] = 0 from rfl, Nat.zero_add] at hall
        exact hall
    generalize engine.writtenRow s.engine e action = news at hcopy ⊢
    cases hcopy with
    | elsewhere handled hpending hevents hreleases =>
      have hzero : rowsIn handled = 0 := rowsIn_of_none fun ev hev => (hevents ev hev).1
      have hflows : ({ s with engine := e, written := s.written ++ [] } : PipeState τ).Flows := by
        rw [List.append_nil]
        have hnothing : handled.filterMap ChangeEvent.rowOf = [] := List.length_eq_zero_iff.mp hzero
        refine ⟨htidy', ?_, fun pre m post hsplit => ?_⟩
        · rw [← hsent, hpending, List.filterMap_append, hnothing, List.nil_append]
        · have hall := hrest hpending pre m post hsplit
          rw [hzero, Nat.zero_add] at hall
          exact hall
      obtain ⟨hsends, hheld⟩ | ⟨mark, hsends, hheld, hnone⟩ := hreleases
      · exact h.advance hsends nofun hflows.written (fun _ hrow => absurd hrow List.not_mem_nil)
          (fun m hm => h.parked m (hheld ▸ hm)) fun _ => hflows
      · refine h.advance hsends (fun m hm => ?_) hflows.written
          (fun _ hrow => absurd hrow List.not_mem_nil) (fun m hm => ?_) fun _ => hflows
        · obtain rfl := Option.some.inj hm
          exact h.parked mark hheld
        · rw [hnone] at hm
          cases hm
    | row written hpending hupTo hout hsends hheld =>
      rw [← List.singleton_append] at hpending
      have hone : rowsIn [ChangeEvent.row written.row] = 1 := rfl
      have hflows : ({ s with engine := e, written := s.written ++ [written] } : PipeState τ).Flows := by
        refine ⟨htidy', ?_, fun pre m post hsplit => ?_⟩
        · rw [← hsent, hpending, List.filterMap_append, List.map_append, List.append_assoc]
          rfl
        · obtain ⟨ht, hle⟩ := hrest hpending pre m post hsplit
          refine ⟨ht, ?_⟩
          rw [List.length_append, List.length_singleton, Nat.add_assoc]
          exact hone ▸ hle
      refine h.advance hsends nofun hflows.written (fun row hrow => ?_) (fun m hm => ?_)
        fun _ => hflows
      · exact List.mem_singleton.mp hrow ▸ ⟨hupTo, hout⟩
      · obtain ⟨ht, hle⟩ := h.parked m (hheld ▸ hm)
        exact ⟨ht, hle.trans (Nat.le_add_right _ _)⟩
    | parked mark hpending _ _ hheld hcommands hbuffer =>
      have hflows := hmarked hpending
      refine h.advance (.of_eq hcommands (by rw [hbuffer])) nofun hflows.written
        (fun _ hrow => absurd hrow List.not_mem_nil) (fun m hm => ?_) fun _ => hflows
      obtain rfl : mark = m := Option.some.inj (hheld.symm.trans hm)
      exact hbehind [] mark _ hpending
    | passed mark hpending _ _ hsends hheld =>
      have hflows := hmarked hpending
      refine h.advance hsends (fun m hm => ?_) hflows.written
        (fun _ hrow => absurd hrow List.not_mem_nil) (fun m hm => h.parked m (hheld ▸ hm))
        fun _ => hflows
      obtain rfl := Option.some.inj hm
      exact hbehind [] mark _ hpending

end PipeState

namespace Pipeline

open PipeState

variable {p : Pipeline} {τ : Type} {s s' : PipeState τ}

theorem feedCopy_eq {ev : ChangeEvent} {t : PipeState τ} (h : p.feedCopy s ev = some t) :
    t = { s with engine := { s.engine with copy := s.engine.copy ++ [ev] } } := by
  obtain ⟨e, he, rfl⟩ := Option.map_eq_some_iff.mp h
  simp only [Engine.step] at he
  split at he
  · cases he
    rfl
  · cases he

/-- **One step of the way keeps the invariant.** -/
theorem step_inv (h : s.PipeInv) {action : PipeAction τ} (hstep : p.step s action = some s') :
    s'.PipeInv := by
  cases action with
  | row tag change =>
    obtain ⟨t, ht, rfl⟩ := Option.map_eq_some_iff.mp hstep
    rw [feedCopy_eq ht]
    exact h.feedCopy [(tag, change)] s.announced rfl nofun
  | copy event =>
    simp only [step] at hstep
    split at hstep
    · next hboundary =>
      rw [feedCopy_eq hstep]
      have hnone : [event].filterMap ChangeEvent.rowOf = [] := by
        cases event <;> first | rfl | cases hboundary
      have hmark : ∀ mark, event = .loadMark mark → s.Taken mark := by
        rintro mark rfl
        cases hboundary
      have hinv := h.feedCopy [] s.announced hnone hmark
      rw [List.append_nil] at hinv
      exact hinv
    · cases hstep
  | take =>
    cases hstep
    exact h.take
  | mark mark =>
    simp only [step] at hstep
    split at hstep
    · next htaken =>
      obtain ⟨t, ht, rfl⟩ := Option.map_eq_some_iff.mp hstep
      rw [feedCopy_eq ht]
      have hmark : ∀ m, ChangeEvent.loadMark mark = .loadMark m → s.Taken m := by
        rintro m ⟨⟩
        exact htaken
      have hinv := h.feedCopy [] (s.announced ++ [mark]) rfl hmark
      rw [List.append_nil] at hinv
      exact hinv
    · cases hstep
  | engine action =>
    simp only [step] at hstep
    split at hstep
    · next hbeside =>
      obtain ⟨e, he, rfl⟩ := Option.map_eq_some_iff.mp hstep
      exact h.engine hbeside he
    · cases hstep
  | sink action =>
    simp only [step] at hstep
    split at hstep
    · next hoffers =>
      obtain ⟨k, hk, rfl⟩ := Option.map_eq_some_iff.mp hstep
      exact h.sink hoffers hk
    · cases hstep

end Pipeline

end Pg2osync
