import Pg2osync.AckSafety

/-!
# Acknowledgement order

The loop publishes positions in the order of the commands that carry them, though writes
end in any order: the oldest open write is accounted for first, and a barrier waits for all
of them. So where the positions of the commands never decrease, what is published never
does.
-/

namespace Pg2osync

/-- What was published is behind what is open, and behind a barrier that is waited for. -/
structure PublishedBehind (s : LoopState) : Prop where
  /-- it is behind what is open -/
  opens : ∀ n, s.acks.carrier = some n → ∀ w ∈ s.inflight, n < w.seq
  /-- and behind a barrier -/
  barrier : ∀ n, s.acks.carrier = some n → ∀ command, s.phase = .draining command →
    n + 1 < s.taken.length
  /-- it was taken -/
  taken : ∀ n, s.acks.carrier = some n → n < s.taken.length
  /-- no write is waited for as a barrier -/
  waits : ∀ command, s.phase = .draining command → command.isWrite = false

/-- The positions of the commands never decrease, in the order they were taken in. -/
def Ascending (s : LoopState) : Prop :=
  ∀ n m p q, n ≤ m → Carries s n p → Carries s m q → p ≤ q

namespace SinkLoop

variable {loop : SinkLoop} {s s' : LoopState} {action : LoopAction}

theorem carries_step (hstep : loop.step s action = some s') {n : ℕ} {p : Lsn} (h : Carries s n p) :
    Carries s' n p := by
  obtain ⟨htaken, hdone⟩ := step_history hstep
  have hget : ∀ {command}, s.taken[n]? = some command → s'.taken[n]? = some command := by
    intro command hn
    rcases htaken with heq | ⟨received, -, heq⟩
    · rw [heq]
      exact hn
    · rw [heq, List.getElem?_append_left (List.getElem?_eq_some_iff.mp hn).1]
      exact hn
  have hmem : ∀ d ∈ s.done, d ∈ s'.done := by
    intro d hd
    rcases hdone with heq | ⟨place, joined, seq, -, -, heq⟩
    · rw [heq]
      exact hd
    · rw [heq]
      exact List.mem_cons_of_mem _ hd
  rcases h with h | ⟨batch, ack, h, hended, hp⟩
  · exact .inl (hget h)
  · exact .inr ⟨batch, ack, hget h, hmem _ hended, hp⟩

theorem Ascending.of_step (hstep : loop.step s action = some s') (h : Ascending s') : Ascending s :=
  fun n m p q hle hn hm => h n m p q hle (carries_step hstep hn) (carries_step hstep hm)

/-- What a step publishes: nothing, or the position of a command past the last one. -/
def PublishesPast (s s' : LoopState) : Prop :=
  (s'.acks.ckptDone = s.acks.ckptDone ∧ s'.acks.carrier = s.acks.carrier) ∨
    ∃ m p, s'.acks.ckptDone = some p ∧ s'.acks.carrier = some m ∧
      ∀ n, s.acks.carrier = some n → n < m

theorem publishesPast_of_eq (h : s'.acks = s.acks) : PublishesPast s s' := by
  rw [PublishesPast, h]
  exact .inl ⟨rfl, rfl⟩

variable {seq : ℕ}

theorem publishesPast_of_accounts {acks : Acks} {result : Except CoreError (Option SinkAck)}
    {goes : Bool} (h : s.acks.Accounts acks seq result goes) (hacks : s'.acks = acks)
    (hpast : ∀ n, s.acks.carrier = some n → n < seq) : PublishesPast s s' := by
  rw [PublishesPast, hacks]
  rcases h.published with ⟨-, hckpt, hcarrier⟩ | ⟨ack, -, -, -, -, hckpt, hcarrier⟩
  · exact .inl ⟨hckpt, hcarrier⟩
  · exact .inr ⟨seq, _, hckpt, hcarrier, hpast⟩

/-- Whatever is accounted for keeps what is published behind what is left. -/
theorem order_of_accounts {acks : Acks} {result : Except CoreError (Option SinkAck)} {goes : Bool}
    (h : s.acks.Accounts acks seq result goes) (hacks : s'.acks = acks)
    (hbehind : PublishedBehind s) (htaken : s'.taken = s.taken) (hseq : seq < s.taken.length)
    (hpast : ∀ n, s.acks.carrier = some n → n < seq)
    (hopen : ∀ w ∈ s'.inflight, w ∈ s.inflight ∧ seq < w.seq)
    (hphase : ∀ command, s'.phase = .draining command →
      s.phase = .draining command ∧ seq + 1 < s.taken.length) :
    PublishesPast s s' ∧ PublishedBehind s' := by
  have hcarrier : ∀ n, s'.acks.carrier = some n → s.acks.carrier = some n ∨ n = seq := by
    intro n hn
    rw [hacks] at hn
    rcases h.published with ⟨-, -, heq⟩ | ⟨ack, -, -, -, -, -, heq⟩
    · exact .inl (heq ▸ hn)
    · exact .inr (Option.some.inj (hn.symm.trans heq))
  refine ⟨publishesPast_of_accounts h hacks hpast, ?_, ?_, ?_, ?_⟩
  · intro n hn w hw
    rcases hcarrier n hn with hold | rfl
    · exact hbehind.opens n hold w (hopen w hw).1
    · exact (hopen w hw).2
  · intro n hn command hcommand
    rw [htaken]
    rcases hcarrier n hn with hold | rfl
    · exact hbehind.barrier n hold command (hphase command hcommand).1
    · exact (hphase command hcommand).2
  · intro n hn
    rw [htaken]
    rcases hcarrier n hn with hold | rfl
    · exact hbehind.taken n hold
    · exact hseq
  · exact fun command hcommand => hbehind.waits command (hphase command hcommand).1

/-- A step that accounts for nothing. -/
theorem order_of_eq (hacks : s'.acks = s.acks) (hbehind : PublishedBehind s)
    (htaken : s.taken <+: s'.taken)
    (hopen : ∀ w ∈ s'.inflight, s.taken.length ≤ w.seq ∨ ∃ v ∈ s.inflight, v.seq = w.seq)
    (hphase : ∀ command, s'.phase = .draining command → command.isWrite = false ∧
      (s.phase = .draining command ∨ s'.taken.length = s.taken.length + 1)) :
    PublishesPast s s' ∧ PublishedBehind s' := by
  have hlength := htaken.length_le
  refine ⟨publishesPast_of_eq hacks, ?_, ?_, ?_, fun command h => (hphase command h).1⟩
  · intro n hn w hw
    rw [hacks] at hn
    rcases hopen w hw with hnew | ⟨v, hv, hseq⟩
    · exact (hbehind.taken n hn).trans_le hnew
    · rw [← hseq]
      exact hbehind.opens n hn v hv
  · intro n hn command hcommand
    rw [hacks] at hn
    have htook := hbehind.taken n hn
    rcases (hphase command hcommand).2 with hold | hgrown
    · exact (hbehind.barrier n hn command hold).trans_le hlength
    · omega
  · intro n hn
    rw [hacks] at hn
    exact (hbehind.taken n hn).trans_le hlength

theorem stopped_ne_draining (phase : Phase) (command : SinkCommand) :
    stopped phase ≠ .draining command := by
  intro h
  cases phase <;> cases h

/-- Where the oldest open write stands, whatever it ended in. -/
theorem front_order (hinv : Inv s) (hbehind : PublishedBehind s) {joined : Joined}
    {rest : List OpenWrite} (hfront : s.inflight = ⟨seq, some joined⟩ :: rest) :
    seq < s.taken.length ∧ (∀ n, s.acks.carrier = some n → n < seq) ∧ (∀ w ∈ rest, seq < w.seq) ∧
      ∀ command, s.phase = .draining command → seq + 1 < s.taken.length := by
  have hmem : (⟨seq, some joined⟩ : OpenWrite) ∈ s.inflight := by
    rw [hfront]
    exact List.mem_cons_self
  have hordered := hinv.ordered
  rw [hfront, List.pairwise_cons] at hordered
  obtain ⟨⟨batch, hbatch⟩, -⟩ := hinv.opens _ hmem
  have hseq : seq < s.taken.length := (List.getElem?_eq_some_iff.mp hbatch).1
  refine ⟨hseq, fun n hn => hbehind.opens n hn _ hmem, hordered.1, fun command hcommand => ?_⟩
  -- a write is no barrier, and the barrier is the last command
  by_contra hlast
  have hlast : s.taken.length - 1 = seq := by omega
  have hbarrier := hinv.barrier command hcommand
  rw [List.getLast?_eq_getElem?, hlast, hbatch] at hbarrier
  injection hbarrier with hbarrier
  have hwaits := hbehind.waits command hcommand
  rw [← hbarrier] at hwaits
  cases hwaits

/-- **The step lemma.** One case for each action. -/
theorem order_step (hinv : Inv s) (hbehind : PublishedBehind s)
    (hstep : loop.step s action = some s') : PublishesPast s s' ∧ PublishedBehind s' := by
  have hstill : ∀ {phase : Phase}, (∀ command, phase ≠ .draining command) →
      PublishesPast s { s with phase := phase } ∧ PublishedBehind { s with phase := phase } :=
    fun hphase => order_of_eq rfl hbehind (List.prefix_refl _) (fun w hw => .inr ⟨w, hw, rfl⟩)
      fun command h => absurd h (hphase command)
  cases does hstep with
  | counted =>
    refine ⟨.inl ⟨rfl, rfl⟩, hbehind.opens, fun _ _ _ h => ?_, hbehind.taken, fun _ h => ?_⟩
    · cases h
    · cases h
  | uncounted | closed | left => exact hstill fun _ h => by cases h
  | completed hplace =>
    refine order_of_eq rfl hbehind (List.prefix_refl _) (fun w hw => ?_)
      fun command h => ⟨hbehind.waits command h, .inl h⟩
    rcases List.mem_or_eq_of_mem_set hw with hw | rfl
    · exact .inr ⟨w, hw, rfl⟩
    · exact .inr ⟨_, List.mem_of_getElem? hplace, rfl⟩
  | accounted _ hfront =>
    obtain ⟨hseq, hpast, hopen, hbarrier⟩ := front_order hinv hbehind hfront
    refine order_of_accounts (finish_accounts loop _ _ _ _) rfl hbehind rfl hseq hpast
      (fun w hw => ?_) fun command h => ⟨h, hbarrier command h⟩
    exact ⟨by rw [hfront]; exact List.mem_cons_of_mem _ hw, hopen w hw⟩
  | failed _ hfront =>
    obtain ⟨hseq, hpast, -, -⟩ := front_order hinv hbehind hfront
    exact order_of_accounts (finish_accounts loop _ _ _ _) rfl hbehind rfl hseq hpast
      (fun w hw => by cases hw) fun command h => absurd h (stopped_ne_draining s.phase command)
  | opened hphase =>
    refine order_of_eq rfl hbehind (List.prefix_append _ _) (fun w hw => ?_) fun c h => ?_
    · rcases List.mem_append.mp hw with hw | hw
      · exact .inr ⟨w, hw, rfl⟩
      · rw [List.mem_singleton.mp hw]
        exact .inl le_rfl
    · have h : s.phase = .draining c := h
      rw [hphase] at h
      cases h
  | parked _ hbarrier =>
    refine order_of_eq rfl hbehind (List.prefix_append _ _) (fun w hw => .inr ⟨w, hw, rfl⟩)
      fun c h => ⟨?_, .inr List.length_append⟩
    injection h with h
    rw [← h]
    exact hbarrier
  | @executed truncated command hphase hopen =>
    have hlast := hinv.barrier command hphase
    have hlength : 0 < s.taken.length := by
      rw [List.getLast?_eq_getElem?] at hlast
      have hlt := (List.getElem?_eq_some_iff.mp hlast).1
      omega
    have hpast : ∀ n, s.acks.carrier = some n → n < s.taken.length - 1 := by
      intro n hn
      have hlt := hbehind.barrier n hn command hphase
      omega
    obtain ⟨acks, goes, result, loadDone, heq, hacc, -⟩ :=
      execute_accounts loop s (s.taken.length - 1) truncated (hbehind.waits command hphase)
    rw [heq]
    refine order_of_accounts hacc rfl hbehind rfl (by omega) hpast (fun w hw => ?_) fun c hc => ?_
    · have hw : w ∈ s.inflight := hw
      rw [hopen] at hw
      cases hw
    · cases goes <;> cases hc

theorem publishedBehind_start : PublishedBehind start := by
  constructor
  · intro n h
    cases h
  · intro n h
    cases h
  · intro n h
    cases h
  · intro command h
    cases h

/-- **What is published never decreases** where the positions of the commands do not. -/
theorem published_mono (hinv : Inv s) (hbehind : PublishedBehind s)
    (hstep : loop.step s action = some s') (hascending : Ascending s') {p : Lsn}
    (hp : s.acks.ckptDone = some p) : ∃ q, s'.acks.ckptDone = some q ∧ p ≤ q := by
  rcases (order_step hinv hbehind hstep).1 with ⟨hckpt, -⟩ | ⟨m, q, hckpt, hcarrier, hpast⟩
  · exact ⟨p, hckpt.trans hp, le_rfl⟩
  · refine ⟨q, hckpt, ?_⟩
    obtain ⟨heq, hsafe⟩ := hinv.published
    obtain ⟨-, n, hn, hcarries, -⟩ := hsafe p (heq ▸ hp)
    obtain ⟨heq', hsafe'⟩ := (inv_step hinv hstep).published
    obtain ⟨-, m', hm', hcarries', -⟩ := hsafe' q (heq' ▸ hckpt)
    obtain rfl := Option.some.inj (hcarrier.symm.trans hm')
    exact hascending n m p q (hpast n hn).le (carries_step hstep hcarries) hcarries'

end SinkLoop

end Pg2osync
