import Mathlib.Data.List.Basic
import Pg2osync.SinkLoop

/-!
# Acknowledgement safety

A published position stands for everything sent up to the command that carried
it. `Inv` is what the loop keeps between two awaits: the open writes are in the
order they were sent, every write taken is open or settled while the loop is
live, and whatever is published was carried by a command with nothing unsettled
before it. `acks_safe` reads the safety of the loop off it.
-/

namespace Pg2osync

/-- The write at a place of the commands is settled: the sink reported its batch
written, and every document it reported refused is durably recorded. -/
def Settled (s : LoopState) (seq : ℕ) : Prop :=
  ∃ ack, (seq, Joined.finished (.ok ack)) ∈ s.done ∧ ∀ r ∈ ack.rejected, r ∈ s.acks.recorded

/-- Every write taken before the `n`-th command is settled. -/
def SettledBefore (s : LoopState) (n : ℕ) : Prop :=
  ∀ k < n, ∀ batch, s.taken[k]? = some (.write batch) → Settled s k

/-- The `n`-th command carries a position: it is the position, or a write whose
acknowledgement it is. -/
def Carries (s : LoopState) (n : ℕ) (p : Lsn) : Prop :=
  s.taken[n]? = some (.position p) ∨
    ∃ batch ack, s.taken[n]? = some (.write batch) ∧
      (n, Joined.finished (.ok ack)) ∈ s.done ∧ ack.maxLsn = p

/-- What is published is a position above zero that some command carried, with
every write up to that command settled. -/
def PublishedSafely (s : LoopState) : Prop :=
  s.acks.ckptDone = s.acks.ackTx ∧ ∀ p, s.acks.ackTx = some p →
    0 < p ∧ ∃ n, s.acks.carrier = some n ∧ Carries s n p ∧ SettledBefore s (n + 1)

/-- What the loop keeps between two awaits. -/
structure Inv (s : LoopState) : Prop where
  /-- the open writes are in the order they were sent -/
  ordered : s.inflight.Pairwise fun a b => a.seq < b.seq
  /-- each is a write that was taken, and ended as recorded -/
  opens : ∀ w ∈ s.inflight, (∃ batch, s.taken[w.seq]? = some (.write batch)) ∧
    ∀ joined, (w.seq, joined) ∈ s.done ↔ w.outcome = some joined
  /-- a write ends once -/
  once : ∀ k j j', (k, j) ∈ s.done → (k, j') ∈ s.done → j = j'
  /-- only a write that was taken ends -/
  ended : ∀ k j, (k, j) ∈ s.done → ∃ batch, s.taken[k]? = some (.write batch)
  /-- while the loop is live, every write taken is open or settled -/
  accounted : s.phase.live = true → ∀ k batch, s.taken[k]? = some (.write batch) →
    (∃ w ∈ s.inflight, w.seq = k) ∨ Settled s k
  /-- the barrier waited for is the last command taken -/
  barrier : ∀ command, s.phase = .draining command → s.taken.getLast? = some command
  /-- before the start nothing has been taken -/
  fresh : s.phase = .starting → s.taken = []
  /-- what is published is safe -/
  published : PublishedSafely s

/-! ## Frames

Settling and carrying only look at what was taken, what has ended and what is
recorded, and all three only grow. -/

/-- `s'` extends what was taken, ended and recorded in `s`. -/
structure Extends (s s' : LoopState) : Prop where
  /-- more commands were taken -/
  taken : s.taken <+: s'.taken
  /-- more writes have ended -/
  done : ∀ d ∈ s.done, d ∈ s'.done
  /-- more documents are recorded -/
  recorded : ∀ r ∈ s.acks.recorded, r ∈ s'.acks.recorded

variable {command : SinkCommand} {s s' : LoopState}

theorem Extends.getElem? (h : Extends s s') {n : ℕ} (hn : s.taken[n]? = some command) :
    s'.taken[n]? = some command := by
  obtain ⟨rest, hrest⟩ := h.taken
  rw [← hrest, List.getElem?_append_left (List.getElem?_eq_some_iff.mp hn).1]
  exact hn

theorem Extends.settled (h : Extends s s') {k : ℕ} (hk : Settled s k) : Settled s' k := by
  obtain ⟨ack, hdone, hrecorded⟩ := hk
  exact ⟨ack, h.done _ hdone, fun r hr => h.recorded r (hrecorded r hr)⟩

theorem Extends.carries (h : Extends s s') {n : ℕ} {p : Lsn} (hn : Carries s n p) :
    Carries s' n p := by
  rcases hn with hn | ⟨batch, ack, hn, hdone, hp⟩
  · exact .inl (h.getElem? hn)
  · exact .inr ⟨batch, ack, h.getElem? hn, h.done _ hdone, hp⟩

/-- Writes before a command that was already taken are writes of both states. -/
theorem Extends.settledBefore (h : Extends s s') {n : ℕ} (hn : n ≤ s.taken.length)
    (hs : SettledBefore s n) : SettledBefore s' n := by
  intro k hk batch hbatch
  obtain ⟨rest, hrest⟩ := h.taken
  rw [← hrest, List.getElem?_append_left (by omega)] at hbatch
  exact h.settled (hs k hk batch hbatch)

theorem Carries.lt {s : LoopState} {n : ℕ} {p : Lsn} (h : Carries s n p) : n < s.taken.length := by
  rcases h with h | ⟨batch, ack, h, -⟩
  · exact (List.getElem?_eq_some_iff.mp h).1
  · exact (List.getElem?_eq_some_iff.mp h).1

/-- What is published stays safe while nothing new is. -/
theorem PublishedSafely.extend (h : Extends s s') (hs : PublishedSafely s)
    (hack : s'.acks.ackTx = s.acks.ackTx) (hckpt : s'.acks.ckptDone = s.acks.ckptDone)
    (hcarrier : s'.acks.carrier = s.acks.carrier) : PublishedSafely s' := by
  obtain ⟨heq, hsafe⟩ := hs
  refine ⟨by rw [hckpt, hack, heq], fun p hp => ?_⟩
  obtain ⟨hpos, n, hn, hcarries, hsettled⟩ := hsafe p (hack ▸ hp)
  exact ⟨hpos, n, hcarrier.trans hn, h.carries hcarries,
    h.settledBefore hcarries.lt hsettled⟩

/-! ## Accounting -/

/-- What one finished command does to the bookkeeping. -/
structure Acks.Accounts (acks acks' : Acks) (seq : ℕ) (result : Except CoreError (Option SinkAck))
    (goes : Bool) : Prop where
  /-- nothing recorded is forgotten -/
  recorded : ∀ r ∈ acks.recorded, r ∈ acks'.recorded
  /-- nothing is published, or the command's own position is and it may carry on -/
  published : (acks'.ackTx = acks.ackTx ∧ acks'.ckptDone = acks.ckptDone ∧
      acks'.carrier = acks.carrier) ∨
    ∃ ack, goes = true ∧ result = .ok (some ack) ∧ 0 < ack.maxLsn ∧
      acks'.ackTx = some ack.maxLsn ∧ acks'.ckptDone = some ack.maxLsn ∧
        acks'.carrier = some seq
  /-- the loop carries on only behind a success whose refusals are all recorded -/
  goes : goes = true → ∃ answer, result = .ok answer ∧
    ∀ ack, answer = some ack → ∀ r ∈ ack.rejected, r ∈ acks'.recorded

variable {goes : Bool} {seq : ℕ}

/-- What a command publishes is safe, if everything up to it is settled. -/
theorem PublishedSafely.account (h : Extends s s') (hs : PublishedSafely s)
    {result : Except CoreError (Option SinkAck)} (hacc : s.acks.Accounts s'.acks seq result goes)
    (hown : ∀ ack, goes = true → result = .ok (some ack) →
      Carries s' seq ack.maxLsn ∧ SettledBefore s' (seq + 1)) : PublishedSafely s' := by
  rcases hacc.published with ⟨hack, hckpt, hcarrier⟩ |
    ⟨ack, hgoes, hok, hpos, hack, hckpt, hcarrier⟩
  · exact hs.extend h hack hckpt hcarrier
  · refine ⟨hckpt.trans hack.symm, fun p hp => ?_⟩
    obtain rfl := Option.some.inj (hack.symm.trans hp)
    exact ⟨hpos, seq, hcarrier, hown ack hgoes hok⟩

theorem Acks.accounts_refl (acks : Acks) (seq : ℕ)
    (result : Except CoreError (Option SinkAck)) : acks.Accounts acks seq result false :=
  ⟨fun _ hr => hr, .inl ⟨rfl, rfl, rfl⟩, fun h => absurd h (by decide)⟩

theorem Acks.accounts_publish {acks : Acks} {ack : SinkAck}
    (h : ∀ r ∈ ack.rejected, r ∈ acks.recorded) :
    acks.Accounts (acks.publish seq ack.maxLsn) seq (.ok (some ack)) true := by
  have hgoes : ∃ answer, (Except.ok (some ack) : Except CoreError _) = .ok answer ∧
      ∀ a, answer = some a → ∀ r ∈ a.rejected, r ∈ acks.recorded := by
    refine ⟨some ack, rfl, fun a ha r hr => h r ?_⟩
    injection ha with ha
    rw [ha]
    exact hr
  rw [publish]
  split
  · next hpos =>
    exact ⟨fun _ hr => hr, .inr ⟨ack, rfl, rfl, hpos, rfl, rfl, rfl⟩, fun _ => hgoes⟩
  · exact ⟨fun _ hr => hr, .inl ⟨rfl, rfl, rfl⟩, fun _ => hgoes⟩

/-- More was recorded before the accounting than `acks` had. -/
theorem Acks.Accounts.of_recorded {acks acks₁ acks' : Acks}
    {result : Except CoreError (Option SinkAck)} (h : acks₁.Accounts acks' seq result goes)
    (hrec : ∀ r ∈ acks.recorded, r ∈ acks₁.recorded) (hack : acks₁.ackTx = acks.ackTx)
    (hckpt : acks₁.ckptDone = acks.ckptDone) (hcarrier : acks₁.carrier = acks.carrier) :
    acks.Accounts acks' seq result goes :=
  ⟨fun r hr => h.recorded r (hrec r hr),
    h.published.imp_left fun ⟨h₁, h₂, h₃⟩ => ⟨h₁.trans hack, h₂.trans hckpt, h₃.trans hcarrier⟩,
    h.goes⟩

theorem Acks.acknowledge_accounts (loop : SinkLoop) (seq : ℕ) (filed : Except CoreError Unit)
    (acks : Acks) (ack : SinkAck) :
    acks.Accounts (acks.acknowledge loop seq filed ack).2 seq (.ok (some ack))
      (acks.acknowledge loop seq filed ack).1 := by
  unfold acknowledge
  split
  · next hnone =>
    exact accounts_publish (by rw [hnone]; exact fun _ h => absurd h List.not_mem_nil)
  · split
    · exact acks.accounts_refl seq _
    · split
      · exact acks.accounts_refl seq _
      · rcases filed with e | ⟨⟩
        · exact acks.accounts_refl seq _
        · -- the refused documents are recorded first, and counted against the limit
          have hrec : ∀ r ∈ acks.recorded, r ∈ acks.recorded ++ ack.rejected :=
            fun r hr => List.mem_append_left _ hr
          simp only
          split
          · exact (accounts_refl _ seq _).of_recorded hrec rfl rfl rfl
          · exact (accounts_publish fun r hr => List.mem_append_right _ hr).of_recorded hrec
              rfl rfl rfl

/-- The spec of `Acks::apply`. -/
theorem Acks.apply_accounts (loop : SinkLoop) (seq : ℕ) (filed : Except CoreError Unit)
    (acks : Acks) (result : Except CoreError (Option SinkAck)) :
    acks.Accounts (acks.apply loop seq filed result).2 seq result
      (acks.apply loop seq filed result).1 := by
  rcases result with e | _ | ack
  · exact acks.accounts_refl seq _
  · exact ⟨fun _ hr => hr, .inl ⟨rfl, rfl, rfl⟩,
      fun _ => ⟨none, rfl, fun _ h => by cases h⟩⟩
  · exact acks.acknowledge_accounts loop seq filed ack

/-- The result a finished write is accounted for with. -/
def Joined.result : Joined → Except CoreError (Option SinkAck)
  | .finished (.ok ack) => .ok (some ack)
  | .finished (.error e) => .error e
  | .died => .error (.other "the sink task did not finish")

/-- The spec of `finish`. -/
theorem finish_accounts (loop : SinkLoop) (seq : ℕ) (filed : Except CoreError Unit) (acks : Acks)
    (joined : Joined) :
    acks.Accounts (finish loop seq filed acks joined).2 seq joined.result
      (finish loop seq filed acks joined).1 := by
  rcases joined with (e | ack) | _
  · exact Acks.apply_accounts loop seq filed acks _
  · exact Acks.apply_accounts loop seq filed acks _
  · exact acks.accounts_refl seq _

theorem Joined.result_eq_ok {joined : Joined} {answer : Option SinkAck}
    (h : joined.result = .ok answer) : ∃ ack, answer = some ack ∧ joined = .finished (.ok ack) := by
  rcases joined with (e | ack) | _
  · cases h
  · injection h with h
    exact ⟨ack, h.symm, rfl⟩
  · cases h

/-! ## The steps -/

namespace SinkLoop

variable {loop : SinkLoop} {s s' : LoopState}

theorem inv_start : Inv start := by
  refine ⟨List.Pairwise.nil, ?_, ?_, ?_, ?_, ?_, fun _ => rfl, rfl, ?_⟩
  · intro w hw
    cases hw
  · intro k j j' h
    cases h
  · intro k j h
    cases h
  · intro h
    cases h
  · intro command h
    cases h
  · intro p h
    cases h

/-- A step that only leaves a phase that is not live, and publishes nothing. -/
theorem inv_begin (hinv : Inv s) {total : ℕ} (hphase : s.phase = .starting) :
    Inv { s with phase := .receiving, acks := { s.acks with quarantined := total } } where
  ordered := hinv.ordered
  opens := hinv.opens
  once := hinv.once
  ended := hinv.ended
  accounted := by
    intro _ k batch hk
    have hk : s.taken[k]? = some (.write batch) := hk
    rw [hinv.fresh hphase] at hk
    cases hk
  barrier := by
    intro command h
    cases h
  fresh h := by cases h
  published := hinv.published

/-- Two open writes of one place among the commands are one. -/
theorem openWrite_unique (hinv : Inv s) {i j : ℕ} {v w : OpenWrite}
    (hi : s.inflight[i]? = some v) (hj : s.inflight[j]? = some w) (heq : v.seq = w.seq) : i = j := by
  obtain ⟨hilt, hi⟩ := List.getElem?_eq_some_iff.mp hi
  obtain ⟨hjlt, hj⟩ := List.getElem?_eq_some_iff.mp hj
  have hpair := List.pairwise_iff_getElem.mp hinv.ordered
  rcases Nat.lt_trichotomy i j with hlt | heq' | hgt
  · have := hpair i j hilt hjlt hlt
    rw [hi, hj] at this
    omega
  · exact heq'
  · have := hpair j i hjlt hilt hgt
    rw [hi, hj] at this
    omega

/-- **A write ends.** -/
theorem inv_complete (hinv : Inv s) {place seq : ℕ} {joined : Joined}
    (hplace : s.inflight[place]? = some ⟨seq, none⟩) :
    Inv { s with
      inflight := s.inflight.set place ⟨seq, some joined⟩
      done := (seq, joined) :: s.done } := by
  obtain ⟨hlt, hget⟩ := List.getElem?_eq_some_iff.mp hplace
  have hmem : (⟨seq, none⟩ : OpenWrite) ∈ s.inflight := List.mem_of_getElem? hplace
  obtain ⟨hwrite, houtcome⟩ := hinv.opens _ hmem
  -- the write had not ended before
  have hnew : ∀ j, (seq, j) ∉ s.done := fun j hj => by
    have := (houtcome j).mp hj
    cases this
  have hextends : Extends s { s with
      inflight := s.inflight.set place ⟨seq, some joined⟩
      done := (seq, joined) :: s.done } :=
    ⟨List.prefix_refl _, fun d hd => List.mem_cons_of_mem _ hd, fun _ hr => hr⟩
  have hseqs : (s.inflight.set place ⟨seq, some joined⟩).map OpenWrite.seq =
      s.inflight.map OpenWrite.seq := by
    have hself : (s.inflight.map OpenWrite.seq)[place]? = some seq := by
      rw [List.getElem?_map, hplace]
      rfl
    obtain ⟨hlt', hseq⟩ := List.getElem?_eq_some_iff.mp hself
    rw [List.map_set]
    exact hseq ▸ List.set_getElem_self hlt'
  refine ⟨?_, ?_, ?_, ?_, ?_, hinv.barrier, hinv.fresh, ?_⟩
  · have hpair := List.pairwise_map.mpr hinv.ordered
    rw [← hseqs] at hpair
    exact List.pairwise_map.mp hpair
  · intro w hw
    obtain ⟨i, hi⟩ := List.mem_iff_getElem?.mp hw
    rw [List.getElem?_set] at hi
    split at hi
    · injection (by simpa [hlt] using hi : some _ = some w) with hw
      rw [← hw]
      refine ⟨hwrite, fun j => ?_⟩
      simp only [List.mem_cons, Prod.mk.injEq, true_and, Option.some.injEq]
      constructor
      · rintro (rfl | hj)
        · rfl
        · exact absurd hj (hnew j)
      · rintro rfl
        exact .inl rfl
    · next hne =>
      have hold := hinv.opens w (List.mem_of_getElem? hi)
      have hseq : w.seq ≠ seq := fun heq => hne (openWrite_unique hinv hplace hi heq.symm)
      refine ⟨hold.1, fun j => ?_⟩
      rw [List.mem_cons, ← hold.2 j]
      constructor
      · rintro (h | h)
        · exact absurd (congrArg Prod.fst h) hseq
        · exact h
      · exact .inr
  · intro k j j' hj hj'
    rcases List.mem_cons.mp hj with hj | hj <;> rcases List.mem_cons.mp hj' with hj' | hj'
    · rw [(Prod.mk.inj hj).2, (Prod.mk.inj hj').2]
    · rw [(Prod.mk.inj hj).1] at hj'
      exact absurd hj' (hnew j')
    · rw [(Prod.mk.inj hj').1] at hj
      exact absurd hj (hnew j)
    · exact hinv.once k j j' hj hj'
  · intro k j hj
    rcases List.mem_cons.mp hj with hj | hj
    · rw [(Prod.mk.inj hj).1]
      exact hwrite
    · exact hinv.ended k j hj
  · intro hlive k batch hk
    rcases hinv.accounted hlive k batch hk with ⟨w, hw, rfl⟩ | hsettled
    · refine .inl ?_
      have hin : w.seq ∈ (s.inflight.set place ⟨seq, some joined⟩).map OpenWrite.seq := by
        rw [hseqs]
        exact List.mem_map_of_mem hw
      obtain ⟨w', hw', heq⟩ := List.mem_map.mp hin
      exact ⟨w', hw', heq⟩
    · exact .inr (hextends.settled hsettled)
  · exact hinv.published.extend hextends rfl rfl rfl

/-- **The oldest open write is accounted for.** Everything taken before it is
settled, because the open writes are in order. -/
theorem inv_account (hinv : Inv s) (hlive : s.phase.live = true) {joined : Joined}
    {rest : List OpenWrite} (hfront : s.inflight = ⟨seq, some joined⟩ :: rest) {acks : Acks}
    (hacc : s.acks.Accounts acks seq joined.result goes) {phase : Phase} {inflight : List OpenWrite}
    (hcase : (goes = true ∧ phase = s.phase ∧ inflight = rest) ∨
      (phase = stopped s.phase ∧ inflight = [])) :
    Inv { s with phase := phase, inflight := inflight, acks := acks } := by
  have hextends : Extends s { s with phase := phase, inflight := inflight, acks := acks } :=
    ⟨List.prefix_refl _, fun _ hd => hd, hacc.recorded⟩
  have hordered := hinv.ordered
  rw [hfront, List.pairwise_cons] at hordered
  have hsub : ∀ w ∈ inflight, w ∈ s.inflight := by
    rcases hcase with ⟨-, -, rfl⟩ | ⟨-, rfl⟩
    · intro w hw
      rw [hfront]
      exact List.mem_cons_of_mem _ hw
    · intro w hw
      cases hw
  have hfrontMem : (⟨seq, some joined⟩ : OpenWrite) ∈ s.inflight := by
    rw [hfront]
    exact List.mem_cons_self
  obtain ⟨⟨batch, hbatch⟩, houtcome⟩ := hinv.opens _ hfrontMem
  have hdone : (seq, joined) ∈ s.done := (houtcome joined).mpr rfl
  -- the write itself, when the loop carries on
  have hself : goes = true → Settled { s with phase := phase, inflight := inflight, acks := acks } seq := by
    intro hgoes
    obtain ⟨answer, hresult, hrecorded⟩ := hacc.goes hgoes
    obtain ⟨ack, rfl, rfl⟩ := Joined.result_eq_ok hresult
    exact ⟨ack, hdone, hrecorded ack rfl⟩
  -- every write before it
  have hbefore : SettledBefore s seq := by
    intro k hk batch' hbatch'
    rcases hinv.accounted hlive k batch' hbatch' with ⟨w, hw, rfl⟩ | hsettled
    · rw [hfront] at hw
      rcases List.mem_cons.mp hw with rfl | hw
      · exact absurd hk (lt_irrefl _)
      · exact absurd (hordered.1 w hw) (by simp only; omega)
    · exact hsettled
  have hseq : seq < s.taken.length := (List.getElem?_eq_some_iff.mp hbatch).1
  refine ⟨?_, fun w hw => hinv.opens w (hsub w hw), hinv.once, hinv.ended, ?_, ?_, ?_, ?_⟩
  · rcases hcase with ⟨-, -, rfl⟩ | ⟨-, rfl⟩
    · exact hordered.2
    · exact List.Pairwise.nil
  · intro hlive' k batch' hk
    rcases hcase with ⟨hgoes, rfl, rfl⟩ | ⟨rfl, -⟩
    · rcases hinv.accounted hlive k batch' hk with ⟨w, hw, rfl⟩ | hsettled
      · rw [hfront] at hw
        rcases List.mem_cons.mp hw with rfl | hw
        · exact .inr (hself hgoes)
        · exact .inl ⟨w, hw, rfl⟩
      · exact .inr (hextends.settled hsettled)
    · revert hlive'
      rcases s.phase with _ | _ | _ | _ | _ | _ <;> simp [stopped, Phase.live]
  · intro command hcommand
    rcases hcase with ⟨-, rfl, -⟩ | ⟨rfl, -⟩
    · exact hinv.barrier command hcommand
    · revert hcommand
      rcases s.phase with _ | _ | _ | _ | _ | _ <;> simp [stopped]
  · intro hstarting
    rcases hcase with ⟨-, rfl, -⟩ | ⟨rfl, -⟩
    · exact hinv.fresh hstarting
    · revert hstarting
      rcases s.phase with _ | _ | _ | _ | _ | _ <;> simp [stopped]
  · refine hinv.published.account hextends hacc fun ack hgoes hresult => ?_
    obtain ⟨ack', hack', rfl⟩ := Joined.result_eq_ok hresult
    cases hack'
    refine ⟨.inr ⟨batch, ack, hbatch, hdone, rfl⟩, fun k hk b hb => ?_⟩
    rcases Nat.lt_succ_iff_lt_or_eq.mp hk with hk | rfl
    · exact hextends.settledBefore hseq.le hbefore k hk b hb
    · exact hself hgoes

/-- A write among the commands is the new one, or was among them before. -/
theorem taken_cases {taken : List SinkCommand} {k : ℕ} {batch : List LsnOp}
    (h : (taken ++ [command])[k]? = some (.write batch)) :
    taken[k]? = some (.write batch) ∨ k = taken.length ∧ command = .write batch := by
  rcases Nat.lt_or_ge k taken.length with hlt | hge
  · exact .inl ((List.getElem?_append_left hlt).symm.trans h)
  · have hlength := (List.getElem?_eq_some_iff.mp h).1
    rw [List.length_append, List.length_singleton] at hlength
    obtain rfl : k = taken.length := by omega
    exact .inr ⟨rfl, Option.some.inj (List.getElem?_concat_length.symm.trans h)⟩

/-- **A write is taken and opened.** -/
theorem inv_receive_write (hinv : Inv s) (hphase : s.phase = .receiving) (batch : List LsnOp) :
    Inv { s with
      inflight := s.inflight ++ [⟨s.taken.length, none⟩]
      taken := s.taken ++ [.write batch] } := by
  have hextends : Extends s { s with
      inflight := s.inflight ++ [⟨s.taken.length, none⟩]
      taken := s.taken ++ [.write batch] } :=
    ⟨List.prefix_append _ _, fun _ hd => hd, fun _ hr => hr⟩
  have hlt : ∀ w ∈ s.inflight, w.seq < s.taken.length := by
    intro w hw
    obtain ⟨⟨b, hb⟩, -⟩ := hinv.opens w hw
    exact (List.getElem?_eq_some_iff.mp hb).1
  refine ⟨?_, ?_, hinv.once, ?_, ?_, ?_, ?_, hinv.published.extend hextends rfl rfl rfl⟩
  · refine List.pairwise_append.mpr ⟨hinv.ordered, List.pairwise_singleton _ _, ?_⟩
    intro w hw w' hw'
    rw [List.mem_singleton.mp hw']
    exact hlt w hw
  · intro w hw
    rcases List.mem_append.mp hw with hw | hw
    · obtain ⟨⟨b, hb⟩, houtcome⟩ := hinv.opens w hw
      exact ⟨⟨b, hextends.getElem? hb⟩, houtcome⟩
    · rw [List.mem_singleton.mp hw]
      refine ⟨⟨batch, by simp⟩, fun joined => ⟨fun hdone => ?_, fun h => by cases h⟩⟩
      -- nothing has ended at a place not taken yet
      obtain ⟨b, hb⟩ := hinv.ended _ _ hdone
      exact absurd (List.getElem?_eq_some_iff.mp hb).1 (lt_irrefl _)
  · exact fun k j hj => (hinv.ended k j hj).imp fun _ => hextends.getElem?
  · intro hlive k b hk
    rcases taken_cases hk with hk | ⟨rfl, -⟩
    · refine (hinv.accounted hlive k b hk).imp ?_ hextends.settled
      rintro ⟨w, hw, hseq⟩
      exact ⟨w, List.mem_append_left _ hw, hseq⟩
    · exact .inl ⟨_, List.mem_append_right _ (List.mem_singleton.mpr rfl), rfl⟩
  · intro command h
    have h : s.phase = .draining command := h
    rw [hphase] at h
    cases h
  · intro h
    have h : s.phase = .starting := h
    rw [hphase] at h
    cases h

/-- **A barrier is taken.** -/
theorem inv_receive_barrier (hinv : Inv s) (hphase : s.phase = .receiving)
    (hbarrier : command.isWrite = false) :
    Inv { s with phase := .draining command, taken := s.taken ++ [command] } := by
  have hextends : Extends s { s with phase := .draining command, taken := s.taken ++ [command] } :=
    ⟨List.prefix_append _ _, fun _ hd => hd, fun _ hr => hr⟩
  refine ⟨hinv.ordered, ?_, hinv.once, ?_, ?_, ?_, ?_, hinv.published.extend hextends rfl rfl rfl⟩
  · exact fun w hw => (hinv.opens w hw).imp_left (Exists.imp fun _ => hextends.getElem?)
  · exact fun k j hj => (hinv.ended k j hj).imp fun _ => hextends.getElem?
  · intro _ k b hk
    rcases taken_cases hk with hk | ⟨-, rfl⟩
    · exact (hinv.accounted (by rw [hphase]; rfl) k b hk).imp_right hextends.settled
    · -- the new command is no write
      cases hbarrier
  · intro command' h
    injection h with h
    rw [← h]
    exact List.getLast?_concat
  · intro h
    cases h

/-- A step between phases that touches nothing else and does not enter a barrier. -/
theorem inv_phase (hinv : Inv s) {phase : Phase} (hlive : phase.live = true → s.phase.live = true)
    (hdraining : ∀ command, phase ≠ .draining command) (hstarting : phase ≠ .starting) :
    Inv { s with phase := phase } where
  ordered := hinv.ordered
  opens := hinv.opens
  once := hinv.once
  ended := hinv.ended
  accounted h := hinv.accounted (hlive h)
  barrier command h := absurd h (hdraining command)
  fresh h := absurd h hstarting
  published := hinv.published

/-- When a barrier is carried out, every write taken is settled. -/
theorem settled_of_drained (hinv : Inv s) (hphase : s.phase = .draining command)
    (hopen : s.inflight = []) (n : ℕ) : SettledBefore s n := by
  intro k _ batch hk
  rcases hinv.accounted (by rw [hphase]; rfl) k batch hk with ⟨w, hw, -⟩ | hsettled
  · rw [hopen] at hw
    cases hw
  · exact hsettled

/-- **A barrier is carried out.** -/
theorem inv_execute (hinv : Inv s) (hphase : s.phase = .draining command) (hopen : s.inflight = [])
    {acks : Acks} {result : Except CoreError (Option SinkAck)}
    (hacc : s.acks.Accounts acks (s.taken.length - 1) result goes)
    (hresult : ∀ ack, result = .ok (some ack) → command = .position ack.maxLsn) (loadDone : ℕ) :
    Inv { s with
      phase := if goes then .receiving else .halted
      acks := acks
      loadDone := loadDone } := by
  have hextends : Extends s { s with
      phase := if goes then .receiving else .halted
      acks := acks
      loadDone := loadDone } :=
    ⟨List.prefix_refl _, fun _ hd => hd, hacc.recorded⟩
  have hlive : s.phase.live = true := by rw [hphase]; rfl
  refine ⟨hinv.ordered, hinv.opens, hinv.once, hinv.ended, ?_, ?_, ?_, ?_⟩
  · exact fun _ k batch hk => (hinv.accounted hlive k batch hk).imp_right hextends.settled
  · intro command' h
    rcases goes <;> cases h
  · intro h
    rcases goes <;> cases h
  · refine hinv.published.account hextends hacc fun ack _ hok => ?_
    have hlast := hinv.barrier command hphase
    rw [hresult ack hok, List.getLast?_eq_getElem?] at hlast
    exact ⟨.inl hlast, fun k hk batch hbatch =>
      hextends.settled (settled_of_drained hinv hphase hopen _ k hk batch hbatch)⟩

/-- The spec of `execute`, for a barrier. -/
theorem execute_accounts (loop : SinkLoop) (s : LoopState) (seq : ℕ)
    (truncated : Except CoreError Unit) (hbarrier : command.isWrite = false) :
    ∃ (acks : Acks) (goes : Bool) (result : Except CoreError (Option SinkAck)) (loadDone : ℕ),
      loop.execute s seq truncated command = { s with
        phase := if goes then .receiving else .halted, acks := acks, loadDone := loadDone } ∧
      s.acks.Accounts acks seq result goes ∧
      ∀ ack, result = .ok (some ack) → command = .position ack.maxLsn := by
  cases command with
  | write batch => cases hbarrier
  | position lsn =>
    exact ⟨_, _, _, s.loadDone, rfl,
      Acks.apply_accounts loop seq (.ok ()) s.acks (.ok (some (SinkAck.written lsn))),
      fun ack h => by cases h; rfl⟩
  | loadMark mark =>
    exact ⟨_, _, _, mark, rfl, Acks.apply_accounts loop seq (.ok ()) s.acks (.ok none),
      fun ack h => by cases h⟩
  | truncate index version only =>
    exact ⟨_, _, _, s.loadDone, rfl,
      Acks.apply_accounts loop seq (.ok ()) s.acks (truncated.map fun _ => none),
      fun ack h => by rcases truncated with e | _ <;> cases h⟩

variable {action : LoopAction}

/-- **The step lemma.** One case for each action. -/
theorem inv_step (hinv : Inv s) (hstep : loop.step s action = some s') : Inv s' := by
  cases does hstep with
  | counted hphase => exact inv_begin hinv hphase
  | uncounted | left =>
    exact inv_phase hinv (fun h => by cases h) (fun _ h => by cases h) (fun h => by cases h)
  | completed hplace => exact inv_complete hinv hplace
  | accounted hlive hfront hgoes =>
    exact inv_account hinv hlive hfront (finish_accounts loop _ _ _ _) (.inl ⟨hgoes, rfl, rfl⟩)
  | failed hlive hfront =>
    exact inv_account hinv hlive hfront (finish_accounts loop _ _ _ _) (.inr ⟨rfl, rfl⟩)
  | opened hphase => exact inv_receive_write hinv hphase _
  | parked hphase hbarrier => exact inv_receive_barrier hinv hphase hbarrier
  | closed hphase =>
    exact inv_phase hinv (fun _ => by rw [hphase]; rfl) (fun _ h => by cases h)
      (fun h => by cases h)
  | @executed truncated command hphase hopen =>
    cases hwrite : command.isWrite with
    | true =>
      cases command with
      | write batch => exact hinv
      | position | truncate | loadMark => cases hwrite
    | false =>
      obtain ⟨acks, goes, result, loadDone, heq, hacc, hresult⟩ :=
        execute_accounts loop s (s.taken.length - 1) truncated hwrite
      exact heq ▸ inv_execute hinv hphase hopen hacc hresult loadDone

/-- What a step of the loop adds to its history: a command it takes, or a write
that ends. -/
theorem step_history (hstep : loop.step s action = some s') :
    (s'.taken = s.taken ∨ ∃ command, action = .receive command ∧
      s'.taken = s.taken ++ [command]) ∧
    (s'.done = s.done ∨ ∃ place joined seq, action = .complete place joined ∧
      s.inflight[place]? = some ⟨seq, none⟩ ∧ s'.done = (seq, joined) :: s.done) := by
  cases does hstep with
  | counted | uncounted | accounted | failed | closed | left => exact ⟨.inl rfl, .inl rfl⟩
  | completed hplace => exact ⟨.inl rfl, .inr ⟨_, _, _, rfl, hplace, rfl⟩⟩
  | opened | parked => exact ⟨.inr ⟨_, rfl, rfl⟩, .inl rfl⟩
  | @executed truncated command => cases command <;> exact ⟨.inl rfl, .inl rfl⟩

/-- **The run lemma.** -/
theorem inv_of_reachable (h : loop.system.Reachable s) : Inv s :=
  h.invariant (fun _ hs => hs ▸ inv_start) fun _ _ _ hinv hstep => inv_step hinv hstep

/-! ## Safety -/

/-- Whether the loop has stopped, behind a failure or at the end. -/
def Stopped (s : LoopState) : Prop :=
  s.phase = .halted ∨ s.phase = .ended

theorem Stopped.not_live (hs : Stopped s) : s.phase.live = false := by
  rcases hs with hs | hs <;> rw [hs] <;> rfl

/-- A stopped loop stays stopped and publishes nothing: all that can still
happen is that an open write ends. -/
theorem Stopped.step (hs : Stopped s) (hstep : loop.step s action = some s') :
    Stopped s' ∧ s'.acks.ackTx = s.acks.ackTx ∧ s'.acks.ckptDone = s.acks.ckptDone := by
  have hdead := hs.not_live
  cases does hstep with
  | completed => exact ⟨hs, rfl, rfl⟩
  | accounted hlive | failed hlive => cases hdead.symm.trans hlive
  | counted hphase | uncounted hphase => rcases hs with hs | hs <;> cases hs.symm.trans hphase
  | opened hphase | parked hphase | closed hphase | executed hphase | left hphase =>
    rw [hphase] at hdead
    cases hdead

/-- A failure as the loop accounts for it: a write it may not carry on behind, a
truncate the target refuses, a quarantine that cannot be counted. -/
def Fails (loop : SinkLoop) (s : LoopState) : LoopAction → Prop
  | .start listed => loop.policy = .quarantine ∧ ∃ e, listed = .error e
  | .account filed => ∃ seq joined rest, s.inflight = ⟨seq, some joined⟩ :: rest ∧
      (finish loop seq filed s.acks joined).1 = false
  | .execute truncated => ∃ index version only e,
      s.phase = .draining (.truncate index version only) ∧ truncated = .error e
  | _ => False

/-- A write that ended in a failure is one the loop may not carry on behind. -/
theorem finish_of_failed {joined : Joined} (hfailed : joined.Failed) (seq : ℕ)
    (filed : Except CoreError Unit) (acks : Acks) :
    (finish loop seq filed acks joined).1 = false := by
  rcases joined with (e | ack) | _
  · rfl
  · exact absurd hfailed id
  · rfl

/-- A failure stops the loop. -/
theorem stopped_of_fails (hfails : Fails loop s action) (hstep : loop.step s action = some s') :
    Stopped s' := by
  cases does hstep with
  | counted _ hcounts =>
    obtain ⟨hpolicy, e, rfl⟩ := hfails
    cases hcounts hpolicy
  | uncounted => exact .inr rfl
  | accounted _ hfront hgoes =>
    obtain ⟨seq, joined, rest, hfront', hfails⟩ := hfails
    cases hfront.symm.trans hfront'
    cases hgoes.symm.trans hfails
  | failed => cases s.phase <;> simp [Stopped, stopped]
  | executed hphase =>
    obtain ⟨index, version, only, e, hphase', rfl⟩ := hfails
    cases hphase.symm.trans hphase'
    exact .inl rfl
  | completed | opened | parked | closed | left => exact absurd hfails id

/-- **Acknowledgement safety.** In every state the loop can reach, whatever the
commands, the outcomes of the writes and the order they end in:

* a position that is published is above zero and was carried by some command,
  and every write up to that command is settled;
* a write that ended in a failure is one the loop may not carry on behind, and
  already before that no position is published at or after it;
* a failure stops the loop, and a stopped loop never publishes again;
* a barrier that is carried out finds every write taken ahead of it settled. -/
theorem acks_safe (h : loop.system.Reachable s) :
    (∀ p, s.acks.ackTx = some p ∨ s.acks.ckptDone = some p →
        0 < p ∧ ∃ n, s.acks.carrier = some n ∧ Carries s n p ∧ SettledBefore s (n + 1)) ∧
      (∀ k joined, (k, joined) ∈ s.done → joined.Failed →
        (∀ filed, (finish loop k filed s.acks joined).1 = false) ∧
          ∀ p n, s.acks.ackTx = some p → s.acks.carrier = some n → n < k) ∧
      (∀ action s', Fails loop s action → loop.step s action = some s' → Stopped s') ∧
      (Stopped s → ∀ s', loop.system.Later s s' →
        s'.acks.ackTx = s.acks.ackTx ∧ s'.acks.ckptDone = s.acks.ckptDone) ∧
      ∀ truncated s', loop.step s (.execute truncated) = some s' →
        SettledBefore s s.taken.length := by
  have hinv := inv_of_reachable h
  obtain ⟨heq, hsafe⟩ := hinv.published
  refine ⟨fun p hp => hsafe p (hp.elim id fun hp => heq ▸ hp), ?_, ?_, ?_, ?_⟩
  · intro k joined hdone hfailed
    refine ⟨fun filed => finish_of_failed hfailed k filed s.acks, fun p n hp hn => ?_⟩
    by_contra hle
    obtain ⟨-, n', hn', -, hsettled⟩ := hsafe p hp
    have hnn : n = n' := Option.some.inj (hn.symm.trans hn')
    obtain ⟨batch, hbatch⟩ := hinv.ended k joined hdone
    obtain ⟨ack, hok, -⟩ := hsettled k (by omega) batch hbatch
    rw [hinv.once k joined _ hdone hok] at hfailed
    exact hfailed
  · intro action s' hfails hstep
    exact stopped_of_fails hfails hstep
  · intro hstopped s' hlater
    let Frame (t : LoopState) : Prop :=
      Stopped t ∧ t.acks.ackTx = s.acks.ackTx ∧ t.acks.ckptDone = s.acks.ckptDone
    have hframe : Frame s' := by
      refine hlater.invariant ⟨hstopped, rfl, rfl⟩ fun t _ t' ⟨ht, hack, hckpt⟩ hstep => ?_
      obtain ⟨ht', hack', hckpt'⟩ := ht.step hstep
      exact ⟨ht', hack'.trans hack, hckpt'.trans hckpt⟩
    exact hframe.2
  · intro truncated s' hstep
    simp only [step] at hstep
    split at hstep
    · next command hphase hopen => exact settled_of_drained hinv hphase hopen _
    · cases hstep

/-! ## A run with two open writes -/

/-- Two writes end in the other order than they were sent in. -/
def twoWrites : List LoopAction :=
  [.start (.ok 0), .receive (.write [⟨3, .delete "t" "1" none none⟩]),
    .receive (.write [⟨4, .delete "t" "2" none none⟩]),
    .complete 1 (.finished (.ok ⟨4, []⟩)), .complete 0 (.finished (.ok ⟨3, []⟩)),
    .account (.ok ()), .account (.ok ()), .receive (.position 9)]

/-- The loop's state after them, waiting to publish position 9. -/
theorem twoWrites_safe :
    ∃ s, (SinkLoop.mk .halt 0 2).system.run start twoWrites = some s ∧
      s.acks.ackTx = some 4 ∧
      (∀ truncated s', (SinkLoop.mk .halt 0 2).step s (.execute truncated) = some s' →
        SettledBefore s 3) := by
  refine ⟨_, rfl, rfl, fun truncated s' hstep => ?_⟩
  have hrun : (SinkLoop.mk .halt 0 2).system.run start twoWrites = some _ := rfl
  exact (acks_safe (Transition.System.reachable_of_run rfl hrun)).2.2.2.2 truncated s' hstep

end SinkLoop

end Pg2osync
