import Mathlib.Data.List.Basic

/-!
# Runs that send

A machine takes one message after the other, sends some events for each and stops at its
first error. What a run sends is put together from its parts, a property that each step
keeps holds after the run, and what each step either sends or still owes is sent or owed
by the run.
-/

namespace Emission

variable {σ μ ε φ : Type}

/-- What a run over some messages sends, and the state or the error it ends in. -/
def run (step : σ → μ → List ε × Except φ σ) (s : σ) : List μ → List ε × Except φ σ
  | [] => ([], .ok s)
  | m :: rest =>
    match step s m with
    | (sent, .ok next) => (sent ++ (run step next rest).1, (run step next rest).2)
    | (sent, .error e) => (sent, .error e)

/-- Something happens during a run: at one of its messages, in the state it is taken in. -/
def During (step : σ → μ → List ε × Except φ σ) (happens : σ → μ → Prop) (s : σ) :
    List μ → Prop
  | [] => False
  | m :: rest => happens s m ∨ ∃ next, (step s m).2 = .ok next ∧ During step happens next rest

section Run

variable {step : σ → μ → List ε × Except φ σ} {msgs : List μ}

theorem During.imp {p q : σ → μ → Prop} (h : ∀ s m, p s m → q s m) {s : σ}
    (hp : During step p s msgs) : During step q s msgs := by
  induction msgs generalizing s with
  | nil => exact hp
  | cons m rest ih =>
    rcases hp with hp | ⟨next, hnext, hp⟩
    · exact .inl (h s m hp)
    · exact .inr ⟨next, hnext, ih hp⟩

/-- What happens for some value during a run is one value that happens. -/
theorem during_exists {α : Type} {p : α → σ → μ → Prop} {s : σ}
    (h : During step (fun s m => ∃ a, p a s m) s msgs) : ∃ a, During step (p a) s msgs := by
  induction msgs generalizing s with
  | nil => exact h.elim
  | cons m rest ih =>
    rcases h with ⟨a, ha⟩ | ⟨next, hnext, h⟩
    · exact ⟨a, .inl ha⟩
    · obtain ⟨a, ha⟩ := ih h
      exact ⟨a, .inr ⟨next, hnext, ha⟩⟩

theorem during_or {p q : σ → μ → Prop} {s : σ} (h : During step (fun s m => p s m ∨ q s m) s msgs) :
    During step p s msgs ∨ During step q s msgs := by
  induction msgs generalizing s with
  | nil => exact h.elim
  | cons m rest ih =>
    rcases h with (h | h) | ⟨next, hnext, h⟩
    · exact .inl (.inl h)
    · exact .inr (.inl h)
    · exact (ih h).imp (fun h => .inr ⟨next, hnext, h⟩) fun h => .inr ⟨next, hnext, h⟩

theorem during_of_and {p : σ → μ → Prop} {c : Prop} {s : σ}
    (h : During step (fun s m => p s m ∧ c) s msgs) : c := by
  induction msgs generalizing s with
  | nil => exact h.elim
  | cons m rest ih =>
    rcases h with ⟨-, hc⟩ | ⟨next, -, h⟩
    · exact hc
    · exact ih h

variable {first : List μ}

theorem During.append {p : σ → μ → Prop} {s : σ} (h : During step p s first) (rest : List μ) :
    During step p s (first ++ rest) := by
  induction first generalizing s with
  | nil => exact h.elim
  | cons m first ih =>
    rcases h with h | ⟨next, hnext, h⟩
    · exact .inl h
    · exact .inr ⟨next, hnext, ih h⟩

variable {step : σ → μ → List ε × Except φ σ} {s next : σ} {m : μ} {sent : List ε} {e : φ}

theorem run_cons_ok (h : step s m = (sent, .ok next)) (rest : List μ) :
    run step s (m :: rest) = (sent ++ (run step next rest).1, (run step next rest).2) := by
  rw [run, h]

theorem run_cons_error (h : step s m = (sent, .error e)) (rest : List μ) :
    run step s (m :: rest) = (sent, .error e) := by
  rw [run, h]

/-- A run that goes through goes through its first message. -/
theorem run_cons_eq_ok {rest : List μ} (h : run step s (m :: rest) = (sent, .ok next)) :
    ∃ now between more, step s m = (now, .ok between) ∧
      run step between rest = (more, .ok next) ∧ sent = now ++ more := by
  cases hstep : step s m with
  | mk now result =>
    cases result with
    | error e =>
      rw [run_cons_error hstep] at h
      cases (Prod.mk.inj h).2
    | ok between =>
      rw [run_cons_ok hstep] at h
      obtain ⟨rfl, hnext⟩ := Prod.mk.inj h
      exact ⟨now, between, _, rfl, Prod.ext rfl hnext, rfl⟩

theorem run_append_ok (h : run step s first = (sent, .ok next)) (rest : List μ) :
    run step s (first ++ rest) = (sent ++ (run step next rest).1, (run step next rest).2) := by
  induction first generalizing s sent with
  | nil =>
    obtain ⟨rfl, hnext⟩ := Prod.mk.inj h
    obtain rfl := Except.ok.inj hnext
    rfl
  | cons m first ih =>
    obtain ⟨now, between, more, hstep, hrun, rfl⟩ := run_cons_eq_ok h
    rw [List.cons_append, run_cons_ok hstep, ih hrun, List.append_assoc]

theorem run_append_error (h : run step s first = (sent, .error e)) (rest : List μ) :
    run step s (first ++ rest) = (sent, .error e) := by
  induction first generalizing s sent with
  | nil => cases (Prod.mk.inj h).2
  | cons m first ih =>
    cases hstep : step s m with
    | mk now result =>
      cases result with
      | error e' =>
        rw [run_cons_error hstep] at h
        rw [List.cons_append, run_cons_error hstep, h]
      | ok between =>
        rw [run_cons_ok hstep] at h
        obtain ⟨rfl, hnext⟩ := Prod.mk.inj h
        rw [List.cons_append, run_cons_ok hstep, ih (Prod.ext rfl hnext)]

/-- A run over two parts that goes through goes through the first. -/
theorem run_append_eq_ok {first rest : List μ} (h : run step s (first ++ rest) = (sent, .ok next)) :
    ∃ now between more, run step s first = (now, .ok between) ∧
      run step between rest = (more, .ok next) ∧ sent = now ++ more := by
  cases hfirst : run step s first with
  | mk now result =>
    cases result with
    | error e =>
      rw [run_append_error hfirst] at h
      cases (Prod.mk.inj h).2
    | ok between =>
      rw [run_append_ok hfirst] at h
      obtain ⟨rfl, hnext⟩ := Prod.mk.inj h
      exact ⟨now, between, _, rfl, Prod.ext rfl hnext, rfl⟩

/-- What every step keeps holds after a run in which nothing happens that would break it. -/
theorem run_keeps_unless (good : σ → Prop) {breaks : σ → μ → Prop}
    (hstep : ∀ m ∈ msgs, ∀ s sent next, good s → ¬breaks s m → step s m = (sent, .ok next) →
      good next) (hs : good s) (hbreaks : ¬During step breaks s msgs)
    (h : run step s msgs = (sent, .ok next)) : good next := by
  induction msgs generalizing s sent with
  | nil =>
    obtain rfl := Except.ok.inj (Prod.mk.inj h).2
    exact hs
  | cons m rest ih =>
    obtain ⟨now, between, more, hnow, hrun, -⟩ := run_cons_eq_ok h
    have hnext := hstep m List.mem_cons_self s now between hs (fun hm => hbreaks (.inl hm)) hnow
    exact ih (fun m hm => hstep m (List.mem_cons_of_mem _ hm)) hnext
      (fun hrest => hbreaks (.inr ⟨between, by rw [hnow], hrest⟩)) hrun

/-- What holds of all that a step sends holds of all that a run sends. -/
theorem run_sends_unless (good : σ → Prop) {breaks : σ → μ → Prop} {fine : ε → Prop}
    (hstep : ∀ m ∈ msgs, ∀ s sent next, good s → ¬breaks s m → step s m = (sent, .ok next) →
      good next) (hfine : ∀ m ∈ msgs, ∀ s, good s → ¬breaks s m → ∀ e ∈ (step s m).1, fine e)
    (hs : good s) (hbreaks : ¬During step breaks s msgs) : ∀ e ∈ (run step s msgs).1, fine e := by
  induction msgs generalizing s with
  | nil => exact fun e he => absurd he List.not_mem_nil
  | cons m rest ih =>
    intro e he
    have hm : ¬breaks s m := fun hm => hbreaks (.inl hm)
    have hsent := hfine m List.mem_cons_self s hs hm
    cases hnow : step s m with
    | mk now result =>
      rw [hnow] at hsent
      cases result with
      | error e' =>
        rw [run_cons_error hnow] at he
        exact hsent e he
      | ok between =>
        rw [run_cons_ok hnow] at he
        rcases List.mem_append.mp he with he | he
        · exact hsent e he
        · exact ih (fun m hm => hstep m (List.mem_cons_of_mem _ hm))
            (fun m hm => hfine m (List.mem_cons_of_mem _ hm))
            (hstep m List.mem_cons_self s now between hs hm hnow)
            (fun hrest => hbreaks (.inr ⟨between, by rw [hnow], hrest⟩)) e he

theorem not_during_false (step : σ → μ → List ε × Except φ σ) (s : σ) (msgs : List μ) :
    ¬During step (fun _ _ => False) s msgs := by
  induction msgs generalizing s with
  | nil => exact id
  | cons m rest ih =>
    rintro (h | ⟨next, -, h⟩)
    · exact h
    · exact ih next h

/-- What every step keeps holds after a run. -/
theorem run_keeps (good : σ → Prop)
    (hstep : ∀ m ∈ msgs, ∀ s sent next, good s → step s m = (sent, .ok next) → good next)
    (hs : good s) (h : run step s msgs = (sent, .ok next)) : good next :=
  run_keeps_unless good (fun m hm s sent next hs _ => hstep m hm s sent next hs) hs
    (not_during_false step s msgs) h

/-- What every step sends is sent by a run. -/
theorem run_sends (good : σ → Prop) {fine : ε → Prop}
    (hstep : ∀ m ∈ msgs, ∀ s sent next, good s → step s m = (sent, .ok next) → good next)
    (hfine : ∀ m ∈ msgs, ∀ s, good s → ∀ e ∈ (step s m).1, fine e) (hs : good s) :
    ∀ e ∈ (run step s msgs).1, fine e :=
  run_sends_unless good (fun m hm s sent next hs _ => hstep m hm s sent next hs)
    (fun m hm s hs _ => hfine m hm s hs) hs (not_during_false step s msgs)

/-- What a step sends or still owes, once it is owed or has happened, is sent or owed by a
run in which it does. -/
theorem run_settles (owed : σ → Prop) {happens : σ → μ → Prop} (fits : ε → Prop)
    (hstep : ∀ m ∈ msgs, ∀ s sent next, step s m = (sent, .ok next) → owed s ∨ happens s m →
      (∃ e ∈ sent, fits e) ∨ owed next) (h : run step s msgs = (sent, .ok next))
    (howed : owed s ∨ During step happens s msgs) : (∃ e ∈ sent, fits e) ∨ owed next := by
  induction msgs generalizing s sent with
  | nil =>
    obtain rfl := Except.ok.inj (Prod.mk.inj h).2
    exact .inr (howed.resolve_right False.elim)
  | cons m rest ih =>
    obtain ⟨now, between, more, hnow, hrun, rfl⟩ := run_cons_eq_ok h
    have hrest : (∃ e ∈ now, fits e) ∨ owed between ∨ During step happens between rest := by
      rcases howed with howed | hhappens | ⟨next', hnext', hduring⟩
      · exact (hstep m List.mem_cons_self s now between hnow (.inl howed)).imp_right .inl
      · exact (hstep m List.mem_cons_self s now between hnow (.inr hhappens)).imp_right .inl
      · rw [hnow] at hnext'
        obtain rfl := Except.ok.inj hnext'
        exact .inr (.inr hduring)
    rcases hrest with ⟨e, he, hfits⟩ | hrest
    · exact .inl ⟨e, List.mem_append_left _ he, hfits⟩
    · refine (ih (fun m hm => hstep m (List.mem_cons_of_mem _ hm)) hrun hrest).imp_left ?_
      rintro ⟨e, he, hfits⟩
      exact ⟨e, List.mem_append_right _ he, hfits⟩

end Run

end Emission
