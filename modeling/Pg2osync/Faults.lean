import Mathlib.Control.Monad.Basic
import Mathlib.Tactic.Ring

/-!
# Programs that may fail in more than one way

A program reads from a state. It may end with a value or with an error of its own; or it may panic,
where it slices out of range or where its arithmetic leaves the range of its type; or it may not end
at all, so it is given a number of steps, and what has come of it after them may be that it is still
running.

What a program comes to is told exactly: under which condition it ends, and which state it leaves
then, if it leaves one. Both are put together along the program.
-/

/-- What has come of a program. -/
inductive Ran (ε α : Type) : Type where
  /-- it is still running -/
  | running : Ran ε α
  /-- it has panicked -/
  | panics : Ran ε α
  /-- it has ended with an error -/
  | failed (e : ε) : Ran ε α
  /-- it has ended with a value -/
  | done (a : α) : Ran ε α
  deriving DecidableEq, Repr

namespace Ran

variable {ε α β σ : Type}

protected def bind (x : Ran ε α) (f : α → Ran ε β) : Ran ε β :=
  match x with
  | running => running
  | panics => panics
  | failed e => failed e
  | done a => f a

instance : Monad (Ran ε) where
  pure := done
  bind := Ran.bind

@[simp] theorem pure_eq (a : α) : (pure a : Ran ε α) = done a := rfl

@[simp] theorem running_bind (f : α → Ran ε β) : (running >>= f : Ran ε β) = running := rfl

@[simp] theorem panics_bind (f : α → Ran ε β) : (panics >>= f : Ran ε β) = panics := rfl

@[simp] theorem failed_bind (e : ε) (f : α → Ran ε β) : (failed e >>= f : Ran ε β) = failed e := rfl

@[simp] theorem done_bind (a : α) (f : α → Ran ε β) : (done a >>= f) = f a := rfl

/-- It ends, with a value or with an error. -/
def Ended : Ran ε α → Prop
  | running | panics => False
  | failed _ | done _ => True

@[simp] theorem not_ended_running : ¬(running : Ran ε α).Ended := id

@[simp] theorem not_ended_panics : ¬(panics : Ran ε α).Ended := id

@[simp] theorem ended_failed (e : ε) : (failed e : Ran ε α).Ended := trivial

@[simp] theorem ended_done (a : α) : (done a : Ran ε α).Ended := trivial

/-- One after the other ends if the first does and, if there is a value, the second. -/
theorem ended_bind {x : Ran ε α} {f : α → Ran ε β} :
    (x >>= f).Ended ↔ x.Ended ∧ ∀ a, x = done a → (f a).Ended := by
  cases x with
  | running => exact iff_of_false id fun h => h.1
  | panics => exact iff_of_false id fun h => h.1
  | failed e => exact iff_of_true trivial ⟨trivial, fun a h => by cases h⟩
  | done a =>
    refine ⟨fun h => ⟨trivial, fun b hb => ?_⟩, fun h => h.2 a rfl⟩
    cases hb
    exact h

/-- What is made of a value ends where it does. -/
theorem ended_map {x : Ran ε α} {f : α → β} : (x >>= fun a => pure (f a)).Ended ↔ x.Ended :=
  ended_bind.trans (and_iff_left fun _ _ => trivial)

/-- What is read first, and then the rest. -/
theorem run_bind_done {x : StateT σ (Ran ε) α} {a : α} {s s' : σ} (h : x.run s = .done (a, s'))
    (f : α → StateT σ (Ran ε) β) : (x >>= f).run s = (f a).run s' := by
  rw [StateT.run_bind, h]
  rfl

/-! ## What may panic -/

/-- `a - b` -/
def sub (a b : ℕ) : Ran ε ℕ :=
  if b ≤ a then done (a - b) else panics

/-- `a + b`, of so many bits -/
def add (bits a b : ℕ) : Ran ε ℕ :=
  if a + b < 2 ^ bits then done (a + b) else panics

/-- `a * b`, of so many bits -/
def mul (bits a b : ℕ) : Ran ε ℕ :=
  if a * b < 2 ^ bits then done (a * b) else panics

/-- `a.pow(n)`, of so many bits -/
def pow (bits a n : ℕ) : Ran ε ℕ :=
  if a ^ n < 2 ^ bits then done (a ^ n) else panics

/-- `a << n`, of so many bits: what is shifted out is lost, but so far it may not go -/
def shl (bits a n : ℕ) : Ran ε ℕ :=
  if n < bits then done ((a <<< n) % 2 ^ bits) else panics

/-- `xs[i]` -/
def index (xs : List α) (i : ℕ) : Ran ε α :=
  match xs[i]? with
  | some a => done a
  | none => panics

/-- `&xs[start..stop]` -/
def slice (xs : List α) (start stop : ℕ) : Ran ε (List α) :=
  if start ≤ stop ∧ stop ≤ xs.length then done ((xs.drop start).take (stop - start)) else panics

theorem sub_eq {a b : ℕ} (h : b ≤ a) : (sub a b : Ran ε ℕ) = done (a - b) :=
  if_pos h

theorem add_eq {bits a b : ℕ} (h : a + b < 2 ^ bits) : (add bits a b : Ran ε ℕ) = done (a + b) :=
  if_pos h

theorem mul_eq {bits a b : ℕ} (h : a * b < 2 ^ bits) : (mul bits a b : Ran ε ℕ) = done (a * b) :=
  if_pos h

theorem pow_eq {bits a n : ℕ} (h : a ^ n < 2 ^ bits) : (pow bits a n : Ran ε ℕ) = done (a ^ n) :=
  if_pos h

theorem shl_eq {bits a n : ℕ} (h : a <<< n < 2 ^ bits) (hn : n < bits) :
    (shl bits a n : Ran ε ℕ) = done (a <<< n) := by
  rw [shl, if_pos hn, Nat.mod_eq_of_lt h]

theorem index_eq {xs : List α} {i : ℕ} (h : i < xs.length) :
    (index xs i : Ran ε α) = done xs[i] := by
  rw [index, List.getElem?_eq_getElem h]

theorem slice_eq {xs : List α} {start stop : ℕ} (h : start ≤ stop) (hle : stop ≤ xs.length) :
    (slice xs start stop : Ran ε (List α)) = done ((xs.drop start).take (stop - start)) :=
  if_pos ⟨h, hle⟩

/-! ## What a program comes to -/

/-- A program ends under a condition, if the steps it is given are enough; and where it ends, this
is the state it leaves, or there is none and it ends with an error. -/
structure Meets (enough : Prop) (x : StateT σ (Ran ε) α) (s : σ) (ok : Prop) (next : Option σ) :
    Prop where
  /-- it does not end without the condition -/
  ok_of_ended : (x.run s).Ended → ok
  /-- it ends with it -/
  ended : enough → ok → (x.run s).Ended
  /-- the state that it leaves is this -/
  done : ∀ {a s'}, x.run s = .done (a, s') → next = some s'
  /-- an error leaves none -/
  failed : ∀ {e}, x.run s = .failed e → next = none

namespace Meets

variable {enough ok ok' : Prop} {x : StateT σ (Ran ε) α} {s : σ} {next : Option σ}

/-- Where it ends and there is a state, it is left with a value. -/
theorem exists_done (h : Meets enough x s ok next) (hend : (x.run s).Ended) {s' : σ}
    (hnext : next = some s') : ∃ a, x.run s = .done (a, s') := by
  cases hrun : x.run s with
  | running | panics =>
    rw [hrun] at hend
    exact absurd hend id
  | failed e => exact absurd ((h.failed hrun).symm.trans hnext) (by intro h; cases h)
  | done p =>
    cases (h.done hrun).symm.trans hnext
    exact ⟨p.1, rfl⟩

/-- What does not end. -/
theorem stuck {ok : Prop} (hx : ¬(x.run s).Ended) (hok : ¬ok) (next : Option σ) :
    Meets enough x s ok next where
  ok_of_ended h := absurd h hx
  ended _ h := absurd h hok
  done h := absurd (by rw [h]; trivial) hx
  failed h := absurd (by rw [h]; trivial) hx

/-- What ends with a value. -/
theorem of_done {a : α} {s' : σ} (hx : x.run s = .done (a, s')) :
    Meets enough x s True (some s') where
  ok_of_ended _ := trivial
  ended _ _ := by
    rw [hx]
    trivial
  done h := by
    cases hx.symm.trans h
    rfl
  failed h := absurd (hx.symm.trans h) (by intro h; cases h)

/-- What ends with an error. -/
theorem of_failed {e : ε} (hx : x.run s = .failed e) : Meets enough x s True none where
  ok_of_ended _ := trivial
  ended _ _ := by
    rw [hx]
    trivial
  done h := absurd (hx.symm.trans h) (by intro h; cases h)
  failed _ := rfl

theorem congr (h : Meets enough x s ok next) (hok : ok ↔ ok') : Meets enough x s ok' next where
  ok_of_ended hend := hok.mp (h.ok_of_ended hend)
  ended hen h' := h.ended hen (hok.mpr h')
  done := h.done
  failed := h.failed

variable {f : α → StateT σ (Ran ε) β} {nextf : σ → Option σ}

/-- One after the other. -/
theorem bind {okf : σ → Prop} (hx : Meets enough x s ok next)
    (hf : ∀ a s', x.run s = .done (a, s') → Meets enough (f a) s' (okf s') (nextf s')) :
    Meets enough (x >>= f) s (ok ∧ ∀ s', next = some s' → okf s') (next.bind nextf) where
  ok_of_ended h := by
    rw [StateT.run_bind, ended_bind] at h
    refine ⟨hx.ok_of_ended h.1, fun s' hs' => ?_⟩
    obtain ⟨a, hrun⟩ := hx.exists_done h.1 hs'
    exact (hf a s' hrun).ok_of_ended (h.2 _ hrun)
  ended hen hok := by
    rw [StateT.run_bind, ended_bind]
    refine ⟨hx.ended hen hok.1, fun p hrun => ?_⟩
    exact (hf p.1 p.2 hrun).ended hen (hok.2 _ (hx.done hrun))
  done {b s'} h := by
    rw [StateT.run_bind] at h
    cases hrun : x.run s with
    | running | panics | failed e =>
      rw [hrun] at h
      cases h
    | done p =>
      rw [hrun] at h
      rw [hx.done hrun]
      exact (hf p.1 p.2 hrun).done h
  failed {e} h := by
    rw [StateT.run_bind] at h
    cases hrun : x.run s with
    | running | panics =>
      rw [hrun] at h
      cases h
    | failed e => rw [hx.failed hrun, Option.bind_none]
    | done p =>
      rw [hrun] at h
      rw [hx.done hrun]
      exact (hf p.1 p.2 hrun).failed h

/-- What is made of a value reads nothing, and panics without a condition. -/
theorem then_checked {p : Prop} (hx : Meets enough x s ok next)
    (hdone : p → ∀ a s', x.run s = .done (a, s') → ∃ c, (f a).run s' = .done (c, s'))
    (hstuck : ¬p → ∀ a s', x.run s = .done (a, s') → ¬((f a).run s').Ended) :
    Meets enough (x >>= f) s (ok ∧ (next.isSome → p)) next := by
  have hbind : Meets enough (x >>= f) s (ok ∧ ∀ s', next = some s' → p) (next.bind some) := by
    refine hx.bind fun a s' hrun => ?_
    by_cases hp : p
    · obtain ⟨c, hc⟩ := hdone hp a s' hrun
      exact (of_done hc).congr (iff_of_true trivial hp)
    · exact stuck (hstuck hp a s' hrun) hp _
  rw [Option.bind_fun_some] at hbind
  refine hbind.congr (and_congr_right fun _ => ?_)
  rw [Option.isSome_iff_exists, forall_exists_index]

/-- Two parts that always end. -/
theorem bind_always (hx : Meets enough x s True next)
    (hf : ∀ a s', x.run s = .done (a, s') → Meets enough (f a) s' True (nextf s')) :
    Meets enough (x >>= f) s True (next.bind nextf) := by
  have hbind : Meets enough (x >>= f) s (True ∧ ∀ s', next = some s' → True) (next.bind nextf) :=
    hx.bind hf
  exact hbind.congr (iff_of_true ⟨trivial, fun _ _ => trivial⟩ trivial)

/-- The same behind a part that always ends. -/
theorem bind_checked {p : Prop} (hx : Meets enough x s True next)
    (hf : ∀ a s', x.run s = .done (a, s') →
      Meets enough (f a) s' ((nextf s').isSome → p) (nextf s')) :
    Meets enough (x >>= f) s ((next.bind nextf).isSome → p) (next.bind nextf) := by
  have hbind : Meets enough (x >>= f) s
      (True ∧ ∀ s', next = some s' → (nextf s').isSome → p) (next.bind nextf) := hx.bind hf
  refine hbind.congr ?_
  cases next with
  | none => exact iff_of_true ⟨trivial, fun s' h => by cases h⟩ fun h => by cases h
  | some s' =>
    refine ⟨fun h => h.2 s' rfl, fun h => ⟨trivial, fun s'' heq => ?_⟩⟩
    cases heq
    exact h

/-- What is made of a value reads nothing. -/
theorem then_done (hx : Meets enough x s ok next)
    (hdone : ∀ a s', x.run s = .done (a, s') → ∃ c, (f a).run s' = .done (c, s')) :
    Meets enough (x >>= f) s ok next :=
  (hx.then_checked (fun _ => hdone) fun h => absurd trivial h).congr
    ⟨fun h => h.1, fun h => ⟨h, fun _ => trivial⟩⟩

theorem map (hx : Meets enough x s ok next) (f : α → β) :
    Meets enough (x >>= fun a => Pure.pure (f a)) s ok next :=
  hx.then_done fun a _ _ => ⟨f a, rfl⟩

end Meets

end Ran
