import Mathlib.Logic.Relation

/-!
# Transition systems

A system is a set of initial states and a step that an action may take. What is
proved of a run is proved of its steps: an invariant holds initially and is kept
by every step, possibly only by the steps that meet a guard.
-/

namespace Transition

universe u v

/-- A transition system: a step is a partial function of the state and an
action, so that a run is its list of actions. -/
structure System (σ : Type u) (α : Type v) : Type (max u v) where
  /-- where a run may begin -/
  initial : σ → Prop
  /-- what an action does, if it can be taken -/
  step : σ → α → Option σ

variable {σ : Type u} {α : Type v}

namespace System

/-- The states that runs reach when every step they take meets `guard`. -/
inductive ReachUnder (sys : System σ α) (guard : σ → α → Prop) : σ → Prop where
  /-- a run of no steps -/
  | initial {s : σ} : sys.initial s → ReachUnder sys guard s
  /-- one step more -/
  | step {s s' : σ} {a : α} : ReachUnder sys guard s → guard s a → sys.step s a = some s' →
      ReachUnder sys guard s'

/-- The states that runs reach. -/
def Reachable (sys : System σ α) : σ → Prop :=
  sys.ReachUnder fun _ _ => True

/-- One state is reached from another. -/
def Later (sys : System σ α) : σ → σ → Prop :=
  Relation.ReflTransGen fun s s' => ∃ a, sys.step s a = some s'

variable {sys : System σ α} {guard : σ → α → Prop}

/-- **The invariant rule.** -/
theorem ReachUnder.invariant {inv : σ → Prop} {s : σ} (h : sys.ReachUnder guard s)
    (hinit : ∀ s, sys.initial s → inv s)
    (hstep : ∀ s a s', inv s → guard s a → sys.step s a = some s' → inv s') : inv s := by
  induction h with
  | initial hs => exact hinit _ hs
  | step _ hguard hs ih => exact hstep _ _ _ ih hguard hs

theorem Reachable.invariant {inv : σ → Prop} {s : σ} (h : sys.Reachable s)
    (hinit : ∀ s, sys.initial s → inv s)
    (hstep : ∀ s a s', inv s → sys.step s a = some s' → inv s') : inv s :=
  ReachUnder.invariant h hinit fun s a s' hs _ => hstep s a s' hs

/-- What every step from a state on keeps, every later state has. -/
theorem Later.invariant {inv : σ → Prop} {s s' : σ} (h : sys.Later s s') (hs : inv s)
    (hstep : ∀ s a s', inv s → sys.step s a = some s' → inv s') : inv s' := by
  induction h with
  | refl => exact hs
  | tail _ hlast ih =>
    obtain ⟨a, ha⟩ := hlast
    exact hstep _ a _ ih ha

/-- Steps that meet a guard meet a weaker one. -/
theorem ReachUnder.mono {weaker : σ → α → Prop} {s : σ} (h : sys.ReachUnder guard s)
    (hweaker : ∀ s a, guard s a → weaker s a) : sys.ReachUnder weaker s := by
  induction h with
  | initial hs => exact .initial hs
  | step _ hguard hs ih => exact .step ih (hweaker _ _ hguard) hs

/-- The state a list of actions leads to. -/
def run (sys : System σ α) : σ → List α → Option σ
  | s, [] => some s
  | s, a :: rest => (sys.step s a).bind fun s' => sys.run s' rest

theorem reachUnder_of_run {s s' : σ} (h : sys.ReachUnder guard s) (hguard : ∀ s a, guard s a)
    {actions : List α} (hrun : sys.run s actions = some s') : sys.ReachUnder guard s' := by
  induction actions generalizing s with
  | nil =>
    injection hrun with hrun
    exact hrun ▸ h
  | cons a rest ih =>
    rw [run] at hrun
    obtain ⟨s₁, hstep, hrest⟩ := Option.bind_eq_some_iff.mp hrun
    exact ih (.step h (hguard s a) hstep) hrest

/-- A list of actions taken from an initial state leads to a reachable one. -/
theorem reachable_of_run {s s' : σ} (h : sys.initial s) {actions : List α}
    (hrun : sys.run s actions = some s') : sys.Reachable s' :=
  reachUnder_of_run (.initial h) (fun _ _ => trivial) hrun

/-- The state a list of actions leads to, if each of them passes a check. -/
def runUnder (sys : System σ α) (check : σ → α → Bool) : σ → List α → Option σ
  | s, [] => some s
  | s, a :: rest =>
    if check s a then (sys.step s a).bind fun s' => sys.runUnder check s' rest else none

/-- A list of actions that pass leads to a state reached under the check. -/
theorem ReachUnder.of_runUnder {check : σ → α → Bool} {s s' : σ}
    (h : sys.ReachUnder (fun s a => check s a = true) s) {actions : List α}
    (hrun : sys.runUnder check s actions = some s') :
    sys.ReachUnder (fun s a => check s a = true) s' := by
  induction actions generalizing s with
  | nil =>
    injection hrun with hrun
    exact hrun ▸ h
  | cons a rest ih =>
    rw [runUnder] at hrun
    split at hrun
    · next hcheck =>
      obtain ⟨s₁, hstep, hrest⟩ := Option.bind_eq_some_iff.mp hrun
      exact ih (.step h hcheck hstep) hrest
    · cases hrun

end System

end Transition
