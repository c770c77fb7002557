import Mathlib.Logic.Basic

/-!
# Loops of rounds

A loop goes round until a round says it is done or fails. What a round makes of the state is
not the loop's alone: each one comes with an answer from outside, and the loop is run on the
answers it will get. It is over when one of them has ended it; until then it waits for more.
-/

namespace RoundLoop

variable {ρ σ ε : Type*}

/-- Goes round until a round fails or is done. -/
def run (round : ρ → σ → Except ε Bool × σ) : List ρ → σ → Option (Except ε Unit × σ)
  | [], _ => none
  | r :: rest, s =>
    match round r s with
    | (.error e, s') => some (.error e, s')
    | (.ok true, s') => some (.ok (), s')
    | (.ok false, s') => run round rest s'

/-- Every round the loop goes begins in a state where the condition holds of its answer. -/
def Always (round : ρ → σ → Except ε Bool × σ) (C : ρ → σ → Prop) : List ρ → σ → Prop
  | [], _ => True
  | r :: rest, s =>
    C r s ∧ match round r s with
      | (.ok false, s') => Always round C rest s'
      | _ => True

/-- The condition holds of the answer of the round that ends the loop, as that one begins. -/
def AtEnd (round : ρ → σ → Except ε Bool × σ) (C : ρ → σ → Prop) : List ρ → σ → Prop
  | [], _ => False
  | r :: rest, s =>
    match round r s with
    | (.ok false, s') => AtEnd round C rest s'
    | _ => C r s

variable {round : ρ → σ → Except ε Bool × σ} {rounds : List ρ} {s s' : σ}

/-- What each round keeps, the loop keeps. -/
theorem run_keeps {R : σ → σ → Prop} (htrans : ∀ {a b c}, R a b → R b c → R a c)
    (hround : ∀ r s, R s (round r s).2)
    {result : Except ε Unit} (h : run round rounds s = some (result, s')) : R s s' := by
  induction rounds generalizing s with
  | nil => cases h
  | cons r rest ih =>
    have hone := hround r s
    rw [run] at h
    rcases hr : round r s with ⟨e | b, t⟩
    · simp only [hr, Option.some.injEq, Prod.mk.injEq] at h hone
      exact h.2 ▸ hone
    · rw [hr] at hone
      cases b with
      | false =>
        simp only [hr] at h
        exact htrans hone (ih h)
      | true =>
        simp only [hr, Option.some.injEq, Prod.mk.injEq] at h
        exact h.2 ▸ hone

/-- Where a round that goes on meets a condition, and the round that is done meets it exactly
when it leaves the wanted state, the loop leaves the wanted state exactly when all its rounds
met the condition. -/
theorem run_ok_iff {C : ρ → σ → Prop} {Q : ρ → σ → σ → Prop}
    (hagain : ∀ {r s t}, round r s = (.ok false, t) → C r s)
    (hdone : ∀ {r s t}, round r s = (.ok true, t) → (Q r s t ↔ C r s))
    (h : run round rounds s = some (.ok (), s')) :
    AtEnd round (fun r t => Q r t s') rounds s ↔ Always round C rounds s := by
  induction rounds generalizing s with
  | nil => cases h
  | cons r rest ih =>
    rw [run] at h
    rw [AtEnd, Always]
    rcases hr : round r s with ⟨e | b, t⟩
    · simp only [hr, Option.some.injEq, Prod.mk.injEq] at h
      cases h.1
    · cases b with
      | false =>
        simp only [hr] at h
        simpa only [hr, hagain hr, true_and] using ih h
      | true =>
        simp only [hr, Option.some.injEq, Prod.mk.injEq, true_and] at h
        simpa only [hr, and_true, ← h] using hdone hr

/-- A loop that is over was ended by one round, so what is said of a condition at the end is
said of its being met there. -/
theorem atEnd_map (f : Prop → Prop) {C : ρ → σ → Prop} {result : Except ε Unit}
    (h : run round rounds s = some (result, s')) :
    AtEnd round (fun r t => f (C r t)) rounds s ↔ f (AtEnd round C rounds s) := by
  induction rounds generalizing s with
  | nil => cases h
  | cons r rest ih =>
    rw [run] at h
    rw [AtEnd, AtEnd]
    rcases hr : round r s with ⟨e | b, t⟩
    · exact Iff.rfl
    · cases b with
      | false =>
        simp only [hr] at h
        exact ih h
      | true => exact Iff.rfl

end RoundLoop
