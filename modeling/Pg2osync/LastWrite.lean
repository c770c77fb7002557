import Mathlib.Data.List.Basic
import Mathlib.Logic.Function.Basic

/-!
# Writes one after the other

A store takes writes in order, and the last one under a key is what is left there.
-/

namespace LastWrite

universe u v

variable {κ : Type u} {α : Type v} [DecidableEq κ]

/-- What a list of writes leaves under a key. -/
def lastWrite : List (κ × α) → κ → Option α
  | [], _ => none
  | (k, x) :: rest, key => (lastWrite rest key).or (if k = key then some x else none)

theorem isSome_lastWrite (writes : List (κ × α)) (key : κ) :
    (lastWrite writes key).isSome ↔ key ∈ writes.map Prod.fst := by
  induction writes with
  | nil => simp [lastWrite]
  | cons w rest ih =>
    rw [lastWrite, Option.isSome_or, Bool.or_eq_true, ih, List.map_cons, List.mem_cons, or_comm]
    by_cases h : w.1 = key
    · simp [h]
    · simp [h, Ne.symm h]

/-- One write. -/
def write (store : κ → Option α) (w : κ × α) : κ → Option α :=
  Function.update store w.1 (some w.2)

/-- One removal. -/
def remove (store : κ → Option α) (key : κ) : κ → Option α :=
  Function.update store key none

/-- What is there after some writes: the last of them there, or what was there before. -/
theorem foldl_write (writes : List (κ × α)) (store : κ → Option α) (key : κ) :
    writes.foldl write store key = (lastWrite writes key).or (store key) := by
  induction writes generalizing store with
  | nil => rfl
  | cons w rest ih =>
    rw [List.foldl_cons, ih, lastWrite, Option.or_assoc, write]
    congr 1
    by_cases h : w.1 = key
    · subst h
      simp
    · rw [if_neg h, Function.update_of_ne (Ne.symm h), Option.none_or]

/-- What is there after some removals. -/
theorem foldl_remove (keys : List κ) (store : κ → Option α) (key : κ) :
    keys.foldl remove store key = if key ∈ keys then none else store key := by
  induction keys generalizing store with
  | nil => rfl
  | cons k rest ih =>
    rw [List.foldl_cons, ih, remove]
    by_cases hrest : key ∈ rest
    · simp [hrest]
    · by_cases h : key = k
      · subst h
        simp
      · simp [hrest, h]

/-- Writing some keys and then removing those of others that were not written leaves under all
of them just what was written. -/
theorem foldl_write_remove (writes : List (κ × α)) {keys removed : List κ}
    (h : ∀ k, k ∈ removed ↔ k ∈ keys ∧ k ∉ writes.map Prod.fst) (store : κ → Option α) (key : κ) :
    removed.foldl remove (writes.foldl write store) key =
      if key ∈ keys ∨ key ∈ writes.map Prod.fst then lastWrite writes key else store key := by
  rw [foldl_remove, foldl_write]
  by_cases hwritten : key ∈ writes.map Prod.fst
  · have hkept : ¬ key ∈ removed := fun hremoved => ((h key).mp hremoved).2 hwritten
    obtain ⟨x, hx⟩ := Option.isSome_iff_exists.mp ((isSome_lastWrite writes key).mpr hwritten)
    rw [if_neg hkept, if_pos (Or.inr hwritten), hx]
    rfl
  · have hnone : lastWrite writes key = none :=
      Option.not_isSome_iff_eq_none.mp fun hsome => hwritten ((isSome_lastWrite writes key).mp hsome)
    by_cases hkey : key ∈ keys
    · rw [if_pos ((h key).mpr ⟨hkey, hwritten⟩), if_pos (Or.inl hkey), hnone]
    · rw [if_neg fun hremoved => hkey ((h key).mp hremoved).1, if_neg (not_or.mpr ⟨hkey, hwritten⟩),
        hnone, Option.none_or]

/-! ## Stores of anything -/

variable {β : Type v}

/-- One write to a store that has something under every key. -/
def put (store : κ → β) (w : κ × β) : κ → β :=
  Function.update store w.1 w.2

theorem foldl_put_of_notMem {writes : List (κ × β)} {key : κ} (h : key ∉ writes.map Prod.fst)
    (store : κ → β) : writes.foldl put store key = store key := by
  induction writes generalizing store with
  | nil => rfl
  | cons w rest ih =>
    rw [List.map_cons, List.mem_cons, not_or] at h
    rw [List.foldl_cons, ih h.2, put, Function.update_of_ne h.1]

/-- Writes leave the same of two stores that differ only where something is written. -/
theorem foldl_put_congr {writes : List (κ × β)} {store store' : κ → β}
    (h : ∀ key, key ∉ writes.map Prod.fst → store key = store' key) :
    writes.foldl put store = writes.foldl put store' := by
  induction writes generalizing store store' with
  | nil => exact funext fun key => h key List.not_mem_nil
  | cons w rest ih =>
    refine ih fun key hkey => ?_
    by_cases heq : key = w.1
    · subst heq
      rw [put, put, Function.update_self, Function.update_self]
    · rw [put, put, Function.update_of_ne heq, Function.update_of_ne heq]
      exact h key (by simp [heq, hkey])

end LastWrite
