import Mathlib.Data.List.Nodup
import Mathlib.Order.Lattice

/-!
# Paging a store by its keys

A store is read in pages, each of which begins strictly behind the last key of the one before. An
item that stays in the store while it is read is on one of the pages, if no page ends between two
items of one key.
-/

namespace KeysetScan

universe u v

variable {α : Type u} {κ : Type v} [LinearOrder κ] (key : α → κ)

/-- An item is behind the key a page begins after. -/
def Behind (after : Option κ) (x : α) : Prop :=
  ∀ k ∈ after, k < key x

instance (after : Option κ) (x : α) : Decidable (Behind key after x) :=
  inferInstanceAs (Decidable (∀ k ∈ after, k < key x))

/-- The first items of a store behind a key, in the order of their keys. -/
structure Page (size : ℕ) (store : List α) (after : Option κ) (page : List α) : Prop where
  /-- each item once -/
  nodup : page.Nodup
  /-- in the order of the keys -/
  sorted : page.Pairwise fun x y => key x ≤ key y
  /-- no more than asked for -/
  length : page.length ≤ size
  /-- from the store, and behind the key -/
  stored : ∀ x ∈ page, x ∈ store ∧ Behind key after x
  /-- what is left out comes later, and the page is full -/
  first : ∀ x ∈ store, Behind key after x → x ∉ page →
    page.length = size ∧ ∀ y ∈ page, key y ≤ key x

instance [DecidableEq α] (size : ℕ) (store : List α) (after : Option κ) (page : List α) :
    Decidable (Page key size store after page) :=
  decidable_of_iff (page.Nodup ∧ (page.Pairwise fun x y => key x ≤ key y) ∧ page.length ≤ size ∧
      (∀ x ∈ page, x ∈ store ∧ Behind key after x) ∧
      ∀ x ∈ store, Behind key after x → x ∉ page →
        page.length = size ∧ ∀ y ∈ page, key y ≤ key x)
    ⟨fun ⟨hnodup, hsorted, hlength, hstored, hfirst⟩ =>
      ⟨hnodup, hsorted, hlength, hstored, hfirst⟩,
    fun h => ⟨h.nodup, h.sorted, h.length, h.stored, h.first⟩⟩

/-- No item left out has the key the page ends with. -/
def Whole (store : List α) (after : Option κ) (page : List α) : Prop :=
  ∀ last ∈ page.getLast?, ∀ x ∈ store, Behind key after x → key x = key last → x ∈ page

instance [DecidableEq α] (store : List α) (after : Option κ) (page : List α) :
    Decidable (Whole key store after page) :=
  inferInstanceAs (Decidable (∀ last ∈ page.getLast?, _))

variable {key} {size : ℕ} {store page : List α} {after : Option κ} {x last : α}

theorem not_behind (h : ¬ Behind key after x) : ∃ k, after = some k ∧ key x ≤ k := by
  simp only [Behind, not_forall, not_lt] at h
  obtain ⟨k, hk, hle⟩ := h
  exact ⟨k, hk, hle⟩

/-- An item up to the last key of a whole page is on it, or on none. -/
theorem Page.covers (h : Page key size store after page) (hwhole : Whole key store after page)
    (hlast : page.getLast? = some last) (hx : x ∈ store) (hle : key x ≤ key last) :
    x ∈ page ∨ ∃ k, after = some k ∧ key x ≤ k := by
  by_cases hbehind : Behind key after x
  · left
    by_contra hnot
    have hlater := (h.first x hx hbehind hnot).2 last (List.mem_of_getLast? hlast)
    exact hnot (hwhole last hlast x hx hbehind (le_antisymm hle hlater))
  · exact .inr (not_behind hbehind)

/-- Behind an empty page there is nothing. -/
theorem Page.ends (h : Page key size store after []) (hpos : 0 < size) (hx : x ∈ store) :
    ∃ k, after = some k ∧ key x ≤ k := by
  by_cases hbehind : Behind key after x
  · have hfull := (h.first x hx hbehind List.not_mem_nil).1
    rw [← hfull] at hpos
    cases hpos
  · exact not_behind hbehind

end KeysetScan
