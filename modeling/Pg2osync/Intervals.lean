import Mathlib.Data.List.Basic

/-!
# Sets of numbers as intervals

A set of natural numbers is kept as closed intervals. There is one list for each set in which
they are in order and some number is missing between any two of them; two such lists that have
the same numbers are equal.
-/

namespace Intervals

/-- A number is in one of some intervals. -/
def Covers (l : List (ℕ × ℕ)) (n : ℕ) : Prop :=
  ∃ r ∈ l, r.1 ≤ n ∧ n ≤ r.2

/-- Intervals in order, with some number missing between any two. -/
structure Canonical (l : List (ℕ × ℕ)) : Prop where
  /-- none of them is empty -/
  nonempty : ∀ r ∈ l, r.1 ≤ r.2
  /-- one ends before the number ahead of the next -/
  apart : l.Pairwise fun a b => a.2 + 1 < b.1

variable {l l' front back : List (ℕ × ℕ)} {r : ℕ × ℕ} {n : ℕ}

/-! ## What is covered -/

theorem not_covers_nil : ¬Covers [] n := by
  rintro ⟨r, hr, -⟩
  cases hr

theorem covers_cons : Covers (r :: l) n ↔ (r.1 ≤ n ∧ n ≤ r.2) ∨ Covers l n := by
  simp [Covers]

theorem covers_append : Covers (front ++ back) n ↔ Covers front n ∨ Covers back n := by
  simp [Covers, or_and_right, exists_or]

theorem covers_singleton : Covers [r] n ↔ r.1 ≤ n ∧ n ≤ r.2 := by
  simp [Covers]

/-! ## Lists in order -/

theorem Canonical.nil : Canonical [] where
  nonempty _ hr := absurd hr List.not_mem_nil
  apart := .nil

theorem canonical_cons :
    Canonical (r :: l) ↔ r.1 ≤ r.2 ∧ (∀ b ∈ l, r.2 + 1 < b.1) ∧ Canonical l := by
  constructor
  · rintro ⟨hnonempty, hapart⟩
    obtain ⟨hfirst, hrest⟩ := List.pairwise_cons.mp hapart
    exact ⟨hnonempty r List.mem_cons_self, hfirst,
      fun b hb => hnonempty b (List.mem_cons_of_mem _ hb), hrest⟩
  · rintro ⟨hr, hfirst, hnonempty, hrest⟩
    refine ⟨fun b hb => ?_, List.pairwise_cons.mpr ⟨hfirst, hrest⟩⟩
    rcases List.mem_cons.mp hb with rfl | hb
    · exact hr
    · exact hnonempty b hb

theorem canonical_append : Canonical (front ++ back) ↔
    Canonical front ∧ Canonical back ∧ ∀ a ∈ front, ∀ b ∈ back, a.2 + 1 < b.1 := by
  constructor
  · rintro ⟨hnonempty, hapart⟩
    obtain ⟨hfront, hback, hacross⟩ := List.pairwise_append.mp hapart
    exact ⟨⟨fun a ha => hnonempty a (List.mem_append_left _ ha), hfront⟩,
      ⟨fun b hb => hnonempty b (List.mem_append_right _ hb), hback⟩, hacross⟩
  · rintro ⟨⟨hnonempty, hfront⟩, ⟨hnonempty', hback⟩, hacross⟩
    refine ⟨fun a ha => ?_, List.pairwise_append.mpr ⟨hfront, hback, hacross⟩⟩
    exact (List.mem_append.mp ha).elim (hnonempty a) (hnonempty' a)

/-- What follows the last interval follows them all. -/
theorem Canonical.lt_of_last {last : ℕ × ℕ} (h : Canonical (front ++ [last]))
    (hlt : last.2 + 1 < n) : ∀ a ∈ front ++ [last], a.2 + 1 < n := by
  obtain ⟨-, hlast, hacross⟩ := canonical_append.mp h
  have hvalid : last.1 ≤ last.2 := hlast.nonempty last List.mem_cons_self
  intro a ha
  rcases List.mem_append.mp ha with ha | ha
  · have := hacross a ha last List.mem_cons_self
    omega
  · rw [List.mem_singleton.mp ha]
    exact hlt

/-- What is ahead of the first interval is ahead of them all. -/
theorem Canonical.lt_of_first (h : Canonical (r :: l)) (hlt : n < r.1) :
    ∀ b ∈ r :: l, n < b.1 := by
  obtain ⟨hvalid, hfirst, -⟩ := canonical_cons.mp h
  intro b hb
  rcases List.mem_cons.mp hb with rfl | hb
  · exact hlt
  · have := hfirst b hb
    omega

/-- The intervals are in the order of their first numbers. -/
theorem Canonical.sorted (h : Canonical l) : l.Pairwise fun a b => a.1 ≤ b.1 := by
  induction l with
  | nil => exact .nil
  | cons r l ih =>
    obtain ⟨hvalid, hfirst, hrest⟩ := canonical_cons.mp h
    refine List.pairwise_cons.mpr ⟨fun b hb => ?_, ih hrest⟩
    have := hfirst b hb
    omega

/-- The intervals that are left when those that begin up to a number are gone begin above it. -/
theorem Canonical.lt_of_mem_dropWhile (h : Canonical l)
    (hr : r ∈ l.dropWhile fun a => decide (a.1 ≤ n)) : n < r.1 := by
  induction l with
  | nil => cases hr
  | cons a l ih =>
    rw [List.dropWhile_cons] at hr
    split at hr
    · exact ih (canonical_cons.mp h).2.2 hr
    · next hbegun => exact h.lt_of_first (Nat.lt_of_not_le (by simpa using hbegun)) r hr

/-- There are no more intervals than numbers they may have. -/
theorem Canonical.length_le (h : Canonical l) {low high : ℕ} (hle : low ≤ high)
    (hlow : ∀ r ∈ l, low ≤ r.1) (hhigh : ∀ r ∈ l, r.2 < high) : low + l.length ≤ high := by
  induction l generalizing low with
  | nil => exact hle
  | cons r l ih =>
    obtain ⟨hvalid, hfirst, hrest⟩ := canonical_cons.mp h
    have hr := hhigh r List.mem_cons_self
    have hstart := hlow r List.mem_cons_self
    have := ih hrest (show r.2 + 1 ≤ high from hr) (fun b hb => Nat.le_of_lt (hfirst b hb))
      fun b hb => hhigh b (List.mem_cons_of_mem _ hb)
    rw [List.length_cons]
    omega

/-- The rest of the intervals covers what is above the first one. -/
theorem Canonical.covers_tail (h : Canonical (r :: l)) :
    Covers l n ↔ Covers (r :: l) n ∧ r.2 < n := by
  obtain ⟨-, hfirst, -⟩ := canonical_cons.mp h
  constructor
  · rintro ⟨b, hb, hlow, hhigh⟩
    have := hfirst b hb
    exact ⟨⟨b, List.mem_cons_of_mem _ hb, hlow, hhigh⟩, by omega⟩
  · rintro ⟨hcovers, hlt⟩
    rcases covers_cons.mp hcovers with ⟨-, hle⟩ | hrest
    · omega
    · exact hrest

/-- The first interval begins at the least number and ends ahead of one that is missing. -/
theorem Canonical.first (h : Canonical (r :: l)) : (∀ m, r.1 ≤ m → m ≤ r.2 → Covers (r :: l) m) ∧
    (∀ m, Covers (r :: l) m → r.1 ≤ m) ∧ ¬Covers (r :: l) (r.2 + 1) := by
  obtain ⟨hvalid, hfirst, -⟩ := canonical_cons.mp h
  refine ⟨fun m hlow hhigh => ⟨r, List.mem_cons_self, hlow, hhigh⟩, ?_, ?_⟩
  · rintro m ⟨b, hb, hlow, -⟩
    rcases List.mem_cons.mp hb with rfl | hb
    · exact hlow
    · have := hfirst b hb
      omega
  · rintro ⟨b, hb, hlow, hhigh⟩
    rcases List.mem_cons.mp hb with rfl | hb
    · omega
    · have := hfirst b hb
      omega

/-- **One list for each set.** -/
theorem Canonical.ext (h : Canonical l) (h' : Canonical l')
    (hsame : ∀ n, Covers l n ↔ Covers l' n) : l = l' := by
  induction l generalizing l' with
  | nil =>
    cases l' with
    | nil => rfl
    | cons r' l' =>
      have hvalid := (canonical_cons.mp h').1
      exact absurd ((hsame r'.1).mpr (h'.first.1 r'.1 (Nat.le_refl _) hvalid)) not_covers_nil
  | cons r l ih =>
    have hvalid := (canonical_cons.mp h).1
    cases l' with
    | nil => exact absurd ((hsame r.1).mp (h.first.1 r.1 (Nat.le_refl _) hvalid)) not_covers_nil
    | cons r' l' =>
      have hvalid' := (canonical_cons.mp h').1
      obtain ⟨hin, hleast, hmissing⟩ := h.first
      obtain ⟨hin', hleast', hmissing'⟩ := h'.first
      have hstart : r.1 = r'.1 := Nat.le_antisymm
        (hleast _ ((hsame _).mpr (hin' _ (Nat.le_refl _) hvalid')))
        (hleast' _ ((hsame _).mp (hin _ (Nat.le_refl _) hvalid)))
      have hend : r.2 = r'.2 := by
        by_contra hne
        rcases Nat.lt_or_gt_of_ne hne with hlt | hgt
        · exact hmissing ((hsame _).mpr (hin' _ (by omega) hlt))
        · exact hmissing' ((hsame _).mp (hin _ (by omega) hgt))
      have hrest : l = l' := ih (canonical_cons.mp h).2.2 (canonical_cons.mp h').2.2 fun n => by
        rw [h.covers_tail, h'.covers_tail, hsame n, hend]
      rw [hrest, Prod.ext hstart hend]

end Intervals
