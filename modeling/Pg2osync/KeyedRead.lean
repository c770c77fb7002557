import Mathlib.Data.List.Dedup

/-!
# Rows read by their keys

A batch of keys is known by names. A read selects the rows that belong to the names and
files each under a text of its key, and a row is looked for under the text of the name it
was asked by. The row of a key is found exactly when its name selects it and the two texts
are one.
-/

namespace KeyedRead

variable {κ ν α β : Type} [DecidableEq κ]

/-! ## Pairs -/

/-- The value of a key: that of the last pair that has it. -/
def lookup (key : κ) : List (κ × α) → Option α
  | [] => none
  | p :: rest =>
    match lookup key rest with
    | some a => some a
    | none => if p.1 = key then some p.2 else none

theorem lookup_cons (key : κ) (p : κ × α) (rest : List (κ × α)) :
    lookup key (p :: rest) =
      (lookup key rest).or (if p.1 = key then some p.2 else none) := by
  rw [lookup]
  cases lookup key rest <;> rfl

variable {key : κ}

/-- Rows of other keys may be left out. -/
theorem lookup_filter {keep : κ → Bool} (hkeep : keep key = true) (pairs : List (κ × α)) :
    lookup key (pairs.filter fun p => keep p.1) = lookup key pairs := by
  induction pairs with
  | nil => rfl
  | cons p rest ih =>
    rw [List.filter_cons]
    split
    · rw [lookup_cons, lookup_cons, ih]
    · next hdrop =>
      have hne : p.1 ≠ key := by
        rintro rfl
        exact hdrop hkeep
      rw [lookup_cons, ih, if_neg hne, Option.or_none]

/-- Keys may be renamed, as long as no other key gets the name of the one that is looked
for. -/
theorem lookup_map {τ : Type} [DecidableEq τ] {file : κ → τ} {pairs : List (κ × α)}
    (h : ∀ p ∈ pairs, file p.1 = file key → p.1 = key) :
    lookup (file key) (pairs.map fun p => (file p.1, p.2)) = lookup key pairs := by
  induction pairs with
  | nil => rfl
  | cons p rest ih =>
    have hhead : file p.1 = file key ↔ p.1 = key :=
      ⟨h p List.mem_cons_self, fun heq => congrArg file heq⟩
    rw [List.map_cons, lookup_cons, lookup_cons, ih fun q hq => h q (List.mem_cons_of_mem _ hq)]
    simp only [hhead]

/-! ## Groups -/

/-- The rows that refer to a key. -/
def elements (key : κ) (rows : List (Option κ × β)) : List β :=
  rows.filterMap fun row => if row.1 = some key then some row.2 else none

/-- The rows by the key they refer to; a row may refer to none. -/
def groups (rows : List (Option κ × β)) : List (κ × List β) :=
  (rows.filterMap Prod.fst).dedup.map fun key => (key, elements key rows)

theorem lookup_map_self (key : κ) (keys : List κ) (value : κ → α) :
    lookup key (keys.map fun k => (k, value k)) =
      if key ∈ keys then some (value key) else none := by
  induction keys with
  | nil => rfl
  | cons k rest ih =>
    rw [List.map_cons, lookup_cons, ih]
    by_cases hrest : key ∈ rest
    · rw [if_pos hrest, if_pos (List.mem_cons_of_mem _ hrest)]
      rfl
    · rw [if_neg hrest, Option.none_or]
      by_cases hk : k = key
      · subst hk
        rw [if_pos rfl, if_pos List.mem_cons_self]
      · rw [if_neg hk, if_neg fun hmem => (List.mem_cons.mp hmem).elim (fun h => hk h.symm) hrest]

theorem elements_eq_nil {rows : List (Option κ × β)} (h : key ∉ rows.filterMap Prod.fst) :
    elements key rows = [] := by
  rw [elements, List.filterMap_eq_nil_iff]
  intro row hrow
  refine if_neg fun heq => h ?_
  exact List.mem_filterMap.mpr ⟨row, hrow, heq⟩

/-- A key without a group has no rows. -/
theorem lookup_groups (key : κ) (rows : List (Option κ × β)) :
    (lookup key (groups rows)).getD [] = elements key rows := by
  rw [groups, lookup_map_self]
  split
  · rfl
  · next h => exact (elements_eq_nil fun hmem => h (List.mem_dedup.mpr hmem)).symm

/-! ## Reading -/

/-- How rows are read by the names of their keys. -/
structure Reading (κ ν : Type) : Type where
  /-- the name a key is asked by -/
  name : κ → ν
  /-- the text a name is looked for under -/
  text : ν → String
  /-- whether some names select a key -/
  selects : List ν → κ → Bool
  /-- the text a key's row is filed under -/
  filed : κ → String

namespace Reading

/-- What a read answers: the rows some names select, filed. -/
def answer (r : Reading κ ν) (rows : List (κ × α)) (names : List ν) : List (String × α) :=
  if names.isEmpty then []
  else (rows.filter fun row => r.selects names row.1).map fun row => (r.filed row.1, row.2)

/-- What is found for a name. -/
def found (r : Reading κ ν) (rows : List (κ × α)) (names : List ν) (n : ν) : Option α :=
  lookup (r.text n) (r.answer rows names)

/-- Whatever rows and keys of one column are read, the key's own row is found for its name,
if there is one. -/
def Finds (r : Reading κ ν) (column : κ → Prop) (key : κ) : Prop :=
  ∀ ⦃α : Type⦄ (rows : List (κ × α)) (keys : List κ), (∀ row ∈ rows, column row.1) →
    (∀ k ∈ keys, column k) → key ∈ keys →
      r.found rows (keys.map r.name) (r.name key) = lookup key rows

/-- More names select more. -/
def Monotone (r : Reading κ ν) (key : κ) : Prop :=
  r.selects [r.name key] key = true →
    ∀ names, r.name key ∈ names → r.selects names key = true

theorem Finds.of_filed {r : Reading κ ν} {column : κ → Prop} (hmono : r.Monotone key)
    (hselects : r.selects [r.name key] key = true) (hfiled : r.filed key = r.text (r.name key))
    (hinj : ∀ k, column k → r.filed k = r.filed key → k = key) : r.Finds column key := by
  intro α rows keys hrows _ hkey
  have hname : r.name key ∈ keys.map r.name := List.mem_map_of_mem hkey
  have hnonempty : ¬(keys.map r.name).isEmpty := fun h => by
    rw [List.isEmpty_iff.mp h] at hname
    cases hname
  rw [found, answer, if_neg hnonempty, ← hfiled]
  rw [lookup_map fun row hrow => hinj row.1 (hrows row (List.mem_of_mem_filter hrow))]
  exact lookup_filter (hmono hselects _ hname) rows

omit [DecidableEq κ] in
theorem found_single (r : Reading κ ν) (key : κ) (a : α) :
    r.found [(key, a)] [r.name key] (r.name key) =
      if r.selects [r.name key] key = true ∧ r.filed key = r.text (r.name key) then some a
      else none := by
  have hanswer : r.answer [(key, a)] [r.name key] =
      if r.selects [r.name key] key = true then [(r.filed key, a)] else [] := by
    rw [answer, if_neg (by exact Bool.false_ne_true), List.filter_singleton]
    cases r.selects [r.name key] key <;> rfl
  rw [found, hanswer]
  by_cases hselects : r.selects [r.name key] key = true
  · by_cases hfiled : r.filed key = r.text (r.name key)
    · rw [if_pos hselects, if_pos ⟨hselects, hfiled⟩, lookup_cons, if_pos hfiled]
      rfl
    · rw [if_pos hselects, if_neg fun h => hfiled h.2, lookup_cons, if_neg hfiled]
      rfl
  · rw [if_neg hselects, if_neg fun h => hselects h.1]
    rfl

end Reading

end KeyedRead
