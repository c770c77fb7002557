import Mathlib.Data.List.Perm.Basic
import Mathlib.Data.List.Pairwise
import Mathlib.Data.List.Nodup

/-!
# Dictionaries

A dictionary is a list of entries with increasing keys, so that two dictionaries
which answer every look-up alike are equal. The order of the keys is a decidable
one, which lets a dictionary be built and compared by evaluation.
-/

/-- A decidable strict total order of keys. -/
class KeyOrder (κ : Type*) where
  /-- whether one key comes before another -/
  before : κ → κ → Bool
  irrefl : ∀ k, before k k = false
  trans : ∀ {a b c}, before a b = true → before b c = true → before a c = true
  total : ∀ {a b}, a ≠ b → before a b = false → before b a = true

/-- Entries with increasing keys. -/
structure Dictionary (κ : Type*) [KeyOrder κ] (β : Type*) where
  /-- the entries, in the order of their keys -/
  entries : List (κ × β)
  sorted : entries.Pairwise fun a b => KeyOrder.before a.1 b.1 = true

namespace Dictionary

variable {κ β γ : Type*} [KeyOrder κ]

theorem ne_of_before {a b : κ} (h : KeyOrder.before a b = true) : a ≠ b := by
  rintro rfl
  rw [KeyOrder.irrefl] at h
  cases h

@[ext] theorem ext {d e : Dictionary κ β} (h : d.entries = e.entries) : d = e := by
  obtain ⟨entries, _⟩ := d
  cases h
  rfl

instance [DecidableEq κ] [DecidableEq β] : DecidableEq (Dictionary κ β) := fun d e =>
  decidable_of_iff (d.entries = e.entries) ⟨Dictionary.ext, fun h => h ▸ rfl⟩

/-- The dictionary with no entries. -/
def empty : Dictionary κ β := ⟨[], List.Pairwise.nil⟩

instance : EmptyCollection (Dictionary κ β) := ⟨empty⟩

instance : Inhabited (Dictionary κ β) := ⟨empty⟩

/-- Whether there is nothing in it. -/
def isEmpty (d : Dictionary κ β) : Bool := d.entries.isEmpty

/-- The keys. -/
def keys (d : Dictionary κ β) : List κ := d.entries.map Prod.fst

/-- The values, in the order of their keys. -/
def values (d : Dictionary κ β) : List β := d.entries.map Prod.snd

theorem nodup_keys (d : Dictionary κ β) : d.keys.Nodup :=
  List.pairwise_map.mpr (d.sorted.imp ne_of_before)

variable [DecidableEq κ]

/-! ## Looking up -/

/-- The value of the first entry with a key. -/
def find (key : κ) : List (κ × β) → Option β
  | [] => none
  | (k, v) :: rest => if k = key then some v else find key rest

/-- The value of a key. -/
def get? (d : Dictionary κ β) (key : κ) : Option β := find key d.entries

/-- Whether there is an entry with the key. -/
def contains (d : Dictionary κ β) (key : κ) : Bool := (d.get? key).isSome

omit [KeyOrder κ] in
theorem mem_of_find {key : κ} {value : β} {entries : List (κ × β)}
    (h : find key entries = some value) : (key, value) ∈ entries := by
  induction entries with
  | nil => cases h
  | cons e rest ih =>
    obtain ⟨k, v⟩ := e
    rw [find] at h
    split at h
    · next hk =>
      cases h
      exact hk ▸ List.mem_cons_self
    · exact List.mem_cons_of_mem _ (ih h)

theorem find_of_mem {key : κ} {value : β} {entries : List (κ × β)}
    (hs : entries.Pairwise fun a b => KeyOrder.before a.1 b.1 = true)
    (h : (key, value) ∈ entries) : find key entries = some value := by
  induction entries with
  | nil => cases h
  | cons e rest ih =>
    obtain ⟨k, v⟩ := e
    obtain ⟨hfirst, hs⟩ := List.pairwise_cons.mp hs
    rw [find]
    rcases List.mem_cons.mp h with h | h
    · cases h
      exact if_pos rfl
    · rw [if_neg (ne_of_before (hfirst _ h))]
      exact ih hs h

@[simp] theorem get?_empty (key : κ) : (∅ : Dictionary κ β).get? key = none :=
  rfl

/-- The entries of a dictionary are what its look-ups answer. -/
theorem mem_entries_iff {d : Dictionary κ β} {key : κ} {value : β} :
    (key, value) ∈ d.entries ↔ d.get? key = some value :=
  ⟨find_of_mem d.sorted, mem_of_find⟩

/-- Two dictionaries that answer every look-up alike are equal. -/
theorem ext_get? {d e : Dictionary κ β} (h : ∀ key, d.get? key = e.get? key) : d = e := by
  have hnodup : ∀ d : Dictionary κ β, d.entries.Nodup := fun d => (nodup_keys d).of_map _
  have hperm : d.entries.Perm e.entries := by
    apply (List.perm_ext_iff_of_nodup (hnodup d) (hnodup e)).mpr
    rintro ⟨key, value⟩
    rw [mem_entries_iff, mem_entries_iff, h key]
  apply Dictionary.ext
  apply hperm.eq_of_pairwise (fun a b _ _ hab hba => ?_) d.sorted e.sorted
  have := KeyOrder.trans hab hba
  rw [KeyOrder.irrefl] at this
  cases this

theorem mem_keys_iff {d : Dictionary κ β} {key : κ} : key ∈ d.keys ↔ ∃ v, d.get? key = some v := by
  simp only [keys, List.mem_map, Prod.exists, exists_and_right, exists_eq_right, mem_entries_iff]

/-! ## Editing -/

/-- An entry filed before the first greater key, in the place of the one it replaces. -/
def insertEntry (key : κ) (value : β) : List (κ × β) → List (κ × β)
  | [] => [(key, value)]
  | (k, v) :: rest =>
    if k = key then (key, value) :: rest
    else if KeyOrder.before key k then (key, value) :: (k, v) :: rest
    else (k, v) :: insertEntry key value rest

theorem mem_insertEntry {key : κ} {value : β} {entries : List (κ × β)} {e : κ × β}
    (h : e ∈ insertEntry key value entries) : e = (key, value) ∨ e ∈ entries := by
  induction entries with
  | nil => exact .inl (List.mem_singleton.mp h)
  | cons f rest ih =>
    rw [insertEntry] at h
    split at h
    · exact (List.mem_cons.mp h).imp_right (List.mem_cons_of_mem _)
    · split at h
      · exact List.mem_cons.mp h
      · rcases List.mem_cons.mp h with h | h
        · exact .inr (h ▸ List.mem_cons_self)
        · exact (ih h).imp_right (List.mem_cons_of_mem _)

theorem sorted_insertEntry {key : κ} {value : β} {entries : List (κ × β)}
    (hs : entries.Pairwise fun a b => KeyOrder.before a.1 b.1 = true) :
    (insertEntry key value entries).Pairwise fun a b => KeyOrder.before a.1 b.1 = true := by
  induction entries with
  | nil => exact List.pairwise_singleton _ _
  | cons f rest ih =>
    obtain ⟨k, v⟩ := f
    obtain ⟨hfirst, hrest⟩ := List.pairwise_cons.mp hs
    rw [insertEntry]
    split
    · next hk => exact List.pairwise_cons.mpr ⟨fun e he => hk ▸ hfirst e he, hrest⟩
    · next hk =>
      split
      · next hb =>
        refine List.pairwise_cons.mpr ⟨fun e he => ?_, hs⟩
        rcases List.mem_cons.mp he with rfl | he
        · exact hb
        · exact KeyOrder.trans hb (hfirst e he)
      · next hb =>
        refine List.pairwise_cons.mpr ⟨fun e he => ?_, ih hrest⟩
        rcases mem_insertEntry he with rfl | he
        · exact KeyOrder.total (fun h => hk h.symm) (Bool.eq_false_iff.mpr hb)
        · exact hfirst e he

theorem find_insertEntry (key other : κ) (value : β) (entries : List (κ × β)) :
    find other (insertEntry key value entries) =
      if key = other then some value else find other entries := by
  induction entries with
  | nil => rfl
  | cons f rest ih =>
    obtain ⟨k, v⟩ := f
    rw [insertEntry]
    split
    · next hk =>
      subst hk
      by_cases ho : k = other <;> simp [find, ho]
    · next hk =>
      split
      · rfl
      · rw [find, ih, find]
        by_cases ho : k = other
        · rw [if_pos ho, if_neg (fun h => hk (ho.trans h.symm)), if_pos ho]
        · rw [if_neg ho, if_neg ho]

/-- The dictionary with a key's value set. -/
def insert (d : Dictionary κ β) (key : κ) (value : β) : Dictionary κ β :=
  ⟨insertEntry key value d.entries, sorted_insertEntry d.sorted⟩

/-- The dictionary without a key. -/
def erase (d : Dictionary κ β) (key : κ) : Dictionary κ β :=
  ⟨d.entries.filter fun e => e.1 ≠ key, d.sorted.filter _⟩

/-- The dictionary of the keys that pass. -/
def retain (d : Dictionary κ β) (keep : κ → Bool) : Dictionary κ β :=
  ⟨d.entries.filter fun e => keep e.1, d.sorted.filter _⟩

/-- The dictionary of some entries, a later one in the place of an earlier. -/
def ofList (entries : List (κ × β)) : Dictionary κ β :=
  entries.foldl (fun d e => d.insert e.1 e.2) ∅

theorem get?_insert (d : Dictionary κ β) (key other : κ) (value : β) :
    (d.insert key value).get? other = if key = other then some value else d.get? other :=
  find_insertEntry key other value d.entries

theorem get?_foldl_insert {entries : List (κ × β)} (hkeys : (entries.map Prod.fst).Nodup)
    (d : Dictionary κ β) (key : κ) :
    (entries.foldl (fun d e => d.insert e.1 e.2) d).get? key =
      (find key entries).or (d.get? key) := by
  induction entries generalizing d with
  | nil => rfl
  | cons e rest ih =>
    obtain ⟨k, v⟩ := e
    obtain ⟨hfirst, hkeys⟩ := List.nodup_cons.mp hkeys
    rw [List.foldl_cons, ih hkeys, get?_insert, find]
    split
    · next hk =>
      subst hk
      have hnone : find k rest = none := by
        cases hfind : find k rest with
        | none => rfl
        | some w => exact absurd (List.mem_map_of_mem (mem_of_find hfind)) hfirst
      rw [hnone]
      rfl
    · rfl

/-- A dictionary is that of its entries. -/
theorem ofList_entries (d : Dictionary κ β) : ofList d.entries = d :=
  ext_get? fun key => by
    rw [ofList, get?_foldl_insert (nodup_keys d), get?_empty, Option.or_none]
    rfl

omit [KeyOrder κ] in
theorem find_filter_ne (key other : κ) (entries : List (κ × β)) :
    find other (entries.filter fun e => e.1 ≠ key) =
      if key = other then none else find other entries := by
  induction entries with
  | nil => simp [find]
  | cons f rest ih =>
    obtain ⟨k, v⟩ := f
    rw [List.filter_cons]
    by_cases hk : k = key
    · rw [if_neg (by simp [hk]), ih, find, hk]
      by_cases ho : key = other <;> simp [ho]
    · rw [if_pos (by simp [hk]), find, ih, find]
      by_cases ho : key = other
      · rw [if_neg (fun h => hk (h.trans ho.symm)), if_pos ho, if_pos ho]
      · simp [ho]

theorem get?_erase (d : Dictionary κ β) (key other : κ) :
    (d.erase key).get? other = if key = other then none else d.get? other :=
  find_filter_ne key other d.entries

theorem get?_retain (d : Dictionary κ β) (keep : κ → Bool) (key : κ) :
    (d.retain keep).get? key = if keep key then d.get? key else none := by
  apply Option.ext
  intro value
  rw [← mem_entries_iff, retain, List.mem_filter, mem_entries_iff]
  by_cases hkeep : keep key = true
  · simp [hkeep]
  · simp [hkeep]

end Dictionary
