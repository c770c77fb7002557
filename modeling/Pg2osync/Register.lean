import Mathlib.Data.List.Induction
import Mathlib.Data.List.MinMax
import Mathlib.Order.Lattice

/-!
# Versioned registers

A register holds one value and decides between two writes by the version they
carry, not by which arrived last: a write takes effect when nothing of a higher
version is stored. There are two kinds, and they differ only in what a removal
leaves behind.

* A *bare* register drops its version together with its value, so after a
  removal any later write is accepted, whatever its version.
* A *marked* register keeps the version of the removal (a tombstone), and a
  later write of a lower version is declined.

For a bare register the main result says what a run of writes leaves in terms of
the list of writes alone: the newest *live* put (`runBare_spec`). For a marked
one it says when the order of two writes does not matter (`writeMarked_comm`)
and that a write makes an earlier copy of itself superfluous, whatever came in
between (`writeMarked_absorb`).
-/

namespace Register

universe u v

/-- A write at a version. -/
inductive Write (ν : Type u) (α : Type v) : Type (max u v) where
  /-- store a value -/
  | put (version : ν) (value : α) : Write ν α
  /-- remove the value -/
  | remove (version : ν) : Write ν α
  deriving DecidableEq

variable {ν : Type u} {α : Type v}

/-- The version a write carries. -/
def Write.version : Write ν α → ν
  | .put v _ => v
  | .remove v => v

/-- What a write leaves when it takes effect. -/
def Write.content : Write ν α → Option α
  | .put _ x => some x
  | .remove _ => none

/-- The write that leaves a content at a version. -/
def Write.of (v : ν) : Option α → Write ν α
  | some x => .put v x
  | none => .remove v

@[simp] theorem Write.version_put (v : ν) (x : α) : (Write.put v x).version = v := rfl
@[simp] theorem Write.version_remove (v : ν) : (Write.remove v : Write ν α).version = v := rfl
@[simp] theorem Write.content_put (v : ν) (x : α) : (Write.put v x).content = some x := rfl
@[simp] theorem Write.content_remove (v : ν) : (Write.remove v : Write ν α).content = none := rfl

@[simp] theorem Write.version_of (v : ν) (c : Option α) : (Write.of v c).version = v := by
  cases c <;> rfl

@[simp] theorem Write.content_of (v : ν) (c : Option α) : (Write.of v c).content = c := by
  cases c <;> rfl

/-- Where an element of a run with one more write at its end can stand. -/
theorem eq_or_eq_of_append_singleton {β : Type*} {ws pre post : List β} {w p : β}
    (h : ws ++ [w] = pre ++ p :: post) :
    (post = [] ∧ ws = pre ∧ w = p) ∨ ∃ rest, post = rest ++ [w] ∧ ws = pre ++ p :: rest := by
  induction post using List.reverseRecOn with
  | nil =>
    obtain ⟨h₁, h₂⟩ := List.append_inj' h rfl
    exact Or.inl ⟨rfl, h₁, List.singleton_inj.mp h₂⟩
  | append_singleton rest last _ =>
    have h' : ws ++ [w] = (pre ++ p :: rest) ++ [last] := by simpa using h
    obtain ⟨h₁, h₂⟩ := List.append_inj' h' rfl
    exact Or.inr ⟨rest, by rw [List.singleton_inj.mp h₂], h₁⟩

variable [LinearOrder ν]

/-! ## Bare registers -/

/-- One write to a bare register. -/
def writeBare (s : Option (ν × α)) : Write ν α → Option (ν × α)
  | .put v x => match s with
    | none => some (v, x)
    | some (w, y) => if w ≤ v then some (v, x) else some (w, y)
  | .remove v => match s with
    | none => none
    | some (w, y) => if w ≤ v then none else some (w, y)

/-- A run of writes to an empty bare register. -/
def runBare (ws : List (Write ν α)) : Option (ν × α) :=
  ws.foldl writeBare none

/-- A put is live in a run when no later removal of the run reaches its version. -/
def Live (ws : List (Write ν α)) (v : ν) (x : α) : Prop :=
  ∃ pre post, ws = pre ++ .put v x :: post ∧ ∀ u, .remove u ∈ post → u < v

theorem not_live_nil (v : ν) (x : α) : ¬ Live ([] : List (Write ν α)) v x := by
  rintro ⟨pre, post, h, -⟩
  cases pre <;> cases h

variable {ws : List (Write ν α)}

theorem live_append_put {v w : ν} {x y : α} :
    Live (ws ++ [.put w y]) v x ↔ Live ws v x ∨ (w = v ∧ y = x) := by
  constructor
  · rintro ⟨pre, post, h, hpost⟩
    rcases eq_or_eq_of_append_singleton h with ⟨-, -, h⟩ | ⟨rest, rfl, h'⟩
    · exact Or.inr (by simpa using h)
    · exact Or.inl ⟨pre, rest, h', fun u hu => hpost u (List.mem_append_left _ hu)⟩
  · rintro (⟨pre, post, rfl, hpost⟩ | ⟨rfl, rfl⟩)
    · refine ⟨pre, post ++ [.put w y], by simp, fun u hu => hpost u ?_⟩
      simpa using hu
    · exact ⟨ws, [], rfl, fun u hu => absurd hu List.not_mem_nil⟩

theorem live_append_remove {v w : ν} {x : α} :
    Live (ws ++ [.remove w]) v x ↔ Live ws v x ∧ w < v := by
  constructor
  · rintro ⟨pre, post, h, hpost⟩
    rcases eq_or_eq_of_append_singleton h with ⟨-, -, h⟩ | ⟨rest, rfl, h'⟩
    · cases h
    · exact ⟨⟨pre, rest, h', fun u hu => hpost u (List.mem_append_left _ hu)⟩,
        hpost w (List.mem_append_right _ (List.mem_singleton.mpr rfl))⟩
  · rintro ⟨⟨pre, post, rfl, hpost⟩, hw⟩
    refine ⟨pre, post ++ [.remove w], by simp, fun u hu => ?_⟩
    rcases List.mem_append.mp hu with hu | hu
    · exact hpost u hu
    · have hu : u = w := by simpa using hu
      rw [hu]
      exact hw

theorem runBare_append (ws : List (Write ν α)) (w : Write ν α) :
    runBare (ws ++ [w]) = writeBare (runBare ws) w := by
  simp [runBare]

/-- What a bare register holds, in terms of the live puts: none of them when it
is empty, and otherwise one that no other outranks. -/
def HoldsNewest (ws : List (Write ν α)) : Option (ν × α) → Prop
  | none => ∀ v x, ¬ Live ws v x
  | some (v, x) => Live ws v x ∧ ∀ w y, Live ws w y → w ≤ v

/-- **A bare register holds the newest live put.** By induction on the run, a
write at a time from the end. -/
theorem runBare_spec (ws : List (Write ν α)) : HoldsNewest ws (runBare ws) := by
  induction ws using List.reverseRecOn with
  | nil => exact fun v x => not_live_nil v x
  | append_singleton ws w ih =>
    rw [runBare_append]
    rcases hs : runBare ws with _ | ⟨v, x⟩
    · rw [hs] at ih
      cases w with
      | put v x =>
        refine ⟨live_append_put.mpr (Or.inr ⟨rfl, rfl⟩), fun w y hy => ?_⟩
        rcases live_append_put.mp hy with hy | ⟨rfl, -⟩
        · exact absurd hy (ih w y)
        · exact le_refl _
      | remove v =>
        exact fun w y hy => ih w y (live_append_remove.mp hy).1
    · rw [hs] at ih
      obtain ⟨hlive, htop⟩ := ih
      cases w with
      | put w y =>
        rw [writeBare]
        by_cases hle : v ≤ w
        · rw [if_pos hle]
          refine ⟨live_append_put.mpr (Or.inr ⟨rfl, rfl⟩), fun u z hz => ?_⟩
          rcases live_append_put.mp hz with hz | ⟨rfl, -⟩
          · exact le_trans (htop u z hz) hle
          · exact le_refl _
        · rw [if_neg hle]
          refine ⟨live_append_put.mpr (Or.inl hlive), fun u z hz => ?_⟩
          rcases live_append_put.mp hz with hz | ⟨rfl, -⟩
          · exact htop u z hz
          · exact le_of_lt (lt_of_not_ge hle)
      | remove w =>
        rw [writeBare]
        by_cases hle : v ≤ w
        · rw [if_pos hle]
          intro u z hz
          obtain ⟨hz, hlt⟩ := live_append_remove.mp hz
          exact absurd (le_trans (htop u z hz) hle) (not_le_of_gt hlt)
        · rw [if_neg hle]
          exact ⟨live_append_remove.mpr ⟨hlive, lt_of_not_ge hle⟩,
            fun u z hz => htop u z (live_append_remove.mp hz).1⟩

/-- A bare register ends empty exactly when no put of the run is live. -/
theorem runBare_eq_none_iff (ws : List (Write ν α)) :
    runBare ws = none ↔ ∀ v x, ¬ Live ws v x := by
  have hspec := runBare_spec ws
  constructor
  · intro h
    rw [h] at hspec
    exact hspec
  · intro h
    rcases hr : runBare ws with _ | ⟨v, x⟩
    · rfl
    · rw [hr] at hspec
      exact absurd hspec.1 (h v x)

theorem Live.mem {v : ν} {x : α} (h : Live ws v x) : Write.put v x ∈ ws := by
  obtain ⟨pre, post, rfl, -⟩ := h
  simp

/-- A put at the run's highest version, alone there, is what the register ends
with. -/
theorem runBare_of_top {v : ν} {x : α} (hmem : Write.put v x ∈ ws) (htop : ∀ w ∈ ws, w.version ≤ v)
    (honly : ∀ w ∈ ws, w.version = v → w = .put v x) : runBare ws = some (v, x) := by
  have hlive : Live ws v x := by
    obtain ⟨pre, post, rfl⟩ := List.append_of_mem hmem
    refine ⟨pre, post, rfl, fun u hu => ?_⟩
    have hu' : Write.remove u ∈ pre ++ .put v x :: post := by simp [hu]
    rcases lt_or_eq_of_le (htop _ hu') with hlt | heq
    · exact hlt
    · cases honly _ hu' heq
  have hspec := runBare_spec ws
  rcases hr : runBare ws with _ | ⟨w, y⟩
  · rw [hr] at hspec
    exact absurd hlive (hspec v x)
  · rw [hr] at hspec
    have hwv : w = v := le_antisymm (htop _ hspec.1.mem) (hspec.2 v x hlive)
    have := honly _ hspec.1.mem hwv
    simp only [Write.put.injEq] at this
    rw [this.1, this.2]

/-- A write that is not outdated leaves what it says. -/
theorem writeBare_of_le {w : Write ν α} {s : Option (ν × α)} (h : ∀ e ∈ s, e.1 ≤ w.version) :
    writeBare s w = w.content.map (w.version, ·) := by
  rcases s with _ | e
  · cases w <;> rfl
  · have hle := h e rfl
    cases w <;> simp only [Write.version] at hle <;>
      simp [writeBare, hle, Write.version, Write.content]

theorem foldl_writeBare_le {m : ν} (hws : ∀ w ∈ ws, w.version ≤ m) {s : Option (ν × α)}
    (hs : ∀ e ∈ s, e.1 ≤ m) : ∀ e ∈ ws.foldl writeBare s, e.1 ≤ m := by
  induction ws generalizing s with
  | nil => exact hs
  | cons w ws ih =>
    refine ih (fun u hu => hws u (List.mem_cons_of_mem _ hu)) ?_
    have hw := hws w List.mem_cons_self
    rcases s with _ | e <;> cases w <;> grind [writeBare, Write.version]

theorem foldl_writeBare_of_lt {e : ν × α} (hws : ∀ w ∈ ws, w.version < e.1) :
    ws.foldl writeBare (some e) = some e := by
  induction ws with
  | nil => rfl
  | cons w ws ih =>
    have hw := hws w List.mem_cons_self
    have hkept : writeBare (some e) w = some e := by
      cases w <;> simp only [Write.version] at hw <;> simp [writeBare, hw.not_ge]
    rw [List.foldl_cons, hkept]
    exact ih fun u hu => hws u (List.mem_cons_of_mem _ hu)

/-- **A run that is made again leaves what it left**, whatever of it was written before: either
its newest write is outdated, and then all are, or that write decides. -/
theorem foldl_writeBare_again {lost again : List (Write ν α)} (h : ∀ w ∈ lost, w ∈ again)
    (s : Option (ν × α)) :
    again.foldl writeBare (lost.foldl writeBare s) = again.foldl writeBare s := by
  cases htop : again.argmax Write.version with
  | none =>
    obtain rfl := List.argmax_eq_none.mp htop
    obtain rfl := List.eq_nil_iff_forall_not_mem.mpr fun w hw => List.not_mem_nil (h w hw)
    rfl
  | some top =>
    have hle : ∀ w ∈ again, w.version ≤ top.version := fun w hw => List.le_of_mem_argmax hw htop
    by_cases hs : ∀ e ∈ s, e.1 ≤ top.version
    · have hlost := foldl_writeBare_le (fun w hw => hle w (h w hw)) hs
      obtain ⟨pre, post, rfl⟩ := List.append_of_mem (List.argmax_mem htop)
      have hpre := fun w hw => hle w (List.mem_append_left _ hw)
      rw [List.foldl_append, List.foldl_append, List.foldl_cons, List.foldl_cons,
        writeBare_of_le (foldl_writeBare_le hpre hlost), writeBare_of_le (foldl_writeBare_le hpre hs)]
    · obtain ⟨e, he⟩ := not_forall.mp hs
      obtain ⟨rfl, hlt⟩ := Classical.not_imp.mp he
      have hkept : lost.foldl writeBare (some e) = some e :=
        foldl_writeBare_of_lt fun w hw => (hle w (h w hw)).trans_lt (not_le.mp hlt)
      rw [hkept]

/-! ## Marked registers -/

/-- One write to a marked register: a removal leaves its version behind. -/
def writeMarked (s : Option (ν × Option α)) (w : Write ν α) : Option (ν × Option α) :=
  match s with
  | none => some (w.version, w.content)
  | some (v, c) => if v ≤ w.version then some (w.version, w.content) else some (v, c)

/-- Two writes of different versions, or of one content, leave the same in
either order. -/
theorem writeMarked_comm {a b : Write ν α} (h : a.version ≠ b.version ∨ a.content = b.content)
    (s : Option (ν × Option α)) :
    writeMarked (writeMarked s a) b = writeMarked (writeMarked s b) a := by
  rcases s with _ | ⟨v, c⟩ <;> grind [writeMarked]

theorem writeMarked_self (w : Write ν α) (s : Option (ν × Option α)) :
    writeMarked (writeMarked s w) w = writeMarked s w := by
  rcases s with _ | ⟨v, c⟩ <;> grind [writeMarked]

/-- Two registers a write cannot tell apart stay so after any other write. -/
theorem writeMarked_absorb {x : Write ν α} {s t : Option (ν × Option α)}
    (h : writeMarked s x = writeMarked t x) (m : Write ν α) :
    writeMarked (writeMarked s m) x = writeMarked (writeMarked t m) x := by
  rcases s with _ | ⟨v, c⟩ <;> rcases t with _ | ⟨w, d⟩ <;> grind [writeMarked]

end Register
