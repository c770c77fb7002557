import Mathlib.Data.List.Dedup
import Mathlib.Data.List.Perm.Basic
import Mathlib.Data.List.Pairwise

/-!
# Two routes

Items that come one after the other take one of two routes: some are sent at once, others
are held in groups until a flush sends the groups in an order of its own. What is held is
overtaken by what is sent meanwhile and by the groups that a flush takes first, and by
nothing else.
-/

namespace Routes

variable {α κ : Type}

/-- What happens. -/
inductive Act (α κ : Type) : Type where
  /-- an item is sent at once -/
  | now (a : α) : Act α κ
  /-- an item is held in a group -/
  | hold (k : κ) (a : α) : Act α κ
  /-- what is held is sent, group by group -/
  | flush (groups : List κ) : Act α κ

section Output

variable [DecidableEq κ]

/-- The items of a group, as they came. -/
def ofGroup (held : List (κ × α)) (k : κ) : List α :=
  (held.filter fun h => h.1 = k).map Prod.snd

/-- What a flush sends. -/
def flushed (held : List (κ × α)) (groups : List κ) : List α :=
  groups.flatMap (ofGroup held)

/-- What is sent, in that order. -/
def output : List (κ × α) → List (Act α κ) → List α
  | _, [] => []
  | held, .now a :: acts => a :: output held acts
  | held, .hold k a :: acts => output (held ++ [(k, a)]) acts
  | held, .flush groups :: acts => flushed held groups ++ output [] acts

end Output

/-- The items in the order they come in. -/
def log : List (Act α κ) → List α
  | [] => []
  | .now a :: acts | .hold _ a :: acts => a :: log acts
  | .flush _ :: acts => log acts

/-- Each flush takes every group that something is held in, once, and nothing is left in
the end. -/
def Flushes : List (κ × α) → List (Act α κ) → Prop
  | held, [] => held = []
  | held, .now _ :: acts => Flushes held acts
  | held, .hold k a :: acts => Flushes (held ++ [(k, a)]) acts
  | held, .flush groups :: acts => groups.Nodup ∧ (∀ h ∈ held, h.1 ∈ groups) ∧ Flushes [] acts

/-- An item `x` is sent before an item `y` that came first: `y` is held while `x` is sent
at once, or a flush takes the group of `x` before that of `y`. -/
def Overtakes (x y : α) : List (κ × α) → List (Act α κ) → Prop
  | _, [] => False
  | held, .now a :: acts => (a = x ∧ ∃ k, (k, y) ∈ held) ∨ Overtakes x y held acts
  | held, .hold k a :: acts => Overtakes x y (held ++ [(k, a)]) acts
  | held, .flush groups :: acts =>
    (∃ k k', [(k, y), (k', x)].Sublist held ∧ [k', k].Sublist groups) ∨ Overtakes x y [] acts

/-! ## Everything is sent -/

section

variable [DecidableEq κ]

theorem mem_ofGroup {held : List (κ × α)} {k : κ} {a : α} :
    a ∈ ofGroup held k ↔ (k, a) ∈ held := by
  rw [ofGroup, List.mem_map]
  constructor
  · rintro ⟨h, hmem, rfl⟩
    obtain ⟨hheld, hk⟩ := List.mem_filter.mp hmem
    obtain rfl := of_decide_eq_true hk
    exact hheld
  · intro h
    exact ⟨(k, a), List.mem_filter.mpr ⟨h, decide_eq_true rfl⟩, rfl⟩

theorem ofGroup_filter_ne {held : List (κ × α)} {k k' : κ} (h : k' ≠ k) :
    ofGroup (held.filter fun h => h.1 ≠ k) k' = ofGroup held k' := by
  rw [ofGroup, ofGroup, List.filter_filter]
  congr 1
  refine List.filter_congr fun held _ => ?_
  by_cases hk : held.1 = k'
  · simp [hk, h]
  · simp [hk]

theorem flushed_perm {groups : List κ} (hnodup : groups.Nodup) {held : List (κ × α)}
    (hcovers : ∀ h ∈ held, h.1 ∈ groups) : (flushed held groups).Perm (held.map Prod.snd) := by
  induction groups generalizing held with
  | nil =>
    have hnone : held = [] := List.eq_nil_iff_forall_not_mem.mpr fun h hmem => by
      cases hcovers h hmem
    rw [hnone]
    rfl
  | cons k groups ih =>
    obtain ⟨hk, hnodup⟩ := List.nodup_cons.mp hnodup
    -- the first group is set apart, the others are those of what remains
    have hrest : flushed held groups = flushed (held.filter fun h => h.1 ≠ k) groups :=
      List.flatMap_congr fun k' hk' => (ofGroup_filter_ne (ne_of_mem_of_not_mem hk' hk)).symm
    have hperm : (flushed held groups).Perm ((held.filter fun h => h.1 ≠ k).map Prod.snd) := by
      rw [hrest]
      refine ih hnodup fun h hmem => ?_
      obtain ⟨hheld, hne⟩ := List.mem_filter.mp hmem
      exact (List.mem_cons.mp (hcovers h hheld)).resolve_left (of_decide_eq_true hne)
    have hsplit : (ofGroup held k ++ (held.filter fun h => h.1 ≠ k).map Prod.snd).Perm
        (held.map Prod.snd) := by
      rw [ofGroup, ← List.map_append]
      refine List.Perm.map Prod.snd ?_
      simpa using List.filter_append_perm (fun h => decide (h.1 = k)) held
    exact (hperm.append_left (ofGroup held k)).trans hsplit

/-- **Everything is sent**, and nothing else. -/
theorem output_perm {held : List (κ × α)} {acts : List (Act α κ)} (h : Flushes held acts) :
    (output held acts).Perm (held.map Prod.snd ++ log acts) := by
  induction acts generalizing held with
  | nil =>
    rw [show held = [] from h]
    rfl
  | cons act acts ih =>
    cases act with
    | now a => exact ((ih h).cons a).trans List.perm_middle.symm
    | hold k a =>
      have hperm : (output (held ++ [(k, a)]) acts).Perm
          ((held ++ [(k, a)]).map Prod.snd ++ log acts) := ih h
      rw [List.map_append, List.append_assoc] at hperm
      exact hperm
    | flush groups =>
      obtain ⟨hnodup, hcovers, h⟩ := h
      exact (flushed_perm hnodup hcovers).append (ih h)

end

/-! ## What is overtaken -/

theorem pair_sublist_cons {x y a : α} {rest : List α} :
    [x, y].Sublist (a :: rest) ↔ (x = a ∧ y ∈ rest) ∨ [x, y].Sublist rest := by
  constructor
  · intro h
    cases h with
    | cons _ h => exact .inr h
    | cons_cons _ h => exact .inl ⟨rfl, List.singleton_sublist.mp h⟩
  · rintro (⟨rfl, hy⟩ | h)
    · exact (List.singleton_sublist.mpr hy).cons_cons x
    · exact h.cons a

theorem pair_sublist_append {x y : α} {first rest : List α} :
    [x, y].Sublist (first ++ rest) ↔
      [x, y].Sublist first ∨ (x ∈ first ∧ y ∈ rest) ∨ [x, y].Sublist rest := by
  induction first with
  | nil => simp
  | cons a first ih =>
    rw [List.cons_append, pair_sublist_cons, pair_sublist_cons, ih, List.mem_cons, List.mem_append]
    tauto

variable {β : Type}

section

variable (number : α → ℕ)

/-- In a list that is in order, what has a smaller number comes first. -/
theorem pair_sublist_of_lt {number : β → ℕ} {items : List β}
    (hsorted : items.Pairwise fun a b => number a < number b) {a b : β} (ha : a ∈ items)
    (hb : b ∈ items) (h : number a < number b) : [a, b].Sublist items := by
  induction items with
  | nil => cases ha
  | cons c rest ih =>
    obtain ⟨hfirst, hsorted⟩ := List.pairwise_cons.mp hsorted
    rw [pair_sublist_cons]
    rcases List.mem_cons.mp ha with rfl | hrest
    · rcases List.mem_cons.mp hb with rfl | hb
      · exact absurd h (Nat.lt_irrefl _)
      · exact .inl ⟨rfl, hb⟩
    · rcases List.mem_cons.mp hb with rfl | hb
      · exact absurd (hfirst a hrest) (Nat.lt_asymm h)
      · exact .inr (ih hsorted hrest hb)

theorem lt_of_pair_sublist {number : β → ℕ} {items : List β}
    (hsorted : items.Pairwise fun a b => number a < number b) {a b : β} (h : [a, b].Sublist items) :
    number a < number b :=
  (List.pairwise_cons.mp (hsorted.sublist h)).1 b List.mem_cons_self

variable [DecidableEq κ] {number} {held : List (κ × α)} {x y : α}

/-- A flush sends two items the other way round exactly where it takes their groups so. -/
theorem flushed_overtakes (hsorted : held.Pairwise fun a b => number a.2 < number b.2)
    (groups : List κ) :
    ([x, y].Sublist (flushed held groups) ∧ number y < number x) ↔
      ∃ k k', [(k, y), (k', x)].Sublist held ∧ [k', k].Sublist groups := by
  induction groups with
  | nil =>
    constructor
    · rintro ⟨h, -⟩
      cases h
    · rintro ⟨k, k', -, h⟩
      cases h
  | cons g groups ih =>
    have hgroup : ∀ {a b : α}, [a, b].Sublist (ofGroup held g) → number a < number b := by
      intro a b h
      have hitems : (ofGroup held g).Pairwise fun a b => number a < number b :=
        List.pairwise_map.mpr (hsorted.filter _)
      exact lt_of_pair_sublist hitems h
    rw [flushed, List.flatMap_cons, pair_sublist_append]
    constructor
    · rintro ⟨h | ⟨hx, hy⟩ | h, hlt⟩
      · exact absurd (hgroup h) (Nat.lt_asymm hlt)
      · obtain ⟨k, hk, hy⟩ := List.mem_flatMap.mp hy
        exact ⟨k, g, pair_sublist_of_lt hsorted (mem_ofGroup.mp hy) (mem_ofGroup.mp hx) hlt,
          pair_sublist_cons.mpr (.inl ⟨rfl, hk⟩)⟩
      · obtain ⟨k, k', hheld, hgroups⟩ := ih.mp ⟨h, hlt⟩
        exact ⟨k, k', hheld, hgroups.cons g⟩
    · rintro ⟨k, k', hheld, hgroups⟩
      have hlt : number y < number x := lt_of_pair_sublist hsorted hheld
      refine ⟨?_, hlt⟩
      rcases pair_sublist_cons.mp hgroups with ⟨rfl, hk⟩ | hgroups
      · have hy : (k, y) ∈ held := hheld.subset List.mem_cons_self
        have hx : (k', x) ∈ held := hheld.subset (List.mem_cons_of_mem _ List.mem_cons_self)
        exact .inr (.inl ⟨mem_ofGroup.mpr hx, List.mem_flatMap.mpr ⟨k, hk, mem_ofGroup.mpr hy⟩⟩)
      · exact .inr (.inr (ih.mpr ⟨k, k', hheld, hgroups⟩).1)

/-- **What is sent before what came first.** -/
theorem overtakes_iff {acts : List (Act α κ)} (hflushes : Flushes held acts)
    (hlog : (held.map Prod.snd ++ log acts).Pairwise fun a b => number a < number b) :
    ([x, y].Sublist (output held acts) ∧ number y < number x) ↔ Overtakes x y held acts := by
  induction acts generalizing held with
  | nil =>
    constructor
    · rintro ⟨h, -⟩
      cases h
    · exact False.elim
  | cons act acts ih =>
    obtain ⟨hheld, hacts, hbetween⟩ := List.pairwise_append.mp hlog
    cases act with
    | now a =>
      obtain ⟨hafter, hacts⟩ := List.pairwise_cons.mp hacts
      have hperm : (output held acts).Perm (held.map Prod.snd ++ log acts) := output_perm hflushes
      have hrest := ih hflushes (List.pairwise_append.mpr ⟨hheld, hacts,
        fun b hb c hc => hbetween b hb c (List.mem_cons_of_mem a hc)⟩)
      rw [output, pair_sublist_cons, Overtakes, ← hrest]
      constructor
      · rintro ⟨⟨rfl, hy⟩ | h, hlt⟩
        · -- what comes later has a larger number
          rcases List.mem_append.mp (hperm.mem_iff.mp hy) with hy | hy
          · obtain ⟨⟨k, b⟩, hk, rfl⟩ := List.mem_map.mp hy
            exact .inl ⟨rfl, k, hk⟩
          · exact absurd (hafter y hy) (Nat.lt_asymm hlt)
        · exact .inr ⟨h, hlt⟩
      · rintro (⟨rfl, k, hk⟩ | ⟨h, hlt⟩)
        · have hy : y ∈ held.map Prod.snd := List.mem_map_of_mem (f := Prod.snd) hk
          exact ⟨.inl ⟨rfl, hperm.mem_iff.mpr (List.mem_append_left _ hy)⟩,
            hbetween y hy a List.mem_cons_self⟩
        · exact ⟨.inr h, hlt⟩
    | hold k a =>
      refine ih hflushes ?_
      rw [List.map_append, List.append_assoc]
      exact hlog
    | flush groups =>
      obtain ⟨hnodup, hcovers, hflushes⟩ := hflushes
      have hsorted : held.Pairwise fun a b => number a.2 < number b.2 := by
        rw [List.pairwise_map] at hheld
        exact hheld
      rw [output, pair_sublist_append, Overtakes, ← flushed_overtakes hsorted groups,
        ← ih hflushes hacts]
      constructor
      · rintro ⟨h | ⟨hx, hy⟩ | h, hlt⟩
        · exact .inl ⟨h, hlt⟩
        · have hx := (flushed_perm hnodup hcovers).mem_iff.mp hx
          have hy := (output_perm hflushes).mem_iff.mp hy
          exact absurd (hbetween x hx y hy) (Nat.lt_asymm hlt)
        · exact .inr ⟨h, hlt⟩
      · rintro (⟨h, hlt⟩ | ⟨h, hlt⟩)
        · exact ⟨.inl h, hlt⟩
        · exact ⟨.inr (.inr h), hlt⟩

end

/-! ## Part by part -/

section

variable [DecidableEq κ]

/-- Some acts send a part and leave what is held then. -/
structure Sends (held : List (κ × α)) (acts : List (Act α κ)) (part : List α)
    (left : List (κ × α)) : Prop where
  /-- what is sent -/
  output : ∀ rest, output held (acts ++ rest) = part ++ output left rest
  /-- and flushed -/
  flushes : ∀ rest, Flushes left rest → Flushes held (acts ++ rest)

variable {held left final : List (κ × α)} {acts more : List (Act α κ)} {part later : List α}

theorem Sends.nil (held : List (κ × α)) : Sends held [] [] held :=
  ⟨fun _ => rfl, fun _ h => h⟩

theorem Sends.now (held : List (κ × α)) (a : α) : Sends held [.now a] [a] held :=
  ⟨fun _ => rfl, fun _ h => h⟩

theorem Sends.hold (held : List (κ × α)) (k : κ) (a : α) :
    Sends held [.hold k a] [] (held ++ [(k, a)]) :=
  ⟨fun _ => rfl, fun _ h => h⟩

theorem Sends.flush {groups : List κ} (hnodup : groups.Nodup)
    (hcovers : ∀ h ∈ held, h.1 ∈ groups) :
    Sends held [.flush groups] (flushed held groups) [] :=
  ⟨fun _ => rfl, fun _ h => ⟨hnodup, hcovers, h⟩⟩

theorem Sends.append (h : Sends held acts part left) (h' : Sends left more later final) :
    Sends held (acts ++ more) (part ++ later) final := by
  refine ⟨fun rest => ?_, fun rest hrest => ?_⟩
  · rw [List.append_assoc, h.output, h'.output, List.append_assoc]
  · rw [List.append_assoc]
    exact h.flushes _ (h'.flushes rest hrest)

/-- Where nothing was held and nothing is, the part is all that is sent. -/
theorem Sends.all (h : Sends [] acts part []) :
    Routes.output [] acts = part ∧ Flushes [] acts := by
  have houtput := h.output []
  have hflushes := h.flushes [] rfl
  rw [List.append_nil] at houtput hflushes
  exact ⟨houtput.trans (List.append_nil part), hflushes⟩

end

/-! ## Numbers -/

/-- The same with another item. -/
def Act.map {β : Type} (f : α → β) : Act α κ → Act β κ
  | .now a => .now (f a)
  | .hold k a => .hold k (f a)
  | .flush groups => .flush groups

/-- Items with their place in the log. -/
def numbered : ℕ → List (Act α κ) → List (Act (ℕ × α) κ)
  | _, [] => []
  | n, .now a :: acts => .now (n, a) :: numbered (n + 1) acts
  | n, .hold k a :: acts => .hold k (n, a) :: numbered (n + 1) acts
  | n, .flush groups :: acts => .flush groups :: numbered n acts

theorem map_numbered (n : ℕ) (acts : List (Act α κ)) :
    (numbered n acts).map (Act.map Prod.snd) = acts := by
  induction acts generalizing n with
  | nil => rfl
  | cons act acts ih => cases act <;> exact congrArg (List.cons _) (ih _)

theorem map_output [DecidableEq κ] (f : α → β) (held : List (κ × α)) (acts : List (Act α κ)) :
    (output held acts).map f =
      output (held.map fun h => (h.1, f h.2)) (acts.map (Act.map f)) := by
  induction acts generalizing held with
  | nil => rfl
  | cons act acts ih =>
    cases act with
    | now a => exact congrArg (List.cons (f a)) (ih held)
    | hold k a =>
      refine (ih _).trans ?_
      rw [List.map_append]
      rfl
    | flush groups =>
      have hgroup : ∀ k, (ofGroup held k).map f = ofGroup (held.map fun h => (h.1, f h.2)) k := by
        intro k
        simp only [ofGroup, List.filter_map, List.map_map]
        rfl
      rw [output, List.map_append, ih, flushed, List.map_flatMap]
      simp only [hgroup]
      rfl

theorem flushes_map (f : α → β) (held : List (κ × α)) (acts : List (Act α κ)) :
    Flushes (held.map fun h => (h.1, f h.2)) (acts.map (Act.map f)) ↔ Flushes held acts := by
  induction acts generalizing held with
  | nil => exact List.map_eq_nil_iff
  | cons act acts ih =>
    cases act with
    | now a => exact ih held
    | hold k a =>
      have hheld := ih (held ++ [(k, a)])
      rw [List.map_append] at hheld
      exact hheld
    | flush groups =>
      refine and_congr Iff.rfl (and_congr ?_ (ih []))
      simp only [List.forall_mem_map]

theorem log_numbered_sorted (n : ℕ) (acts : List (Act α κ)) :
    (log (numbered n acts)).Pairwise (fun a b => a.1 < b.1) ∧
      ∀ a ∈ log (numbered n acts), n ≤ a.1 := by
  induction acts generalizing n with
  | nil => exact ⟨.nil, fun a ha => absurd ha List.not_mem_nil⟩
  | cons act acts ih =>
    cases act with
    | now a | hold k a =>
      obtain ⟨hsorted, hle⟩ := ih (n + 1)
      refine ⟨List.pairwise_cons.mpr ⟨fun b hb => hle b hb, hsorted⟩, fun b hb => ?_⟩
      rcases List.mem_cons.mp hb with rfl | hb
      · exact Nat.le_refl n
      · exact Nat.le_of_succ_le (hle b hb)
    | flush groups => exact ih n

end Routes
