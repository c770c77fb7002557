import Mathlib.Data.Fintype.Defs
import Mathlib.Data.Set.Finite.Basic
import Mathlib.Logic.Relation
import Mathlib.Order.WellFounded

/-!
# Walks that may not end

A value is read from a graph: a node is read by itself, or it has parts, which are read one after
the other, and a part may refer to another node. Nothing says that the references lead nowhere
back. So the reader is given a number of steps, and what has come of them may be that it is still
running.

The reader comes to an end exactly if it comes to no node that lies inside itself and to none on
which it panics. It comes to a node only if all parts ahead of it are read.
-/

/-- What has come of a number of steps. -/
inductive Walked (α : Type) : Type where
  /-- it is still running -/
  | running : Walked α
  /-- it has panicked -/
  | panics : Walked α
  /-- the input is refused -/
  | nothing : Walked α
  /-- it is read -/
  | value (a : α) : Walked α
  deriving DecidableEq, Repr

namespace Walked

variable {α β γ : Type}

/-- What is refused is, and what is not is read. -/
def ofOption : Option α → Walked α
  | none => nothing
  | some a => value a

def map (f : α → β) : Walked α → Walked β
  | running => running
  | panics => panics
  | nothing => nothing
  | value a => value (f a)

def bind (x : Walked α) (f : α → Walked β) : Walked β :=
  match x with
  | running => running
  | panics => panics
  | nothing => nothing
  | value a => f a

/-- One after the other, up to the first that is not read. -/
def collect (f : β → Walked α) : List β → Walked (List α)
  | [] => value []
  | b :: rest => (f b).bind fun a => (collect f rest).map (a :: ·)

/-- What has come of it, without what is read. -/
def kind (x : Walked α) : Walked Unit :=
  x.map fun _ => ()

/-- Whether all of some are read, or which is the first that is not. -/
def all : List (Walked Unit) → Walked Unit
  | [] => value ()
  | x :: rest => x.bind fun _ => all rest

@[simp] theorem kind_map (f : α → β) (x : Walked α) : (x.map f).kind = x.kind := by
  cases x <;> rfl

theorem kind_collect (f : β → Walked α) (l : List β) :
    (collect f l).kind = all (l.map fun b => (f b).kind) := by
  induction l with
  | nil => rfl
  | cons b rest ih =>
    rw [collect, List.map_cons, all, ← ih]
    cases f b with
    | running | panics | nothing => rfl
    | value a => exact kind_map _ _

theorem all_eq_value {l : List (Walked Unit)} : all l = value () ↔ ∀ x ∈ l, x = value () := by
  induction l with
  | nil => exact iff_of_true rfl fun x hx => absurd hx List.not_mem_nil
  | cons x rest ih =>
    rw [all, List.forall_mem_cons, ← ih]
    cases x with
    | running | panics | nothing => exact iff_of_false (by intro h; cases h) fun h => by cases h.1
    | value a => exact (and_iff_right rfl).symm

/-- What some come to is what they come to later, if that is no longer running. -/
theorem all_map_congr {f g : β → Walked Unit} {l : List β}
    (h : ∀ b ∈ l, f b ≠ running → g b = f b) (hall : all (l.map f) ≠ running) :
    all (l.map g) = all (l.map f) := by
  induction l with
  | nil => rfl
  | cons b rest ih =>
    rw [List.forall_mem_cons] at h
    rw [List.map_cons, all] at hall ⊢
    rw [List.map_cons, all]
    cases hf : f b with
    | running => exact absurd (by rw [hf]; rfl) hall
    | panics =>
      rw [h.1 (by rw [hf]; intro h; cases h), hf]
      rfl
    | nothing =>
      rw [h.1 (by rw [hf]; intro h; cases h), hf]
      rfl
    | value a =>
      rw [hf] at hall
      rw [h.1 (by rw [hf]; intro h; cases h), hf]
      exact ih h.2 hall

/-- What has come of some that are not all read has come of the first that is not. -/
theorem all_append_cons {front : List (Walked Unit)} {x : Walked Unit} {back : List (Walked Unit)}
    (hfront : ∀ y ∈ front, y = value ()) (hx : x ≠ value ()) : all (front ++ x :: back) = x := by
  induction front with
  | nil =>
    cases x with
    | running | panics | nothing => rfl
    | value a => exact absurd rfl hx
  | cons y front ih =>
    rw [List.forall_mem_cons] at hfront
    rw [List.cons_append, all, hfront.1]
    exact ih hfront.2

/-- The first that is not read. -/
theorem exists_first_of_all {l : List (Walked Unit)} (h : all l ≠ value ()) :
    ∃ front x back, l = front ++ x :: back ∧ (∀ y ∈ front, y = value ()) ∧ x ≠ value () ∧
      all l = x := by
  induction l with
  | nil => exact absurd rfl h
  | cons y rest ih =>
    by_cases hy : y = value ()
    · subst hy
      obtain ⟨front, x, back, rfl, hfront, hx, hall⟩ := ih h
      exact ⟨value () :: front, x, back, rfl, List.forall_mem_cons.mpr ⟨rfl, hfront⟩, hx, hall⟩
    · exact ⟨[], y, rest, rfl, fun _ hz => absurd hz List.not_mem_nil, hy,
        @all_append_cons [] y rest (fun _ hz => absurd hz List.not_mem_nil) hy⟩

end Walked

namespace Walk

variable {N : Type}

/-- A part of a node. -/
inductive Part (N : Type) : Type where
  /-- it cannot be read -/
  | refused : Part N
  /-- it is read where it is -/
  | here : Part N
  /-- it is another node -/
  | refers (n : N) : Part N

/-- What reading a node by itself comes to. -/
inductive Leaf : Type where
  | panics : Leaf
  | refused : Leaf
  | read : Leaf
  deriving DecidableEq

def Leaf.walked : Leaf → Walked Unit
  | panics => .panics
  | refused => .nothing
  | read => .value ()

/-- What a part comes to. -/
def Part.walked (walk : N → Walked Unit) : Part N → Walked Unit
  | refused => .nothing
  | here => .value ()
  | refers n => walk n

section

/- A node is read by itself, or it has parts. -/
variable (next : N → Leaf ⊕ List (Part N))

/-- Reading a node, in so many steps. -/
def walk : ℕ → N → Walked Unit
  | 0, _ => .running
  | fuel + 1, n =>
    match next n with
    | .inl leaf => leaf.walked
    | .inr parts => Walked.all (parts.map (Part.walked (walk fuel)))

/-- A node that is read: by itself, or all its parts are. -/
inductive Readable : N → Prop where
  | leaf {n : N} (h : next n = .inl .read) : Readable n
  | node {n : N} {parts : List (Part N)} (h : next n = .inr parts) (hparts : .refused ∉ parts)
      (hrefers : ∀ m, .refers m ∈ parts → Readable m) : Readable n

/-- A part that is read. -/
def Part.Readable : Part N → Prop
  | refused => False
  | here => True
  | refers m => Walk.Readable next m

/-- A node to which reading another one comes: all parts ahead of it are read. -/
def Child (n m : N) : Prop :=
  ∃ front back, next n = .inr (front ++ .refers m :: back) ∧ ∀ part ∈ front, part.Readable next

/-- Reading a node comes to one on which it panics, or to one that lies inside itself. -/
def Stuck (n : N) : Prop :=
  ∃ m, Relation.ReflTransGen (Child next) n m ∧
    (next m = .inl .panics ∨ Relation.TransGen (Child next) m m)

/-- A node that cannot be read, or has a part that cannot. -/
def Refused (n : N) : Prop :=
  next n = .inl .refused ∨ ∃ parts, next n = .inr parts ∧ .refused ∈ parts

variable {next} {n : N} {fuel : ℕ}

/-- More steps change nothing once it has come to an end. -/
theorem walk_succ (h : walk next fuel n ≠ .running) :
    walk next (fuel + 1) n = walk next fuel n := by
  induction fuel generalizing n with
  | zero => exact absurd rfl h
  | succ fuel ih =>
    rw [walk] at h ⊢
    cases hnext : next n with
    | inl leaf => rw [walk, hnext]
    | inr parts =>
      rw [hnext] at h
      rw [walk, hnext]
      refine Walked.all_map_congr (fun part _ hpart => ?_) h
      cases part with
      | refused | here => rfl
      | refers m => exact ih hpart

theorem walk_add (h : walk next fuel n ≠ .running) (more : ℕ) :
    walk next (fuel + more) n = walk next fuel n := by
  induction more with
  | zero => rfl
  | succ more ih => rw [← Nat.add_assoc, walk_succ (by rwa [ih]), ih]

theorem walk_of_le {fuel fuel' : ℕ} (h : walk next fuel n ≠ .running) (hle : fuel ≤ fuel') :
    walk next fuel' n = walk next fuel n := by
  rw [← Nat.add_sub_cancel' hle]
  exact walk_add h _

/-- As many steps as some nodes need each are enough for all of them. -/
theorem exists_fuel (parts : List (Part N))
    (h : ∀ m, .refers m ∈ parts → ∃ fuel, walk next fuel m ≠ .running) :
    ∃ fuel, ∀ m, .refers m ∈ parts → walk next fuel m ≠ .running := by
  induction parts with
  | nil => exact ⟨0, fun m hm => absurd hm List.not_mem_nil⟩
  | cons part rest ih =>
    obtain ⟨fuel, hfuel⟩ := ih fun m hm => h m (List.mem_cons_of_mem _ hm)
    cases part with
    | refused | here =>
      refine ⟨fuel, fun m hm => hfuel m ?_⟩
      exact (List.mem_cons.mp hm).resolve_left fun h => by cases h
    | refers m' =>
      obtain ⟨fuel', hfuel'⟩ := h m' List.mem_cons_self
      refine ⟨max fuel fuel', fun m hm => ?_⟩
      obtain heq | hm := List.mem_cons.mp hm
      · cases heq
        rwa [walk_of_le hfuel' (Nat.le_max_right _ _)]
      · rw [walk_of_le (hfuel m hm) (Nat.le_max_left _ _)]
        exact hfuel m hm

/-- What is read in some steps is a node that is read. -/
theorem readable_of_walk (h : walk next fuel n = .value ()) : Readable next n := by
  induction fuel generalizing n with
  | zero => cases h
  | succ fuel ih =>
    rw [walk] at h
    cases hnext : next n with
    | inl leaf =>
      rw [hnext] at h
      cases leaf with
      | panics | refused => cases h
      | read => exact .leaf hnext
    | inr parts =>
      rw [hnext] at h
      have hread : ∀ part ∈ parts, part.walked (walk next fuel) = .value () := fun part hpart =>
        Walked.all_eq_value.mp h _ (List.mem_map_of_mem hpart)
      refine .node hnext (fun hmem => ?_) fun m hm => ih (hread _ hm)
      cases hread _ hmem

/-- And a node that is read is, in some steps. -/
theorem Readable.walk (h : Readable next n) : ∃ fuel, walk next fuel n = .value () := by
  induction h with
  | leaf h => exact ⟨1, by rw [Walk.walk, h]; rfl⟩
  | @node n parts h hparts _ ih =>
    obtain ⟨fuel, hfuel⟩ := exists_fuel parts fun m hm => by
      obtain ⟨fuel, hfuel⟩ := ih m hm
      exact ⟨fuel, by rw [hfuel]; intro h; cases h⟩
    refine ⟨fuel + 1, ?_⟩
    rw [Walk.walk, h]
    refine Walked.all_eq_value.mpr fun x hx => ?_
    obtain ⟨part, hpart, rfl⟩ := List.mem_map.mp hx
    cases part with
    | refused => exact absurd hpart hparts
    | here => rfl
    | refers m =>
      obtain ⟨fuel', hfuel'⟩ := ih m hpart
      have hrunning : Walk.walk next fuel' m ≠ .running := by
        rw [hfuel']
        intro h
        cases h
      have hmore := walk_add hrunning fuel
      have hless := walk_add (hfuel m hpart) fuel'
      rw [Nat.add_comm] at hless
      exact (hless.symm.trans hmore).trans hfuel'

/-- A part that is read comes to a value, or is still running. -/
theorem Part.Readable.walked {part : Part N} (h : part.Readable next) (fuel : ℕ) :
    part.walked (walk next fuel) = .value () ∨ part.walked (walk next fuel) = .running := by
  cases part with
  | refused => exact absurd h id
  | here => exact .inl rfl
  | refers m =>
    obtain ⟨fuel', hfuel'⟩ := Walk.Readable.walk h
    by_cases hrunning : walk next fuel m = .running
    · exact .inr hrunning
    · have hmore := walk_add hrunning fuel'
      have hended : walk next fuel' m ≠ .running := by
        rw [hfuel']
        intro h
        cases h
      have hless := walk_add hended fuel
      rw [Nat.add_comm] at hless
      exact .inl ((hmore.symm.trans hless).trans hfuel')

/-! ### Walks that come to no end -/

theorem Stuck.of_child {n m : N} (hchild : Child next n m) (h : Stuck next m) : Stuck next n := by
  obtain ⟨k, hk, hstuck⟩ := h
  exact ⟨k, .head hchild hk, hstuck⟩

/-- A node that is stuck panics itself, or comes to one that is stuck. -/
theorem Stuck.cases (h : Stuck next n) :
    next n = .inl .panics ∨ ∃ m, Child next n m ∧ Stuck next m := by
  obtain ⟨k, hk, hstuck⟩ := h
  obtain rfl | ⟨m, hchild, hrest⟩ := Relation.ReflTransGen.cases_head hk
  · obtain hpanics | hcycle := hstuck
    · exact .inl hpanics
    · obtain ⟨m, hchild, hrest⟩ := Relation.TransGen.head'_iff.mp hcycle
      exact .inr ⟨m, hchild, n, hrest, .inr hcycle⟩
  · exact .inr ⟨m, hchild, k, hrest, hstuck⟩

/-- **A node that is stuck comes to no end**, but for a panic. -/
theorem Stuck.walk (h : Stuck next n) (fuel : ℕ) :
    walk next fuel n = .running ∨ walk next fuel n = .panics := by
  induction fuel generalizing n with
  | zero => exact .inl rfl
  | succ fuel ih =>
    rw [Walk.walk]
    obtain hpanics | ⟨m, ⟨front, back, hnext, hfront⟩, hm⟩ := h.cases
    · rw [hpanics]
      exact .inr rfl
    · rw [hnext]
      dsimp only
      rw [List.map_append, List.map_cons]
      have hpart : Part.walked (Walk.walk next fuel) (.refers m) = .running ∨
          Part.walked (Walk.walk next fuel) (.refers m) = .panics := ih hm
      by_cases hall : ∀ y ∈ front.map (Part.walked (Walk.walk next fuel)), y = .value ()
      · rw [Walked.all_append_cons hall (by obtain h | h := hpart <;> rw [h] <;> (intro h; cases h))]
        exact hpart
      · -- a part ahead of it is still running
        have hne : Walked.all (front.map (Part.walked (Walk.walk next fuel))) ≠ .value () :=
          fun h => hall (Walked.all_eq_value.mp h)
        obtain ⟨ahead, x, behind, hsplit, hahead, hx, -⟩ := Walked.exists_first_of_all hne
        have hmem : x ∈ front.map (Part.walked (Walk.walk next fuel)) := by
          rw [hsplit]
          exact List.mem_append_right _ List.mem_cons_self
        obtain ⟨part, hpart, rfl⟩ := List.mem_map.mp hmem
        have hrunning := ((hfront part hpart).walked fuel).resolve_left hx
        rw [hsplit, List.append_assoc, List.cons_append, Walked.all_append_cons hahead hx]
        exact .inl hrunning

variable {parts : List (Part N)}

/-- What comes of a node that is not read comes of its first part that is not. -/
theorem exists_part (hnext : next n = .inr parts) (h : walk next (fuel + 1) n ≠ .value ()) :
    ∃ ahead part behind,
      parts = ahead ++ part :: behind ∧ (∀ part ∈ ahead, part.Readable next) ∧
        part.walked (Walk.walk next fuel) = walk next (fuel + 1) n := by
  rw [Walk.walk, hnext] at h ⊢
  obtain ⟨front, x, back, hsplit, hfront, -, hx⟩ := Walked.exists_first_of_all h
  obtain ⟨ahead, rest, rfl, rfl, hrest⟩ := List.map_eq_append_iff.mp hsplit
  obtain ⟨part, behind, rfl, rfl, rfl⟩ := List.map_eq_cons_iff.mp hrest
  refine ⟨ahead, part, behind, rfl, fun part hpart => ?_, hx.symm⟩
  have hread := hfront _ (List.mem_map_of_mem hpart)
  cases part with
  | refused => cases hread
  | here => trivial
  | refers m => exact readable_of_walk hread

/-- What panics is stuck. -/
theorem stuck_of_panics (h : walk next fuel n = .panics) : Stuck next n := by
  induction fuel generalizing n with
  | zero => cases h
  | succ fuel ih =>
    cases hnext : next n with
    | inl leaf =>
      rw [Walk.walk, hnext] at h
      cases leaf with
      | refused | read => cases h
      | panics => exact ⟨n, .refl, .inl hnext⟩
    | inr parts =>
      obtain ⟨ahead, part, behind, rfl, hahead, hpart⟩ :=
        exists_part hnext (by rw [h]; exact fun h => by cases h)
      rw [h] at hpart
      cases part with
      | refused | here => cases hpart
      | refers m => exact (ih hpart).of_child ⟨ahead, behind, hnext, hahead⟩

theorem walkParts_of_le {fuel fuel' : ℕ}
    (h : Walked.all (parts.map (Part.walked (walk next fuel))) ≠ .running) (hle : fuel ≤ fuel') :
    Walked.all (parts.map (Part.walked (walk next fuel'))) =
      Walked.all (parts.map (Part.walked (walk next fuel))) := by
  refine Walked.all_map_congr (fun part _ hpart => ?_) h
  cases part with
  | refused | here => rfl
  | refers m => exact walk_of_le hpart hle

/-- The parts of a node are read to an end if the nodes are to which reading them comes. -/
theorem exists_end_parts (hnext : next n = .inr parts) (front back : List (Part N))
    (hparts : parts = front ++ back) (hfront : ∀ part ∈ front, part.Readable next)
    (h : ∀ m, Child next n m → ∃ fuel, walk next fuel m ≠ .running) :
    ∃ fuel, Walked.all (back.map (Part.walked (walk next fuel))) ≠ .running := by
  induction back generalizing front with
  | nil => exact ⟨0, fun h => by cases h⟩
  | cons part rest ih =>
    have hmore : part.Readable next →
        ∃ fuel, Walked.all (rest.map (Part.walked (walk next fuel))) ≠ .running := by
      intro hpart
      refine ih (front ++ [part]) (by rw [hparts, List.append_assoc]; rfl) fun part' hpart' => ?_
      obtain hpart' | hpart' := List.mem_append.mp hpart'
      · exact hfront part' hpart'
      · rwa [List.mem_singleton.mp hpart']
    cases part with
    | refused => exact ⟨0, fun h => by cases h⟩
    | here => exact hmore trivial
    | refers m =>
      obtain ⟨fuel, hfuel⟩ := h m ⟨front, rest, hnext.trans (congrArg _ hparts), hfront⟩
      by_cases hvalue : walk next fuel m = .value ()
      · obtain ⟨fuel', hfuel'⟩ := hmore (readable_of_walk hvalue)
        have hm : walk next (max fuel fuel') m = .value () :=
          (walk_of_le hfuel (Nat.le_max_left _ _)).trans hvalue
        refine ⟨max fuel fuel', ?_⟩
        rw [List.map_cons, Part.walked, Walked.all, hm]
        exact fun h => hfuel' ((walkParts_of_le hfuel' (Nat.le_max_right _ _)).symm.trans h)
      · refine ⟨fuel, ?_⟩
        rw [List.map_cons]
        have hfirst := @Walked.all_append_cons [] _ (rest.map (Part.walked (walk next fuel)))
          (fun _ hy => absurd hy List.not_mem_nil) hvalue
        exact fun h => hfuel (hfirst.symm.trans h)

/-- The nodes to which reading one comes are well-founded, if they are finite and it is not stuck. -/
theorem exists_end (hfinite : {m | Relation.ReflTransGen (Child next) n m}.Finite)
    (h : ¬Stuck next n) : ∃ fuel, walk next fuel n ≠ .running := by
  let Reached := {m // Relation.ReflTransGen (Child next) n m}
  have : Finite Reached := hfinite.to_subtype
  let below : Reached → Reached → Prop := fun b a => Relation.TransGen (Child next) a.1 b.1
  have htrans : IsTrans Reached below := ⟨fun _ _ _ hab hbc => hbc.trans hab⟩
  have hirrefl : Std.Irrefl below := ⟨fun a ha => h ⟨a.1, a.2, .inr ha⟩⟩
  have hwf : WellFounded below := Finite.wellFounded_of_trans_of_irrefl below
  have hall : ∀ a : Reached, ∃ fuel, walk next fuel a.1 ≠ .running := by
    intro a
    induction a using hwf.induction with
    | h a ih =>
      obtain ⟨m, hm⟩ := a
      cases hnext : next m with
      | inl leaf =>
        refine ⟨1, ?_⟩
        rw [Walk.walk, hnext]
        cases leaf <;> (intro h; cases h)
      | inr parts =>
        obtain ⟨fuel, hfuel⟩ := exists_end_parts hnext [] parts rfl
          (fun part hpart => absurd hpart List.not_mem_nil) fun m' hchild =>
            ih ⟨m', hm.tail hchild⟩ (.single hchild)
        refine ⟨fuel + 1, ?_⟩
        rw [Walk.walk, hnext]
        exact hfuel
  exact hall ⟨n, .refl⟩

/-- **A node is read to an end** exactly if it is not stuck. -/
theorem ends_iff (hfinite : {m | Relation.ReflTransGen (Child next) n m}.Finite) :
    (∃ fuel, walk next fuel n = .nothing ∨ walk next fuel n = .value ()) ↔ ¬Stuck next n := by
  constructor
  · rintro ⟨fuel, h⟩ hstuck
    obtain h' | h' := hstuck.walk fuel
    · rw [h'] at h
      obtain h | h := h <;> cases h
    · rw [h'] at h
      obtain h | h := h <;> cases h
  · intro h
    obtain ⟨fuel, hfuel⟩ := exists_end hfinite h
    refine ⟨fuel, ?_⟩
    cases hwalk : walk next fuel n with
    | running => exact absurd hwalk hfuel
    | panics => exact absurd (stuck_of_panics hwalk) h
    | nothing => exact .inl rfl
    | value a => exact .inr rfl

/-- A node that is read is not stuck. -/
theorem Readable.not_stuck (h : Readable next n) : ¬Stuck next n := by
  intro hstuck
  obtain ⟨fuel, hfuel⟩ := h.walk
  obtain h' | h' := hstuck.walk fuel
  · rw [h'] at hfuel
    cases hfuel
  · rw [h'] at hfuel
    cases hfuel

/-- What is refused comes to a node that is. -/
theorem refused_of_walk (h : walk next fuel n = .nothing) :
    ∃ m, Relation.ReflTransGen (Child next) n m ∧ Refused next m := by
  induction fuel generalizing n with
  | zero => cases h
  | succ fuel ih =>
    cases hnext : next n with
    | inl leaf =>
      rw [Walk.walk, hnext] at h
      cases leaf with
      | panics | read => cases h
      | refused => exact ⟨n, .refl, .inl hnext⟩
    | inr parts =>
      obtain ⟨ahead, part, behind, rfl, hahead, hpart⟩ :=
        exists_part hnext (by rw [h]; exact fun h => by cases h)
      rw [h] at hpart
      cases part with
      | here => cases hpart
      | refused =>
        exact ⟨n, .refl, .inr ⟨_, hnext, List.mem_append_right _ List.mem_cons_self⟩⟩
      | refers m =>
        obtain ⟨k, hk, hrefused⟩ := ih hpart
        exact ⟨k, .head ⟨ahead, behind, hnext, hahead⟩ hk, hrefused⟩

theorem Readable.not_refused (h : Readable next n) : ¬Refused next n := by
  cases h with
  | leaf h =>
    rintro (hrefused | ⟨parts, hparts, -⟩)
    · rw [h] at hrefused
      cases hrefused
    · rw [h] at hparts
      cases hparts
  | node h hparts _ =>
    rintro (hrefused | ⟨parts, hnext, hmem⟩)
    · rw [h] at hrefused
      cases hrefused
    · rw [h] at hnext
      cases hnext
      exact hparts hmem

/-- All nodes to which reading one comes are read if it is. -/
theorem Readable.of_reached {n m : N} (h : Readable next n)
    (hm : Relation.ReflTransGen (Child next) n m) : Readable next m := by
  induction hm with
  | refl => exact h
  | tail _ hchild ih =>
    obtain ⟨front, back, hnext, -⟩ := hchild
    cases ih with
    | leaf h => rw [hnext] at h; cases h
    | node h _ hrefers =>
      rw [hnext] at h
      cases h
      exact hrefers _ (List.mem_append_right _ List.mem_cons_self)

/-- **A node is read** exactly if it is not stuck and comes to none that is refused. -/
theorem readable_iff (hfinite : {m | Relation.ReflTransGen (Child next) n m}.Finite) :
    Readable next n ↔
      ¬Stuck next n ∧ ∀ m, Relation.ReflTransGen (Child next) n m → ¬Refused next m := by
  constructor
  · intro h
    exact ⟨h.not_stuck, fun m hm => (h.of_reached hm).not_refused⟩
  · rintro ⟨hstuck, hrefused⟩
    obtain ⟨fuel, hnothing | hvalue⟩ := (ends_iff hfinite).mpr hstuck
    · obtain ⟨m, hm, h⟩ := refused_of_walk hnothing
      exact absurd h (hrefused m hm)
    · exact readable_of_walk hvalue

/-- A node that is read comes to all of its parts. -/
theorem Readable.child {n m : N} (h : Readable next n) (hnext : next n = .inr parts)
    (hm : .refers m ∈ parts) : Child next n m := by
  cases h with
  | leaf h =>
    rw [hnext] at h
    cases h
  | node h hparts hrefers =>
    rw [hnext] at h
    cases h
    obtain ⟨front, back, rfl⟩ := List.append_of_mem hm
    refine ⟨front, back, hnext, fun part hpart => ?_⟩
    have hmem : part ∈ front ++ .refers m :: back := List.mem_append_left _ hpart
    cases part with
    | refused => exact absurd hmem hparts
    | here => trivial
    | refers m' => exact hrefers m' hmem

end

end Walk
