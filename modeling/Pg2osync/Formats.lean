import Mathlib.Data.List.Basic
import Pg2osync.Faults

/-!
# Formats

A format says of each value which symbols it may be written with. A reader of a format takes the
symbols of a value from the front and leaves what is behind them; it takes nothing that is not the
symbols of a value; and it ends. What is true of the parts of a format is true of it: they may stand
one behind the other, or many times, or a first symbol may tell them apart.

No value's symbols go on as another's, since the reader of the format could not tell where to stop.
-/

namespace Ran

variable {ε α β τ : Type}

instance : LawfulMonad (Ran ε) := LawfulMonad.mk' _
  (fun x => by cases x <;> rfl)
  (fun _ _ => rfl)
  (fun x _ _ => by cases x <;> rfl)

/-- A reader of symbols. -/
abbrev Reader (ε τ : Type) := StateT (List τ) (Ran ε)

/-- It ends with an error. -/
def fail (e : ε) : Reader ε τ α :=
  fun _ => failed e

@[simp] theorem run_fail (e : ε) (s : List τ) : (fail e : Reader ε τ α).run s = failed e := rfl

/-- A reader of a format. -/
structure ReadsAs (r : Reader ε τ α) (W : α → List τ → Prop) : Prop where
  /-- what is written is read, up to what stands behind it -/
  complete : ∀ {a raw}, W a raw → ∀ rest, r.run (raw ++ rest) = done (a, rest)
  /-- what is read was written -/
  sound : ∀ {s a rest}, r.run s = done (a, rest) → ∃ raw, s = raw ++ rest ∧ W a raw
  /-- it ends -/
  ends : ∀ s, (r.run s).Ended

namespace ReadsAs

variable {r r' : Reader ε τ α} {W W' : α → List τ → Prop}

theorem congr (h : ReadsAs r W) (hW : ∀ a raw, W a raw ↔ W' a raw) : ReadsAs r W' where
  complete hw := h.complete ((hW _ _).mpr hw)
  sound hrun := by
    obtain ⟨raw, heq, hw⟩ := h.sound hrun
    exact ⟨raw, heq, (hW _ _).mp hw⟩
  ends := h.ends

protected theorem pure (a : α) :
    ReadsAs (pure a : Reader ε τ α) fun b raw => b = a ∧ raw = [] where
  complete hw rest := by
    obtain ⟨rfl, rfl⟩ := hw
    rfl
  sound hrun := by
    cases hrun
    exact ⟨[], rfl, rfl, rfl⟩
  ends _ := trivial

protected theorem fail (e : ε) : ReadsAs (fail e : Reader ε τ α) fun _ _ => False where
  complete hw := hw.elim
  sound hrun := by cases hrun
  ends _ := trivial

/-- One format behind another, which may depend on the value. -/
protected theorem bind {f : α → Reader ε τ β} {V : α → β → List τ → Prop} (h : ReadsAs r W)
    (hf : ∀ a, ReadsAs (f a) (V a)) :
    ReadsAs (r >>= f) fun b raw => ∃ a x y, W a x ∧ V a b y ∧ raw = x ++ y where
  complete hw rest := by
    obtain ⟨a, x, y, hx, hy, rfl⟩ := hw
    rw [List.append_assoc, run_bind_done (h.complete hx _)]
    exact (hf a).complete hy rest
  sound {s b rest} hrun := by
    rw [StateT.run_bind] at hrun
    cases hfirst : r.run s with
    | running | panics | failed e =>
      rw [hfirst] at hrun
      cases hrun
    | done p =>
      rw [hfirst] at hrun
      obtain ⟨x, rfl, hx⟩ := h.sound hfirst
      obtain ⟨y, hrest, hy⟩ := (hf p.1).sound hrun
      exact ⟨x ++ y, by rw [hrest, List.append_assoc], p.1, x, y, hx, hy, rfl⟩
  ends s := by
    rw [StateT.run_bind, ended_bind]
    exact ⟨h.ends s, fun p _ => (hf p.1).ends p.2⟩

/-- What is made of a value. -/
protected theorem map (h : ReadsAs r W) (f : α → β) :
    ReadsAs (r >>= fun a => pure (f a)) fun b raw => ∃ a, W a raw ∧ b = f a := by
  refine (h.bind fun a => ReadsAs.pure (f a)).congr fun b raw => ?_
  constructor
  · rintro ⟨a, x, y, hx, ⟨rfl, rfl⟩, rfl⟩
    exact ⟨a, by rwa [List.append_nil], rfl⟩
  · rintro ⟨a, ha, rfl⟩
    exact ⟨a, raw, [], ha, ⟨rfl, rfl⟩, (List.append_nil raw).symm⟩

/-- A condition chooses the format. -/
protected theorem ite {p : Prop} [Decidable p] (h : p → ReadsAs r W) (h' : ¬p → ReadsAs r' W') :
    ReadsAs (if p then r else r') fun a raw => if p then W a raw else W' a raw := by
  by_cases hp : p
  · simp only [if_pos hp]
    exact h hp
  · simp only [if_neg hp]
    exact h' hp

/-- The first symbol tells two formats apart. -/
theorem choose {whole : Reader ε τ α} {p : τ → Prop} (h : ReadsAs r W) (h' : ReadsAs r' W')
    (hrun : ∀ t s, p t → whole.run (t :: s) = r.run (t :: s))
    (hrun' : ∀ s, (∀ t, s.head? = some t → ¬p t) → whole.run s = r'.run s)
    (hfirst : ∀ {a raw}, W a raw → ∃ t rest, raw = t :: rest ∧ p t)
    (hother : ∀ {a raw}, W' a raw → ∃ t rest, raw = t :: rest ∧ ¬p t) :
    ReadsAs whole fun a raw => W a raw ∨ W' a raw := by
  have hcases : ∀ s, (∃ t rest, s = t :: rest ∧ p t ∧ whole.run s = r.run s) ∨
      ((∀ t, s.head? = some t → ¬p t) ∧ whole.run s = r'.run s) := by
    intro s
    by_cases hp : ∃ t rest, s = t :: rest ∧ p t
    · obtain ⟨t, rest, rfl, ht⟩ := hp
      exact .inl ⟨t, rest, rfl, ht, hrun t rest ht⟩
    · have hnot : ∀ t, s.head? = some t → ¬p t := by
        intro t ht hpt
        obtain ⟨rest, rfl⟩ := List.head?_eq_some_iff.mp ht
        exact hp ⟨t, rest, rfl, hpt⟩
      exact .inr ⟨hnot, hrun' s hnot⟩
  constructor
  · rintro a raw (hw | hw) rest
    · obtain ⟨t, tail, rfl, ht⟩ := hfirst hw
      rw [List.cons_append, hrun t _ ht, ← List.cons_append]
      exact h.complete hw rest
    · obtain ⟨t, tail, rfl, ht⟩ := hother hw
      rw [hrun' _ fun t' heq => by cases heq; exact ht]
      exact h'.complete hw rest
  · intro s a rest heq
    obtain ⟨-, -, -, -, hsame⟩ | ⟨-, hsame⟩ := hcases s
    · obtain ⟨raw, hraw, hw⟩ := h.sound (hsame.symm.trans heq)
      exact ⟨raw, hraw, .inl hw⟩
    · obtain ⟨raw, hraw, hw⟩ := h'.sound (hsame.symm.trans heq)
      exact ⟨raw, hraw, .inr hw⟩
  · intro s
    obtain ⟨-, -, -, -, hsame⟩ | ⟨-, hsame⟩ := hcases s
    · exact hsame ▸ h.ends s
    · exact hsame ▸ h'.ends s

end ReadsAs

/-! ## Many -/

/-- Some values, one behind the other. -/
def many (r : Reader ε τ α) : ℕ → Reader ε τ (List α)
  | 0 => pure []
  | n + 1 => do
    let a ← r
    let rest ← many r n
    return a :: rest

/-- The symbols of some values. -/
inductive Each (W : α → List τ → Prop) : List α → List τ → Prop where
  | nil : Each W [] []
  | cons {a : α} {list : List α} {x y : List τ} : W a x → Each W list y →
    Each W (a :: list) (x ++ y)

variable {W : α → List τ → Prop}

/-- Values that are each written in a way are written in a way. -/
theorem Each.flatMap {f : α → List τ} {list : List α} (h : ∀ a ∈ list, W a (f a)) :
    Each W list (list.flatMap f) := by
  induction list with
  | nil => exact .nil
  | cons a list ih =>
    rw [List.flatMap_cons]
    exact .cons (h a List.mem_cons_self) (ih fun b hb => h b (List.mem_cons_of_mem _ hb))

/-- Values that are written in one way only. -/
theorem Each.eq_flatMap {f : α → List τ} {list : List α} {raw : List τ} (h : Each W list raw)
    (hW : ∀ a x, W a x → x = f a) : raw = list.flatMap f := by
  induction h with
  | nil => rfl
  | cons ha _ ih => rw [List.flatMap_cons, hW _ _ ha, ih]

theorem ReadsAs.many {r : Reader ε τ α} (h : ReadsAs r W) (n : ℕ) :
    ReadsAs (many r n) fun list raw => list.length = n ∧ Each W list raw := by
  induction n with
  | zero =>
    refine (ReadsAs.pure []).congr fun list raw => ?_
    constructor
    · rintro ⟨rfl, rfl⟩
      exact ⟨rfl, .nil⟩
    · rintro ⟨hlength, heach⟩
      cases heach with
      | nil => exact ⟨rfl, rfl⟩
      | cons ha hrest => cases hlength
  | succ n ih =>
    refine (h.bind fun a => ih.map (a :: ·)).congr fun list raw => ?_
    constructor
    · rintro ⟨a, x, y, ha, ⟨rest, ⟨hlength, hrest⟩, rfl⟩, rfl⟩
      exact ⟨congrArg (· + 1) hlength, .cons ha hrest⟩
    · rintro ⟨hlength, heach⟩
      cases heach with
      | nil => cases hlength
      | cons ha hrest =>
        exact ⟨_, _, _, ha, ⟨_, ⟨Nat.succ_injective hlength, hrest⟩, rfl⟩, rfl⟩

/-! ## All of it -/

namespace ReadsAs

variable {r : Reader ε τ α} {W : α → List τ → Prop}

/-- No value's symbols go on as another's. -/
theorem append_eq_nil (h : ReadsAs r W) {a b : α} {raw more : List τ} (ha : W a raw)
    (hb : W b (raw ++ more)) : more = [] := by
  have hshort := h.complete ha more
  have hlong := h.complete hb []
  rw [List.append_nil, hshort] at hlong
  cases hlong
  rfl

end ReadsAs

end Ran
