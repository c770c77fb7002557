import Mathlib.Data.List.Infix

/-!
# Globs

A glob is a pattern whose stars stand for any run of letters. Cut at its stars it is
a list of pieces, and a word fits when the pieces occur in it in order, apart from
each other, the first at its beginning and the last at its end.
-/

namespace Glob

variable {α : Type*}

/-- A word fits the pieces of a glob. -/
def Fits : List (List α) → List α → Prop
  | [], word => word = []
  | [piece], word => word = piece
  | piece :: next :: more, word =>
    ∃ gap rest, word = piece ++ (gap ++ rest) ∧ Fits (next :: more) rest

variable {word : List α} {pieces : List (List α)}

theorem fits_cons {piece : List α} (hne : pieces ≠ []) :
    Fits (piece :: pieces) word ↔
      ∃ gap rest, word = piece ++ (gap ++ rest) ∧ Fits pieces rest := by
  cases pieces with
  | nil => exact absurd rfl hne
  | cons next more => rfl

/-- A word begins with the first piece. -/
theorem Fits.prefix {piece : List α} (h : Fits (piece :: pieces) word) : piece <+: word := by
  cases pieces with
  | nil =>
    rw [Fits] at h
    exact h ▸ List.prefix_rfl
  | cons next more =>
    obtain ⟨gap, rest, rfl, -⟩ := h
    exact List.prefix_append _ _

/-- A word ends with the last piece. -/
theorem Fits.suffix {last : List α} (h : Fits (pieces ++ [last]) word) : last <:+ word := by
  induction pieces generalizing word with
  | nil =>
    rw [List.nil_append, Fits] at h
    exact h ▸ List.suffix_rfl
  | cons piece pieces ih =>
    rw [List.cons_append, fits_cons (by simp)] at h
    obtain ⟨gap, rest, rfl, hrest⟩ := h
    rw [← List.append_assoc]
    exact (ih hrest).trans (List.suffix_append _ _)

/-- Letters in front of a word make its first piece longer. -/
theorem Fits.modifyHead (front : List α) (hne : pieces ≠ []) (h : Fits pieces word) :
    Fits (pieces.modifyHead (front ++ ·)) (front ++ word) := by
  match pieces, hne, h with
  | [piece], _, h =>
    rw [Fits] at h
    rw [h]
    rfl
  | piece :: next :: more, _, ⟨gap, rest, heq, hrest⟩ =>
    refine ⟨gap, rest, ?_, hrest⟩
    rw [heq, ← List.append_assoc]

/-- The inner pieces, one after the other, fit between any two gaps. -/
theorem fits_spread (piece last : List α) (inner : List (List α)) (gap gap' : List α) :
    Fits (piece :: (inner ++ [last]))
      (piece ++ (gap ++ (inner.flatten ++ (gap' ++ last)))) := by
  induction inner generalizing piece gap with
  | nil => exact ⟨gap ++ gap', last, by simp, rfl⟩
  | cons next inner ih =>
    refine ⟨gap, next ++ ([] ++ (inner.flatten ++ (gap' ++ last))), by simp, ?_⟩
    exact ih next []

/-! ## Words that fit -/

/-- Pieces with gaps between them. -/
def spread : List (List α) → List (List α) → List α
  | piece :: pieces, gap :: gaps => piece ++ (gap ++ spread pieces gaps)
  | pieces, _ => pieces.flatten

/-- A word fits if it is the pieces with one gap behind each but the last. -/
theorem fits_iff_spread (hne : pieces ≠ []) :
    Fits pieces word ↔ ∃ gaps, gaps.length + 1 = pieces.length ∧ word = spread pieces gaps := by
  induction pieces generalizing word with
  | nil => exact absurd rfl hne
  | cons piece pieces ih =>
    cases pieces with
    | nil =>
      constructor
      · rintro rfl
        exact ⟨[], rfl, (List.append_nil _).symm⟩
      · rintro ⟨gaps, hlength, rfl⟩
        cases gaps with
        | nil => exact List.append_nil _
        | cons gap gaps => simp at hlength
    | cons next more =>
      rw [fits_cons (List.cons_ne_nil _ _)]
      constructor
      · rintro ⟨gap, rest, rfl, hrest⟩
        obtain ⟨gaps, hlength, rfl⟩ := (ih (List.cons_ne_nil _ _)).mp hrest
        exact ⟨gap :: gaps, congrArg (· + 1) hlength, rfl⟩
      · rintro ⟨gaps, hlength, rfl⟩
        cases gaps with
        | nil => simp at hlength
        | cons gap gaps =>
          have hrest := (ih (List.cons_ne_nil _ _)).mpr ⟨gaps, Nat.succ.inj hlength, rfl⟩
          exact ⟨gap, _, rfl, hrest⟩

/-- Pieces with one and the same gap between them. -/
theorem fits_intercalate (gap : List α) (hne : pieces ≠ []) :
    Fits pieces (gap.intercalate pieces) := by
  induction pieces with
  | nil => exact absurd rfl hne
  | cons piece pieces ih =>
    cases pieces with
    | nil => simp [Fits]
    | cons next more =>
      refine ⟨gap, gap.intercalate (next :: more), ?_, ih (List.cons_ne_nil _ _)⟩
      simp

/-! ## Two globs -/

/-- Neither of two words differs from the other before it ends. -/
def HeadsMeet (a b : List α) : Prop := a <+: b ∨ b <+: a

/-- Neither of two words differs from the other, read from its end, before it begins. -/
def TailsMeet (a b : List α) : Prop := a <:+ b ∨ b <:+ a

instance [DecidableEq α] (a b : List α) : Decidable (HeadsMeet a b) :=
  inferInstanceAs (Decidable (_ ∨ _))

instance [DecidableEq α] (a b : List α) : Decidable (TailsMeet a b) :=
  inferInstanceAs (Decidable (_ ∨ _))

/-- Two globs that some word fits agree as far as their first pieces both reach. -/
theorem headsMeet_of_fits {p q : List α} {ps qs : List (List α)} (hp : Fits (p :: ps) word)
    (hq : Fits (q :: qs) word) : HeadsMeet p q :=
  List.prefix_or_prefix_of_prefix hp.prefix hq.prefix

/-- So they do at their ends. -/
theorem tailsMeet_of_fits {p q : List α} {ps qs : List (List α)} (hp : Fits (ps ++ [p]) word)
    (hq : Fits (qs ++ [q]) word) : TailsMeet p q :=
  List.suffix_or_suffix_of_suffix hp.suffix hq.suffix

/-- What the second of two words lacks of the first can be put behind it. -/
theorem HeadsMeet.complete {a b : List α} (h : HeadsMeet a b) :
    ∃ lacking rest, b ++ lacking = a ++ rest ∧ lacking <:+ a := by
  rcases h with ⟨rest, h⟩ | ⟨lacking, h⟩
  · exact ⟨[], rest, by rw [List.append_nil, h], List.nil_suffix⟩
  · exact ⟨lacking, [], by rw [List.append_nil, h], b, h⟩

/-- Or before it. -/
theorem TailsMeet.complete {a b : List α} (h : TailsMeet a b) :
    ∃ lacking rest, lacking ++ b = rest ++ a ∧ lacking <+: a := by
  rcases h with ⟨rest, h⟩ | ⟨lacking, h⟩
  · exact ⟨[], rest, by rw [List.nil_append, h], List.nil_prefix⟩
  · exact ⟨lacking, [], by rw [List.nil_append, h], b, h⟩

end Glob
