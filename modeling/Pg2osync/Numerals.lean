import Mathlib.Data.List.Shortlex
import Mathlib.Tactic.Ring

/-!
# Numerals

A number in some base is written as its digits, the most significant one first. Zeros in front
do not change the number. Without them a number is written in one way only, and of two numerals
the one that is shorter, or of the same length and first in lexicographic order, is the smaller
number.
-/

namespace Numerals

/-- The number that some digits are written for. -/
def value (b : ℕ) (digits : List ℕ) : ℕ :=
  digits.foldl (fun n d => n * b + d) 0

/-- The digits without the zeros in front. -/
def trimmed (digits : List ℕ) : List ℕ :=
  digits.dropWhile (· = 0)

variable {b : ℕ}

theorem foldl_eq (digits : List ℕ) (n : ℕ) :
    digits.foldl (fun n d => n * b + d) n = n * b ^ digits.length + value b digits := by
  induction digits generalizing n with
  | nil => simp [value]
  | cons d digits ih =>
    rw [value, List.foldl_cons, List.foldl_cons, ih (n * b + d), ih (0 * b + d),
      List.length_cons, pow_succ]
    ring

@[simp] theorem value_nil : value b [] = 0 := rfl

theorem value_cons (d : ℕ) (digits : List ℕ) :
    value b (d :: digits) = d * b ^ digits.length + value b digits := by
  have h := foldl_eq (b := b) digits (0 * b + d)
  rw [zero_mul, zero_add] at h
  rw [value, List.foldl_cons, zero_mul, zero_add]
  exact h

theorem value_concat (digits : List ℕ) (d : ℕ) :
    value b (digits ++ [d]) = value b digits * b + d := by
  rw [value, List.foldl_append]
  rfl

variable {digits : List ℕ}

theorem value_lt (h : ∀ d ∈ digits, d < b) : value b digits < b ^ digits.length := by
  induction digits with
  | nil => simp
  | cons d digits ih =>
    have hd : d + 1 ≤ b := h d List.mem_cons_self
    have hrest := ih fun e he => h e (List.mem_cons_of_mem d he)
    calc value b (d :: digits) = d * b ^ digits.length + value b digits := value_cons d digits
      _ < d * b ^ digits.length + b ^ digits.length := by omega
      _ = (d + 1) * b ^ digits.length := by ring
      _ ≤ b * b ^ digits.length := Nat.mul_le_mul_right _ hd
      _ = b ^ (d :: digits).length := by rw [List.length_cons, pow_succ]; ring

/-! ## Zeros in front -/

theorem value_trimmed (digits : List ℕ) : value b (trimmed digits) = value b digits := by
  induction digits with
  | nil => rfl
  | cons d digits ih =>
    by_cases hd : d = 0
    · subst hd
      rw [trimmed, List.dropWhile_cons_of_pos (by simp), value_cons, zero_mul, zero_add]
      exact ih
    · rw [trimmed, List.dropWhile_cons_of_neg (by simpa using hd)]

theorem mem_of_mem_trimmed {d : ℕ} (h : d ∈ trimmed digits) : d ∈ digits :=
  (List.dropWhile_sublist _).subset h

theorem head?_trimmed (digits : List ℕ) : (trimmed digits).head? ≠ some 0 := by
  intro h
  have := List.head?_dropWhile_not (· = 0) digits
  rw [trimmed] at h
  simp [h] at this

/-- A numeral that does not begin with a zero is as great as its length says. -/
theorem pow_le_value {d : ℕ} (h : d ≠ 0) : b ^ digits.length ≤ value b (d :: digits) := by
  rw [value_cons]
  exact Nat.le_add_right_of_le (Nat.le_mul_of_pos_left _ (Nat.pos_of_ne_zero h))

/-! ## The order of the numbers -/

theorem value_lt_of_lex {xs ys : List ℕ} (hxs : ∀ d ∈ xs, d < b) (hlen : xs.length = ys.length)
    (h : List.Lex (· < ·) xs ys) : value b xs < value b ys := by
  induction h with
  | nil => cases hlen
  | @cons d xs ys _ ih =>
    have hlen' : xs.length = ys.length := Nat.succ.inj hlen
    have := ih (fun e he => hxs e (List.mem_cons_of_mem d he)) hlen'
    rw [value_cons, value_cons, hlen']
    omega
  | @rel d xs e ys hde =>
    -- the digits behind the first one that differs make up less than one of it
    have hlen' : xs.length = ys.length := Nat.succ.inj hlen
    have hrest : value b xs < b ^ ys.length :=
      hlen' ▸ value_lt fun e he => hxs e (List.mem_cons_of_mem d he)
    have hstep : (d + 1) * b ^ ys.length ≤ e * b ^ ys.length := Nat.mul_le_mul_right _ hde
    rw [value_cons, value_cons, hlen']
    rw [Nat.succ_mul] at hstep
    omega

theorem value_lt_of_shortlex {xs ys : List ℕ} (hxs : ∀ d ∈ xs, d < b) (hb : 0 < b)
    (hlead : ys.head? ≠ some 0) (h : List.Shortlex (· < ·) xs ys) : value b xs < value b ys := by
  rcases List.shortlex_def.mp h with hlen | ⟨hlen, hlex⟩
  · cases ys with
    | nil => cases hlen
    | cons d ys =>
      have hd : d ≠ 0 := fun h => hlead (congrArg some h)
      calc value b xs < b ^ xs.length := value_lt hxs
        _ ≤ b ^ ys.length := Nat.pow_le_pow_right hb (Nat.le_of_lt_succ hlen)
        _ ≤ value b (d :: ys) := pow_le_value hd
  · exact value_lt_of_lex hxs hlen hlex

variable {xs ys : List ℕ}

/-- Numerals without zeros in front are in the order of their numbers, and no two of them are
written for one number. -/
theorem trichotomy (hb : 0 < b) (hxs : ∀ d ∈ xs, d < b) (hys : ∀ d ∈ ys, d < b) :
    (value b xs < value b ys ↔ List.Shortlex (· < ·) (trimmed xs) (trimmed ys)) ∧
      (value b xs = value b ys ↔ trimmed xs = trimmed ys) := by
  have hx : ∀ d ∈ trimmed xs, d < b := fun d hd => hxs d (mem_of_mem_trimmed hd)
  have hy : ∀ d ∈ trimmed ys, d < b := fun d hd => hys d (mem_of_mem_trimmed hd)
  have hlt : List.Shortlex (· < ·) (trimmed xs) (trimmed ys) → value b xs < value b ys := by
    intro h
    rw [← value_trimmed xs, ← value_trimmed ys]
    exact value_lt_of_shortlex hx hb (head?_trimmed ys) h
  have hgt : List.Shortlex (· < ·) (trimmed ys) (trimmed xs) → value b ys < value b xs := by
    intro h
    rw [← value_trimmed xs, ← value_trimmed ys]
    exact value_lt_of_shortlex hy hb (head?_trimmed xs) h
  have heq : trimmed xs = trimmed ys → value b xs = value b ys := by
    intro h
    rw [← value_trimmed xs, ← value_trimmed ys, h]
  have hcases : List.Shortlex (· < ·) (trimmed xs) (trimmed ys) ∨ trimmed xs = trimmed ys ∨
      List.Shortlex (· < ·) (trimmed ys) (trimmed xs) :=
    trichotomous_of (List.Shortlex (· < ·)) (trimmed xs) (trimmed ys)
  refine ⟨⟨fun h => ?_, hlt⟩, ⟨fun h => ?_, heq⟩⟩
  · rcases hcases with hless | hsame | hmore
    · exact hless
    · exact absurd (heq hsame) h.ne
    · exact absurd (hgt hmore) h.asymm
  · rcases hcases with hless | hsame | hmore
    · exact absurd h (hlt hless).ne
    · exact hsame
    · exact absurd h (hgt hmore).ne'

theorem value_lt_value_iff (hb : 0 < b) (hxs : ∀ d ∈ xs, d < b) (hys : ∀ d ∈ ys, d < b) :
    value b xs < value b ys ↔ List.Shortlex (· < ·) (trimmed xs) (trimmed ys) :=
  (trichotomy hb hxs hys).1

theorem value_eq_value_iff (hb : 0 < b) (hxs : ∀ d ∈ xs, d < b) (hys : ∀ d ∈ ys, d < b) :
    value b xs = value b ys ↔ trimmed xs = trimmed ys :=
  (trichotomy hb hxs hys).2

end Numerals
