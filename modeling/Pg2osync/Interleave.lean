import Mathlib.Data.List.Dedup
import Mathlib.Data.List.Perm.Basic

/-!
# Interleaved operations

Operations arrive at an object in some order, possibly several times each. When
does the object end up as if each had arrived once, in an order of our own?

Two facts answer it. An operation that arrives again makes its earlier arrival
superfluous, provided it *covers* what came in between (`run_dedup`); and what
arrived in another order than ours only matters where the two operations do not
*commute* (`run_eq_of_perm`).
-/

namespace Interleave

universe u v

variable {ι : Type u} {σ : Type v} (act : ι → σ → σ) (good : σ → Prop)

/-- What a run of operations leaves. -/
def run (ops : List ι) (s : σ) : σ :=
  ops.foldl (fun s x => act x s) s

/-- Two operations whose order does not matter. -/
def Commutes (a b : ι) : Prop :=
  ∀ s, good s → act a (act b s) = act b (act a s)

/-- What `x` cannot tell apart it cannot tell apart after `m` either. -/
def Covers (x m : ι) : Prop :=
  ∀ s t, good s → good t → act x s = act x t → act x (act m s) = act x (act m t)

@[simp] theorem run_nil (s : σ) : run act [] s = s := rfl

@[simp] theorem run_cons (x : ι) (ops : List ι) (s : σ) :
    run act (x :: ops) s = run act ops (act x s) := rfl

@[simp] theorem run_append (ops ops' : List ι) (s : σ) :
    run act (ops ++ ops') s = run act ops' (run act ops s) :=
  List.foldl_append

variable {act good}

/-- An operation covers those it commutes with. -/
theorem covers_of_commutes {x m : ι} (h : Commutes act good x m) : Covers act good x m := by
  intro s t hs ht heq
  rw [h s hs, h t ht, heq]

variable (hgood : ∀ x s, good s → good (act x s))

include hgood

variable {s : σ}

theorem good_run (ops : List ι) (h : good s) : good (run act ops s) := by
  induction ops generalizing s with
  | nil => exact h
  | cons x ops ih => exact ih (hgood x s h)

variable {ops : List ι}

theorem run_covered {x : ι} (hcovers : ∀ m ∈ ops, Covers act good x m) {s t : σ} (hs : good s)
    (ht : good t) (heq : act x s = act x t) : act x (run act ops s) = act x (run act ops t) := by
  induction ops generalizing s t with
  | nil => exact heq
  | cons m ops ih =>
    exact ih (fun m' hm' => hcovers m' (List.mem_cons_of_mem m hm')) (hgood m s hs)
      (hgood m t ht) (hcovers m List.mem_cons_self s t hs ht heq)

/-- Operations that leave the object alone need not be run. -/
theorem run_filter {p : ι → Bool} (h : ∀ x ∈ ops, p x = false → ∀ s, good s → act x s = s)
    (hs : good s) : run act (ops.filter p) s = run act ops s := by
  induction ops generalizing s with
  | nil => rfl
  | cons x ops ih =>
    have hops : ∀ {s : σ}, good s → run act (ops.filter p) s = run act ops s :=
      ih fun y hy => h y (List.mem_cons_of_mem x hy)
    cases hx : p x with
    | true => rw [List.filter_cons_of_pos hx, run_cons, run_cons, hops (hgood x s hs)]
    | false =>
      rw [List.filter_cons_of_neg (by simp [hx]), run_cons, h x List.mem_cons_self hx s hs,
        hops hs]

/-- **An operation that arrives again need not have arrived before**, where it
covers everything in between. The last arrival of each is what remains. -/
theorem run_dedup [DecidableEq ι] (hself : ∀ x s, good s → act x (act x s) = act x s)
    (hcovers : ∀ pre x mid post, ops = pre ++ x :: (mid ++ x :: post) → ∀ m ∈ mid,
      Covers act good x m) (hs : good s) : run act ops.dedup s = run act ops s := by
  induction ops generalizing s with
  | nil => rfl
  | cons x ops ih =>
    have htail : ∀ s, good s → run act ops.dedup s = run act ops s := fun s hs =>
      ih (fun pre y mid post heq => hcovers (x :: pre) y mid post (by rw [heq]; rfl)) hs
    by_cases hx : x ∈ ops
    · rw [List.dedup_cons_of_mem hx, htail s hs]
      obtain ⟨mid, post, rfl⟩ := List.append_of_mem hx
      -- the arrival at the front is undone by the one after `mid`
      have hsame : act x (run act mid s) = act x (run act mid (act x s)) :=
        run_covered hgood (hcovers [] x mid post rfl) hs (hgood x s hs) (hself x s hs).symm
      rw [run_cons, run_append, run_append, run_cons, run_cons, hsame]
    · rw [List.dedup_cons_of_notMem hx, run_cons, run_cons, htail _ (hgood x s hs)]

omit hgood in
/-- Where one operation is kept before another, the other arrives once more
without it. -/
theorem last_of_dedup [DecidableEq ι] {x y : ι} (h : [x, y].Sublist ops.dedup) :
    ∃ pre post, ops = pre ++ y :: post ∧ x ∉ post := by
  induction ops with
  | nil => cases h
  | cons a ops ih =>
    by_cases ha : a ∈ ops
    · rw [List.dedup_cons_of_mem ha] at h
      obtain ⟨pre, post, rfl, hx⟩ := ih h
      exact ⟨a :: pre, post, rfl, hx⟩
    · rw [List.dedup_cons_of_notMem ha] at h
      cases h with
      | cons _ h =>
        obtain ⟨pre, post, rfl, hx⟩ := ih h
        exact ⟨a :: pre, post, rfl, hx⟩
      | cons_cons _ h =>
        have hy : y ∈ ops := List.mem_dedup.mp (List.singleton_sublist.mp h)
        obtain ⟨pre, post, rfl⟩ := List.append_of_mem hy
        exact ⟨x :: pre, post, rfl, fun hx =>
          ha (List.mem_append_right _ (List.mem_cons_of_mem y hx))⟩

/-- An operation moves to the front past those it commutes with. -/
theorem run_move_front {a : ι} {pre : List ι} (h : ∀ p ∈ pre, Commutes act good p a) (post : List ι)
    (hs : good s) : run act (pre ++ a :: post) s = run act (a :: (pre ++ post)) s := by
  induction pre generalizing s with
  | nil => rfl
  | cons p pre ih =>
    have hp : act p (act a s) = act a (act p s) := h p List.mem_cons_self s hs
    rw [List.cons_append, run_cons,
      ih (fun q hq => h q (List.mem_cons_of_mem p hq)) (hgood p s hs)]
    simp only [List.cons_append, run_cons, hp]

/-- **Two orders of the same operations leave the same** when every two they
disagree on commute. By induction on the order of our own, `r`: its first
operation moves to the front of the other. -/
theorem run_eq_of_perm {r : ι → ι → Prop} {ops sorted : List ι} (hperm : ops.Perm sorted)
    (hsorted : sorted.Pairwise r)
    (hcommutes : ∀ x y, [x, y].Sublist ops → r y x → Commutes act good x y) (hs : good s) :
    run act ops s = run act sorted s := by
  induction sorted generalizing ops s with
  | nil => rw [hperm.eq_nil]
  | cons a sorted ih =>
    obtain ⟨hfirst, hsorted⟩ := List.pairwise_cons.mp hsorted
    obtain ⟨pre, post, rfl⟩ := List.append_of_mem (hperm.mem_iff.mpr List.mem_cons_self)
    have hrest : (pre ++ post).Perm sorted :=
      (List.perm_middle.symm.trans hperm).cons_inv
    have hpre : ∀ p ∈ pre, Commutes act good p a := by
      intro p hp
      refine hcommutes p a ?_ (hfirst p (hrest.mem_iff.mp (List.mem_append_left _ hp)))
      have h₁ : [p].Sublist pre := List.singleton_sublist.mpr hp
      have h₂ : [a].Sublist (a :: post) := List.singleton_sublist.mpr List.mem_cons_self
      exact h₁.append h₂
    rw [run_move_front hgood hpre post hs, run_cons, run_cons]
    refine ih hrest hsorted (fun x y hxy hr => hcommutes x y (hxy.trans ?_) hr) (hgood a s hs)
    exact (List.sublist_cons_self a post).append_left pre

end Interleave
