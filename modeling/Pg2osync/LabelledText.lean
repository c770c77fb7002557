import Mathlib.Data.List.Sort
import Mathlib.Logic.Function.Basic
import Pg2osync.ByteOrder

/-!
# Labelled values in one text

Values are written behind their labels, a mark between the two, and the pieces are led by a
separator each. A text that may hold the mark and the separator can take part of what follows it
into itself: two such values are not told apart (`led_moved`). One is, where all others hold
neither (`led_inj`).
-/

namespace Labelled

variable {α ι : Type} (sep mark : α) (label : ι → List α) (value value' : ι → List α)

/-- A value behind its label. -/
def piece (i : ι) : List α :=
  label i ++ mark :: value i

/-- The pieces, each led by a separator. -/
def led (list : List ι) : List α :=
  list.flatMap fun i => sep :: piece mark label value i

@[simp] theorem led_nil : led sep mark label value [] = [] := rfl

@[simp] theorem led_cons (i : ι) (list : List ι) :
    led sep mark label value (i :: list) =
      sep :: (label i ++ mark :: value i) ++ led sep mark label value list := rfl

@[simp] theorem led_append (xs ys : List ι) :
    led sep mark label value (xs ++ ys) =
      led sep mark label value xs ++ led sep mark label value ys :=
  List.flatMap_append

variable {sep mark label value value'} {list : List ι}

/-- The joined pieces, led by one separator more. -/
theorem cons_intercalate (hne : list ≠ []) :
    sep :: [sep].intercalate (list.map (piece mark label value)) =
      led sep mark label value list := by
  induction list with
  | nil => exact absurd rfl hne
  | cons i list ih =>
    cases list with
    | nil => simp [piece]
    | cons j list =>
      rw [List.map_cons, List.map_cons, List.intercalate_cons_cons, led_cons,
        ← ih (List.cons_ne_nil _ _)]
      simp [piece]

theorem led_congr (h : ∀ i ∈ list, value i = value' i) :
    led sep mark label value list = led sep mark label value' list := by
  induction list with
  | nil => rfl
  | cons i list ih =>
    rw [led_cons, led_cons, h i List.mem_cons_self, ih fun j hj => h j (List.mem_cons_of_mem _ hj)]

/-- Values that do not hold the mark are read off the end. -/
theorem led_inj_last {front front' : List α} (hplain : ∀ i ∈ list, mark ∉ value i ∧ mark ∉ value' i)
    (h : front ++ led sep mark label value list = front' ++ led sep mark label value' list) :
    front = front' ∧ ∀ i ∈ list, value i = value' i := by
  induction list using List.reverseRecOn with
  | nil => simpa using h
  | append_singleton list i ih =>
    obtain ⟨hi, hi'⟩ := hplain i (by simp)
    have hsplit : ∀ (front : List α) (value : ι → List α),
        front ++ led sep mark label value (list ++ [i]) =
          (front ++ led sep mark label value list ++ sep :: label i) ++ mark :: value i := by
      intro front value
      simp
    rw [hsplit, hsplit] at h
    obtain ⟨hvalue, hfront⟩ := Encoding.append_sep_inj_last hi hi' h
    obtain ⟨rfl, hrest⟩ := ih (fun j hj => hplain j (by simp [hj]))
      (List.append_cancel_right hfront)
    refine ⟨rfl, fun j hj => ?_⟩
    rcases List.mem_append.mp hj with hj | hj
    · exact hrest j hj
    · rw [List.mem_singleton.mp hj]
      exact hvalue

/-- Where all values but one hold neither the separator nor the mark, the text has them all. -/
theorem led_inj {t : ι} (hnodup : list.Nodup) (hplain : ∀ i ∈ list, i ≠ t →
      (sep ∉ value i ∧ mark ∉ value i) ∧ sep ∉ value' i ∧ mark ∉ value' i)
    (h : led sep mark label value list = led sep mark label value' list) :
    ∀ i ∈ list, value i = value' i := by
  induction list with
  | nil =>
    intro i hi
    cases hi
  | cons i list ih =>
    obtain ⟨hi, hnodup⟩ := List.nodup_cons.mp hnodup
    rw [led_cons, led_cons, List.cons_append, List.cons_append, List.cons_inj_right,
      List.append_assoc, List.append_assoc, List.append_cancel_left_eq, List.cons_append,
      List.cons_append, List.cons_inj_right] at h
    have hboth : value i = value' i ∧ ∀ j ∈ list, value j = value' j := by
      by_cases ht : i = t
      · refine led_inj_last (fun j hj => ?_) h
        have hother := hplain j (List.mem_cons_of_mem _ hj) fun heq => hi (ht ▸ heq ▸ hj)
        exact ⟨hother.1.2, hother.2.2⟩
      · obtain ⟨⟨hsep, -⟩, hsep', -⟩ := hplain i List.mem_cons_self ht
        have hrest : value i = value' i ∧
            led sep mark label value list = led sep mark label value' list := by
          cases list with
          | nil => simpa using h
          | cons j list =>
            rw [led_cons, led_cons, List.cons_append, List.cons_append] at h ⊢
            obtain ⟨hvalue, hrest⟩ := Encoding.append_sep_inj hsep hsep' h
            exact ⟨hvalue, by rw [hrest]⟩
        exact ⟨hrest.1, ih hnodup (fun j hj => hplain j (List.mem_cons_of_mem _ hj)) hrest.2⟩
    intro j hj
    rcases List.mem_cons.mp hj with rfl | hj
    · exact hboth.1
    · exact hboth.2 j hj

variable [DecidableEq ι]

/-- What stands between two values may stand behind either of them. -/
theorem led_moved {front between back : List ι} {i j : ι}
    (hnodup : (front ++ i :: (between ++ j :: back)).Nodup) (begun : List α) :
    ∃ moved, moved ≠ [] ∧
      led sep mark label (Function.update (Function.update value i (begun ++ moved)) j begun)
          (front ++ i :: (between ++ j :: back)) =
        led sep mark label (Function.update (Function.update value i begun) j (begun ++ moved))
          (front ++ i :: (between ++ j :: back)) := by
  refine ⟨led sep mark label value between ++ sep :: (label j ++ mark :: begun), by simp, ?_⟩
  have hsame : ∀ {list : List ι} (x y : List α), i ∉ list → j ∉ list →
      led sep mark label (Function.update (Function.update value i x) j y) list =
        led sep mark label value list := by
    intro list x y hi hj
    refine led_congr fun k hk => ?_
    have hki : k ≠ i := fun heq => hi (heq ▸ hk)
    have hkj : k ≠ j := fun heq => hj (heq ▸ hk)
    rw [Function.update_of_ne hkj, Function.update_of_ne hki]
  rw [List.nodup_append, List.nodup_cons, List.nodup_append, List.nodup_cons] at hnodup
  obtain ⟨-, ⟨hi, -, ⟨hj, -⟩, hbetween⟩, hfront⟩ := hnodup
  rw [List.mem_append, List.mem_cons, not_or, not_or] at hi
  obtain ⟨hib, hij, hiback⟩ := hi
  have hfi : i ∉ front := fun h => hfront i h i List.mem_cons_self rfl
  have hfj : j ∉ front := fun h => hfront j h j (by simp) rfl
  have hbj : j ∉ between := fun h => hbetween j h j List.mem_cons_self rfl
  simp only [led_append, led_cons, hsame _ _ hfi hfj, hsame _ _ hib hbj, hsame _ _ hiback hj,
    Function.update_self, Function.update_of_ne hij]
  simp

end Labelled
