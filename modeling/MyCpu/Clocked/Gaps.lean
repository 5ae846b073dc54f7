import Mathlib.Algebra.BigOperators.Group.Finset.Basic
import MyCpu.Clocked.Run

/-!
# Items with gaps between them

Items go through a machine one place after another, the first one behind `first` empty places and item `k`
followed by `gap k` of them.

* `place` : the item a place belongs to, and the empty places up to that item;
* `place_total` : how many places there are up to an item;
* `emitted_place` : what the places deliver is what the items deliver.
-/

namespace MyCpu.Clocked

section

variable (first : Nat) (gap : Nat → Nat)

/-- The number of the next item at a place, and the empty places in front of it, this one included. -/
def place : Nat → Nat × Nat
  | 0 => (0, first)
  | j + 1 =>
      match place j with
      | (k, 0) => (k + 1, gap k)
      | (k, g + 1) => (k, g)

variable {first gap} {j : Nat}

theorem place_succ_of_item (h : (place first gap j).2 = 0) :
    place first gap (j + 1) = ((place first gap j).1 + 1, gap (place first gap j).1) := by
  rw [place]
  generalize place first gap j = x at h ⊢
  obtain ⟨k, g⟩ := x
  obtain rfl : g = 0 := h
  rfl

theorem place_succ_of_empty {g : Nat} (h : (place first gap j).2 = g + 1) :
    place first gap (j + 1) = ((place first gap j).1, g) := by
  rw [place]
  generalize place first gap j = x at h ⊢
  obtain ⟨k, g'⟩ := x
  obtain rfl : g' = g + 1 := h
  rfl

variable (first gap) in
theorem place_total (j : Nat) : j + (place first gap j).2 =
    first + (place first gap j).1 + ∑ k ∈ Finset.range (place first gap j).1, gap k := by
  induction j with
  | zero => exact Nat.zero_add first
  | succ j ih =>
      cases h : (place first gap j).2 with
      | zero =>
          rw [place_succ_of_item h, Finset.sum_range_succ]
          omega
      | succ g =>
          rw [place_succ_of_empty h]
          dsimp only
          omega

variable (first gap) in
theorem place_mono {i j : Nat} (h : i ≤ j) : (place first gap i).1 ≤ (place first gap j).1 := by
  induction j, h using Nat.le_induction with
  | base => exact Nat.le_refl _
  | succ j _ ih =>
      refine Nat.le_trans ih ?_
      cases h : (place first gap j).2 with
      | zero =>
          rw [place_succ_of_item h]
          exact Nat.le_succ _
      | succ g => rw [place_succ_of_empty h]

/-- What the items deliver, the empty places delivering nothing. -/
theorem emitted_place {α : Type*} {out item : Nat → Option α} {t : Nat}
    (hitem : ∀ j < t, (place first gap j).2 = 0 → out j = item (place first gap j).1)
    (hempty : ∀ j < t, (place first gap j).2 ≠ 0 → out j = none) :
    emitted out t = emitted item (place first gap t).1 := by
  induction t with
  | zero => rfl
  | succ t ih =>
      have hrest := ih (fun j hj => hitem j (Nat.lt_succ_of_lt hj)) fun j hj => hempty j (Nat.lt_succ_of_lt hj)
      rw [emitted_succ, hrest]
      cases h : (place first gap t).2 with
      | zero => rw [place_succ_of_item h, emitted_succ, hitem t (Nat.lt_succ_self t) h]
      | succ g =>
          have hne : (place first gap t).2 ≠ 0 := by rw [h]; exact Nat.succ_ne_zero g
          rw [place_succ_of_empty h, hempty t (Nat.lt_succ_self t) hne]
          exact List.append_nil _

end

end MyCpu.Clocked
