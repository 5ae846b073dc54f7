import Mathlib.Data.Nat.Count
import MyCpu.Clocked.Slots

/-!
# What stalls and flushes cost

A five-stage pipeline in which only an instruction in execute stalls or flushes, a stall holds decode
and sends a bubble on, and a flush empties decode and execute.

* `bubble_e_iff` : a bubble in execute comes from a stall or a flush one clock before or a flush two
  clocks before, and only one of these;
* `retired_length_add_count` : every clock retires an instruction, but for one clock for each stall and
  two for each flush.
-/

namespace MyCpu.Clocked

variable {α : Type*}

/-- How stalls and flushes come about. -/
structure Paced (ctl : Nat → Control) (fetched : Nat → α) : Prop where
  bubbleM : ∀ t, (ctl t).bubbleM = false
  bubbleE : ∀ t, (ctl t).bubbleE = ((ctl t).bubbleD || (ctl t).stallD)
  idle : ∀ t, (slots ctl fetched t).e = none → (ctl t).stallD = false ∧ (ctl t).bubbleD = false
  apart : ∀ t, (ctl t).bubbleD = true → (ctl t).stallD = false
  held : ∀ t, (ctl t).stallD = true → (slots ctl fetched t).d ≠ none

namespace Paced

variable {ctl : Nat → Control} {fetched : Nat → α} (h : Paced ctl fetched)

include h

theorem e_none_of_signal {t : Nat} (hs : (ctl t).stallD = true ∨ (ctl t).bubbleD = true) :
    (slots ctl fetched (t + 1)).e = none := by
  have hE : (ctl t).bubbleE = true := by
    rw [h.bubbleE]
    rcases hs with hs | hs <;> rw [hs]
    · exact Bool.or_true _
    · exact Bool.true_or _
  simp only [slots_succ, Slots.advance, hE]
  rfl

/-- Nothing is signalled in the clock after a stall or a flush. -/
theorem idle_succ {t : Nat} (hs : (ctl t).stallD = true ∨ (ctl t).bubbleD = true) :
    (ctl (t + 1)).stallD = false ∧ (ctl (t + 1)).bubbleD = false :=
  h.idle (t + 1) (h.e_none_of_signal hs)

theorem d_none_iff (t : Nat) : (slots ctl fetched (t + 1)).d = none ↔ (ctl t).bubbleD = true := by
  have hheld := h.held t
  rw [slots_succ, Slots.advance]
  cases (ctl t).bubbleD <;> cases hs : (ctl t).stallD
  · simp
  · simpa using hheld hs
  · simp
  · simp

theorem e_none_iff (t : Nat) : (slots ctl fetched (t + 2)).e = none ↔
    (ctl (t + 1)).stallD = true ∨ (ctl (t + 1)).bubbleD = true ∨ (ctl t).bubbleD = true := by
  have hE := h.bubbleE (t + 1)
  rw [← h.d_none_iff t, slots_succ ctl fetched (t + 1), Slots.advance, hE]
  cases (ctl (t + 1)).bubbleD <;> cases (ctl (t + 1)).stallD <;> simp

theorem w_eq (t : Nat) : (slots ctl fetched (t + 2)).w = (slots ctl fetched t).e := by
  have hM := h.bubbleM t
  show (if (ctl t).bubbleM = true then none else (slots ctl fetched t).e) = _
  rw [hM]
  rfl

/-- Each clock moves an instruction through execute or is the cost of one stall or flush. -/
theorem e_length_add (t : Nat) : (slots ctl fetched (t + 2)).e.toList.length +
    (if (ctl (t + 1)).stallD = true then 1 else 0) + (if (ctl (t + 1)).bubbleD = true then 1 else 0) +
      (if (ctl t).bubbleD = true then 1 else 0) = 1 := by
  have he := h.e_none_iff t
  by_cases hf : (ctl t).bubbleD = true
  · obtain ⟨hs', hf'⟩ := h.idle_succ (.inr hf)
    rw [he.mpr (.inr (.inr hf)), hs', hf', if_pos hf]
    rfl
  · by_cases hf' : (ctl (t + 1)).bubbleD = true
    · rw [he.mpr (.inr (.inl hf')), h.apart _ hf', if_pos hf', if_neg hf]
      rfl
    · by_cases hs' : (ctl (t + 1)).stallD = true
      · rw [he.mpr (.inl hs'), if_pos hs', if_neg hf', if_neg hf]
        rfl
      · obtain ⟨x, hx⟩ := Option.ne_none_iff_exists'.mp (mt he.mp (by simp [hs', hf', hf]))
        rw [hx, if_neg hs', if_neg hf', if_neg hf]
        rfl

theorem retired_length_add_count (t : Nat) : (retired ctl fetched (t + 4)).length +
    Nat.count (fun i => (ctl i).stallD = true) (t + 1) +
      Nat.count (fun i => (ctl i).bubbleD = true) (t + 1) +
        Nat.count (fun i => (ctl i).bubbleD = true) t = t := by
  induction t with
  | zero =>
      obtain ⟨hs, hf⟩ := h.idle 0 rfl
      have hr : retired ctl fetched 4 = [] :=
        List.filterMap_eq_nil_iff.mpr fun i hi => w_of_lt (List.mem_range.mp hi)
      rw [hr, Nat.count_one, Nat.count_one, Nat.count_zero, hs, hf]
      rfl
  | succ t ih =>
      have hstep := h.e_length_add t
      have hstall := Nat.count_succ (fun i => (ctl i).stallD = true) (t + 1)
      have hflush := Nat.count_succ (fun i => (ctl i).bubbleD = true) (t + 1)
      have hflush' := Nat.count_succ (fun i => (ctl i).bubbleD = true) t
      have hw : (slots ctl fetched (t + 4)).w = (slots ctl fetched (t + 2)).e := h.w_eq (t + 2)
      rw [retired_succ, List.length_append, hw, hstall, hflush]
      omega

end Paced

end MyCpu.Clocked
