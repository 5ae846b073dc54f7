import Mathlib.Algebra.GroupWithZero.Nat
import Mathlib.Data.List.Basic
import Mathlib.Logic.Function.Basic

/-!
# Rings of slots

`N` slots written one after another and round again, with a flag that says whether every slot has
been written.

* `Holds` : what the slots, the next one to write and the flag say about the values written so far;
* `holds_nil`, `Holds.push` : an empty ring, and one more value;
* `Holds.latest_eq` : from the oldest slot on, the slots hold the last `N` values, oldest first.
-/

namespace MyCpu.Ring

variable {α : Type} {N : Nat} [NeZero N]

/-- The slots that are visited in `n` steps from `i`. -/
def slotsFrom (i : Fin N) : Nat → List (Fin N)
  | 0 => []
  | n + 1 => i :: slotsFrom (Fin.ofNat N (i + 1)) n

/-- The last `N` of the values. -/
def latest (N : Nat) (h : List α) : List α := h.drop (h.length - N)

theorem length_latest (N : Nat) (h : List α) : (latest N h).length = min h.length N := by
  unfold latest
  rw [List.length_drop]
  omega

theorem ofNat_succ (k : Nat) : Fin.ofNat N ((Fin.ofNat N k : Fin N) + 1) = Fin.ofNat N (k + 1) :=
  Fin.ext (Nat.mod_add_mod k N 1)

/-- Less than a round apart, two values are in one slot only if they are the same. -/
theorem ofNat_eq_iff {a b : Nat} (hab : a ≤ b) (hb : b < a + N) :
    (Fin.ofNat N a : Fin N) = Fin.ofNat N b ↔ a = b := by
  constructor
  · intro h
    have hmod : b % N = a % N := (congrArg Fin.val h).symm
    have hdvd : N ∣ b - a := Nat.dvd_of_mod_eq_zero (Nat.sub_mod_eq_zero_of_mod_eq hmod)
    have hzero : b - a = 0 := Nat.eq_zero_of_dvd_of_lt hdvd (by omega)
    omega
  · rintro rfl
    rfl

theorem slotsFrom_ofNat (k n : Nat) :
    slotsFrom (Fin.ofNat N k : Fin N) n = (List.range n).map fun j => Fin.ofNat N (k + j) := by
  induction n generalizing k with
  | zero => rfl
  | succ n ih =>
      rw [slotsFrom, ofNat_succ, ih, List.range_succ_eq_map, List.map_cons, List.map_map]
      refine congrArg _ (List.map_congr_left fun j _ => ?_)
      rw [Function.comp_apply, Nat.succ_eq_add_one, Nat.add_right_comm, Nat.add_assoc]

/-- The values `h` have been written: the `k`-th went to slot `k % N`, and the last `N` are still
there. -/
structure Holds (slots : Fin N → α) (next : Fin N) (full : Bool) (h : List α) : Prop where
  next_eq : next = Fin.ofNat N h.length
  full_eq : full = decide (N ≤ h.length)
  slot_eq : ∀ k (hk : k < h.length), h.length ≤ k + N → slots (Fin.ofNat N k) = h[k]

theorem holds_nil (slots : Fin N → α) : Holds slots (Fin.ofNat N 0) false [] where
  next_eq := rfl
  full_eq := (decide_eq_false fun h => NeZero.ne N (Nat.le_zero.mp h)).symm
  slot_eq _ hk := absurd hk (Nat.not_lt_zero _)

/-- The flag is set when the next slot is the first again. -/
theorem full_succ (n : Nat) :
    decide (N ≤ n + 1) = (decide ((Fin.ofNat N (n + 1) : Fin N) = Fin.ofNat N 0) || decide (N ≤ n)) := by
  rw [Bool.eq_iff_iff, Bool.or_eq_true, decide_eq_true_iff, decide_eq_true_iff, decide_eq_true_iff]
  constructor
  · intro h
    rcases Nat.lt_or_eq_of_le h with hlt | rfl
    · exact Or.inr (Nat.le_of_lt_succ hlt)
    · exact Or.inl (Fin.ext (by simp))
  · rintro (h | h)
    · have hmod : (n + 1) % N = 0 := (congrArg Fin.val h).trans (Nat.zero_mod N)
      exact Nat.le_of_dvd n.succ_pos (Nat.dvd_of_mod_eq_zero hmod)
    · exact Nat.le_succ_of_le h

/-- One more value. -/
theorem Holds.push {slots : Fin N → α} {next : Fin N} {full : Bool} {h : List α}
    (H : Holds slots next full h) (a : α) :
    Holds (Function.update slots next a) (Fin.ofNat N (next + 1))
      (decide ((Fin.ofNat N (next + 1) : Fin N) = Fin.ofNat N 0) || full) (h ++ [a]) := by
  obtain ⟨rfl, rfl, hslot⟩ := H
  have hlen : (h ++ [a]).length = h.length + 1 := List.length_append
  rw [ofNat_succ]
  refine ⟨by rw [hlen], by rw [hlen, full_succ], fun k hk hkN => ?_⟩
  rw [hlen] at hk hkN
  rcases Nat.lt_or_eq_of_le (Nat.le_of_lt_succ hk) with hlt | rfl
  · have hne : (Fin.ofNat N k : Fin N) ≠ Fin.ofNat N h.length := by
      rw [Ne, ofNat_eq_iff (Nat.le_of_lt hlt) (by omega)]
      exact Nat.ne_of_lt hlt
    rw [Function.update_of_ne hne, hslot k hlt (Nat.le_of_succ_le hkN), List.getElem_append_left hlt]
  · rw [Function.update_self, List.getElem_concat_length rfl]

/-- How many slots have been written. -/
theorem Holds.count_eq {slots : Fin N → α} {next : Fin N} {full : Bool} {h : List α}
    (H : Holds slots next full h) : (if full then N else (next : Nat)) = min h.length N := by
  obtain ⟨rfl, rfl, -⟩ := H
  rcases Nat.lt_or_ge h.length N with hlt | hge
  · rw [decide_eq_false (Nat.not_le.mpr hlt), if_neg Bool.false_ne_true, Nat.min_eq_left (Nat.le_of_lt hlt)]
    exact Nat.mod_eq_of_lt hlt
  · rw [decide_eq_true hge, if_pos rfl, Nat.min_eq_right hge]

/-- The slot of the oldest value that is still there. -/
theorem Holds.first_eq {slots : Fin N → α} {next : Fin N} {full : Bool} {h : List α}
    (H : Holds slots next full h) :
    (if full then next else Fin.ofNat N 0) = Fin.ofNat N (h.length - N) := by
  obtain ⟨rfl, rfl, -⟩ := H
  rcases Nat.lt_or_ge h.length N with hlt | hge
  · rw [decide_eq_false (Nat.not_le.mpr hlt), if_neg Bool.false_ne_true,
      Nat.sub_eq_zero_of_le (Nat.le_of_lt hlt)]
  · rw [decide_eq_true hge, if_pos rfl]
    exact Fin.ext (Nat.mod_eq_sub_mod hge)

/-- The slots from the oldest on hold the last `N` values. -/
theorem Holds.latest_eq {slots : Fin N → α} {next : Fin N} {full : Bool} {h : List α}
    (H : Holds slots next full h) {j : Nat} (hj : j < (latest N h).length) :
    slots (Fin.ofNat N (h.length - N + j)) = (latest N h)[j] := by
  have hlt : h.length - N + j < h.length := by
    rw [length_latest] at hj
    omega
  rw [H.slot_eq _ hlt (by omega)]
  exact List.getElem_drop.symm

/-- The slot before the next one holds the last value. -/
theorem Holds.last_slot_iff {slots : Fin N → α} {next : Fin N} {full : Bool} {h : List α}
    (H : Holds slots next full h) {j : Nat} (hj : j < (latest N h).length) :
    (Fin.ofNat N (h.length - N + j) : Fin N) = Fin.ofNat N (next + N - 1) ↔
      j + 1 = (latest N h).length := by
  obtain ⟨rfl, -, -⟩ := H
  have hN : 0 < N := Nat.pos_of_ne_zero (NeZero.ne N)
  rw [length_latest] at hj ⊢
  have hlast : (Fin.ofNat N ((Fin.ofNat N h.length : Fin N) + N - 1) : Fin N) =
      Fin.ofNat N (h.length - 1) := by
    apply Fin.ext
    change (h.length % N + N - 1) % N = (h.length - 1) % N
    rw [Nat.add_sub_assoc hN, Nat.mod_add_mod, show h.length + (N - 1) = h.length - 1 + N by omega,
      Nat.add_mod_right]
  rw [hlast, ofNat_eq_iff (by omega) (by omega)]
  omega

end MyCpu.Ring
