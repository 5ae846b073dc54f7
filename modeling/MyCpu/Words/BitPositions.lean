import Mathlib.Algebra.Group.Nat.Defs
import Mathlib.Data.Nat.Init

/-!
# The highest and the lowest 1

The positions of the highest and the lowest 1 of a natural, and what they say about halves of a word.

* `IsTop`, `IsLow` : the positions; each is unique, and there is one unless the number is 0;
* `IsTop.lt_iff`, `IsTop.shift` : whether the upper half is 0, and the position in it;
* `IsLow.mod_eq_zero_iff`, `IsLow.shift`, `IsLow.mod` : the same from below;
* `clz_eq`, `ctz_eq` : the counts of zeros by the positions.
-/

namespace MyCpu.Words

/-- The highest 1 of `x` is at `k`. -/
def IsTop (x k : Nat) : Prop := 2 ^ k ≤ x ∧ x < 2 ^ (k + 1)

/-- The lowest 1 of `x` is at `k`. -/
def IsLow (x k : Nat) : Prop := ∃ c, x = 2 ^ k * (2 * c + 1)

theorem exists_isTop {x : Nat} (h : x ≠ 0) : ∃ k, IsTop x k :=
  ⟨x.log2, Nat.log2_self_le h, Nat.lt_log2_self⟩

theorem IsTop.lt_iff {x k : Nat} (h : IsTop x k) (n : Nat) : x < 2 ^ n ↔ k < n := by
  constructor
  · intro hn
    exact (Nat.pow_lt_pow_iff_right (by decide)).mp (Nat.lt_of_le_of_lt h.1 hn)
  · intro hn
    exact Nat.lt_of_lt_of_le h.2 (Nat.pow_le_pow_right (by decide) hn)

theorem IsTop.unique {x k k' : Nat} (h : IsTop x k) (h' : IsTop x k') : k = k' := by
  have hk := (h.lt_iff (k' + 1)).mp h'.2
  have hk' := (h'.lt_iff (k + 1)).mp h.2
  omega

theorem IsTop.shift {x k n : Nat} (h : IsTop x k) (hn : n ≤ k) : IsTop (x / 2 ^ n) (k - n) := by
  have hpos := Nat.two_pow_pos n
  constructor
  · rw [Nat.le_div_iff_mul_le hpos, ← Nat.pow_add, Nat.sub_add_cancel hn]
    exact h.1
  · rw [Nat.div_lt_iff_lt_mul hpos, ← Nat.pow_add, show k - n + 1 + n = k + 1 by omega]
    exact h.2

theorem exists_isLow {x : Nat} (h : x ≠ 0) : ∃ k, IsLow x k := by
  induction x using Nat.strongRecOn with
  | ind x ih =>
      by_cases hodd : x % 2 = 1
      · refine ⟨0, x / 2, ?_⟩
        rw [Nat.pow_zero, Nat.one_mul]
        omega
      · obtain ⟨k, c, hc⟩ := ih (x / 2) (by omega) (by omega)
        refine ⟨k + 1, c, ?_⟩
        rw [Nat.pow_succ, Nat.mul_right_comm, ← hc]
        omega

theorem IsLow.mod_eq_zero_iff {x k : Nat} (h : IsLow x k) (n : Nat) : x % 2 ^ n = 0 ↔ n ≤ k := by
  obtain ⟨c, rfl⟩ := h
  rw [← Nat.dvd_iff_mod_eq_zero]
  constructor
  · intro hd
    refine Nat.le_of_not_lt fun hk => ?_
    have hd' : 2 ^ (k + 1) ∣ 2 ^ k * (2 * c + 1) :=
      Nat.dvd_trans (Nat.pow_dvd_pow 2 hk) hd
    rw [Nat.pow_succ, Nat.mul_dvd_mul_iff_left (Nat.two_pow_pos k)] at hd'
    omega
  · intro hk
    exact Nat.dvd_trans (Nat.pow_dvd_pow 2 hk) (Nat.dvd_mul_right _ _)

theorem IsLow.shift {x k n : Nat} (h : IsLow x k) (hn : n ≤ k) : IsLow (x / 2 ^ n) (k - n) := by
  obtain ⟨c, rfl⟩ := h
  refine ⟨c, ?_⟩
  obtain ⟨d, rfl⟩ := Nat.exists_eq_add_of_le hn
  rw [Nat.pow_add, Nat.mul_assoc, Nat.mul_div_cancel_left _ (Nat.two_pow_pos n),
    Nat.add_sub_cancel_left]

theorem IsLow.ne_zero {x k : Nat} (h : IsLow x k) : x ≠ 0 := by
  obtain ⟨c, rfl⟩ := h
  exact Nat.mul_ne_zero (Nat.ne_of_gt (Nat.two_pow_pos k)) (by omega)

theorem IsLow.lt {x k n : Nat} (h : IsLow x k) (hx : x < 2 ^ n) : k < n := by
  refine Nat.lt_of_not_le fun hle => h.ne_zero ?_
  rw [← Nat.mod_eq_of_lt hx, h.mod_eq_zero_iff]
  exact hle

/-- Dropping bits above the lowest 1. -/
theorem IsLow.mod {x k n : Nat} (h : IsLow x k) (hn : k < n) : IsLow (x % 2 ^ n) k := by
  obtain ⟨c, rfl⟩ := h
  obtain ⟨d, rfl⟩ := Nat.exists_eq_add_of_lt hn
  have hone : (2 * c + 1) % 2 = 1 := by omega
  have hrest : (2 * c + 1) / 2 = c := by omega
  refine ⟨c % 2 ^ d, ?_⟩
  rw [Nat.add_assoc, Nat.pow_add, Nat.mul_mod_mul_left, Nat.pow_succ', Nat.mod_mul, hone, hrest,
    Nat.add_comm]

/-! ## Words -/

theorem clz_eq {w k : Nat} {x : BitVec w} (h : IsTop x.toNat k) : x.clz.toNat = w - 1 - k := by
  have hx : x ≠ 0#w := by
    rintro rfl
    have := h.1
    rw [BitVec.toNat_zero] at this
    exact absurd this (Nat.not_le.mpr (Nat.two_pow_pos k))
  have hw : 0 < w := Nat.pos_of_ne_zero fun h0 => hx (by subst h0; exact BitVec.of_length_zero)
  have hlt : x.clz.toNat < w := by
    have := BitVec.clz_lt_iff_ne_zero.mpr hx
    rwa [BitVec.lt_def, BitVec.natCast_eq_ofNat, BitVec.toNat_ofNat, Nat.mod_eq_of_lt Nat.lt_two_pow_self]
      at this
  have htop : IsTop x.toNat (w - 1 - x.clz.toNat) := by
    refine ⟨BitVec.two_pow_sub_clz_le_toNat_of_ne_zero hw hx, ?_⟩
    rw [show w - 1 - x.clz.toNat + 1 = w - x.clz.toNat by omega]
    exact BitVec.toNat_lt_two_pow_sub_clz
  have := htop.unique h
  omega

theorem ctz_eq {w k : Nat} {x : BitVec w} (h : IsLow x.toNat k) : x.ctz.toNat = k := by
  have hx : x ≠ 0#w := by
    rintro rfl
    exact h.ne_zero BitVec.toNat_zero
  refine Nat.le_antisymm ((h.mod_eq_zero_iff _).mp ?_) (Nat.le_of_not_lt fun hlt => ?_)
  · refine Nat.eq_of_testBit_eq fun i => ?_
    rw [Nat.testBit_mod_two_pow, Nat.zero_testBit, Bool.and_eq_false_iff]
    by_cases hi : i < x.ctz.toNat
    · exact .inr (BitVec.getLsbD_false_of_lt_ctz hi)
    · exact .inl (decide_eq_false hi)
  · -- the bit at the count is 1, but all bits below `k` are 0
    have hbit : x.toNat.testBit x.ctz.toNat = true := BitVec.getLsbD_true_ctz_of_ne_zero hx
    have hzero : x.toNat % 2 ^ (x.ctz.toNat + 1) = 0 := (h.mod_eq_zero_iff _).mpr hlt
    have hmod := Nat.testBit_mod_two_pow x.toNat (x.ctz.toNat + 1) x.ctz.toNat
    rw [hzero, Nat.zero_testBit, hbit, decide_eq_true (Nat.lt_succ_self _)] at hmod
    exact absurd hmod (by decide)

end MyCpu.Words
