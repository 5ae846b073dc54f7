import Mathlib.Algebra.Field.GeomSum
import Mathlib.NumberTheory.Multiplicity
import Mathlib.Tactic.LinearCombination

/-!
# Linear congruences modulo powers of two

The sequence of `x ↦ a * x + c`, taken modulo a power of two. Where `a` is 1 modulo 4 and `c` is odd it
is as long as it can be, for every power at once: two members agree in their low `w` bits exactly when
their indices do.

* `iterate_affine` : the members in closed form;
* `geom_dvd_iff` : how often 2 divides the geometric sums of `a`;
* `affine_modEq_iff` : when two members agree.
-/

namespace MyCpu.Words

def affine (a c x : Nat) : Nat := a * x + c

section

variable {a c : Nat}

theorem iterate_affine (x k : Nat) :
    (((affine a c)^[k] x : Nat) : ℤ) = x + (∑ i ∈ Finset.range k, (a : ℤ) ^ i) * ((a - 1) * x + c) := by
  induction k with
  | zero => simp
  | succ k ih =>
      have hgeom : (∑ i ∈ Finset.range k, (a : ℤ) ^ i) * (a - 1) = (a : ℤ) ^ k - 1 := geom_sum_mul _ _
      rw [Function.iterate_succ_apply', affine, Nat.cast_add, Nat.cast_mul, ih, Finset.sum_range_succ]
      linear_combination ((a - 1) * (x : ℤ) + c) * hgeom

/-- A geometric sum is divisible by the powers of two that divide its number of summands. -/
theorem geom_dvd_iff (ha : a % 4 = 1) (w k : Nat) :
    (2 : ℤ) ^ w ∣ ∑ i ∈ Finset.range k, (a : ℤ) ^ i ↔ 2 ^ w ∣ k := by
  rw [← Int.natCast_dvd_natCast, Nat.cast_pow, Nat.cast_ofNat]
  rcases Nat.eq_or_lt_of_le (show 1 ≤ a by omega) with rfl | hlt
  · simp
  · have hne : (a : ℤ) - 1 ≠ 0 := by omega
    have hlte : emultiplicity 2 ((a : ℤ) ^ k - 1) =
        emultiplicity 2 ((a : ℤ) - 1) + emultiplicity 2 (k : ℤ) := by
      have h := Int.two_pow_sub_pow' (x := a) (y := 1) k (by omega) (by omega)
      rwa [one_pow] at h
    have hmul : emultiplicity 2 ((∑ i ∈ Finset.range k, (a : ℤ) ^ i) * (a - 1)) =
        emultiplicity 2 (∑ i ∈ Finset.range k, (a : ℤ) ^ i) + emultiplicity 2 ((a : ℤ) - 1) :=
      emultiplicity_mul Int.prime_two
    have hfin : emultiplicity 2 ((a : ℤ) - 1) ≠ ⊤ :=
      finiteMultiplicity_iff_emultiplicity_ne_top.mp (Int.finiteMultiplicity_iff.mpr ⟨by decide, hne⟩)
    have hsum : emultiplicity 2 (∑ i ∈ Finset.range k, (a : ℤ) ^ i) = emultiplicity 2 (k : ℤ) := by
      rw [geom_sum_mul, hlte, add_comm] at hmul
      exact (ENat.add_left_injective_of_ne_top hfin hmul).symm
    rw [pow_dvd_iff_le_emultiplicity, pow_dvd_iff_le_emultiplicity, hsum]

/-- Members agree modulo a power of two when their indices do. -/
theorem affine_modEq_iff (ha : a % 4 = 1) (hc : c % 2 = 1) (w x n k : Nat) :
    (affine a c)^[n] x ≡ (affine a c)^[k] x [MOD 2 ^ w] ↔ n ≡ k [MOD 2 ^ w] := by
  wlog hnk : n ≤ k generalizing n k
  · rw [Nat.ModEq.comm, this k n (Nat.le_of_not_le hnk), Nat.ModEq.comm]
  obtain ⟨d, rfl⟩ := Nat.exists_eq_add_of_le hnk
  have hindex : n ≡ n + d [MOD 2 ^ w] ↔ 2 ^ w ∣ d := by
    rw [Nat.modEq_iff_dvd' hnk, Nat.add_sub_cancel_left]
  rw [hindex, ← geom_dvd_iff ha w d, Nat.modEq_iff_dvd, Nat.add_comm n d, Function.iterate_add_apply,
    iterate_affine _ d, add_sub_cancel_left, Nat.cast_pow, Nat.cast_ofNat]
  -- what the sum is multiplied with is odd
  generalize (affine a c)^[n] x = y
  have hodd : ¬(2 : ℤ) ∣ ((a : ℤ) - 1) * y + c := by
    have heven : ((a : ℤ) - 1) * y % 2 = 0 := by
      rw [Int.mul_emod, show ((a : ℤ) - 1) % 2 = 0 by omega, zero_mul, Int.zero_emod]
    omega
  exact ⟨fun h => Int.prime_two.pow_dvd_of_dvd_mul_right _ hodd h, fun h => h.mul_right _⟩

end

end MyCpu.Words
