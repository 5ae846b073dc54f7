import Mathlib.Algebra.Group.Nat.Defs
import Mathlib.Tactic.Ring

/-!
# Binary long division

Division of naturals that decides the digits of the quotient one by one, from the highest to the
lowest. With `j` digits to go the quotient so far is a multiple of `2 ^ j` and what is left of the
dividend is less than `d * 2 ^ j`; how a program lays the two out is its own business.

* `Dividing n d j q r` : the invariant;
* `Dividing.start`, `Dividing.subtract`, `Dividing.skip`, `Dividing.done` : a division with it;
* `or_two_pow` : the new digit may be set by an `or`.
-/

namespace MyCpu.Words

/-- In the division of `n` by `d` with `j` digits to go, `q` is the quotient so far and `r` is what
is left of `n`. -/
structure Dividing (n d j q r : Nat) : Prop where
  sum : n = q * d + r
  rest : r < d * 2 ^ j
  digits : 2 ^ j ∣ q

namespace Dividing

variable {n d j q r : Nat}

theorem start (h : n < d * 2 ^ j) : Dividing n d j 0 n where
  sum := by rw [Nat.zero_mul, Nat.zero_add]
  rest := h
  digits := Nat.dvd_zero _

/-- The next digit is 1. -/
theorem subtract (h : Dividing n d (j + 1) q r) (hr : d * 2 ^ j ≤ r) :
    Dividing n d j (q + 2 ^ j) (r - d * 2 ^ j) where
  sum := by
    obtain ⟨s, rfl⟩ := Nat.exists_eq_add_of_le hr
    rw [h.sum, Nat.add_sub_cancel_left]
    ring
  rest := by
    have hlt : r < d * 2 ^ j * 2 := by
      have := h.rest
      rwa [Nat.pow_succ, ← Nat.mul_assoc] at this
    omega
  digits := Nat.dvd_add ((Nat.pow_dvd_pow 2 (Nat.le_succ j)).trans h.digits) (Nat.dvd_refl _)

/-- The next digit is 0. -/
theorem skip (h : Dividing n d (j + 1) q r) (hr : r < d * 2 ^ j) : Dividing n d j q r where
  sum := h.sum
  rest := hr
  digits := (Nat.pow_dvd_pow 2 (Nat.le_succ j)).trans h.digits

theorem done (h : Dividing n d 0 q r) : q = n / d ∧ r = n % d := by
  have hr : r < d := by
    have := h.rest
    rwa [Nat.pow_zero, Nat.mul_one] at this
  have hd : 0 < d := Nat.zero_lt_of_lt hr
  rw [h.sum, Nat.add_comm, Nat.add_mul_div_right _ _ hd, Nat.add_mul_mod_self_right,
    Nat.div_eq_of_lt hr, Nat.mod_eq_of_lt hr, Nat.zero_add]
  exact ⟨rfl, rfl⟩

/-- The quotient so far is no larger than the dividend. -/
theorem le (h : Dividing n d j q r) (hd : 0 < d) : q ≤ n :=
  calc q ≤ q * d := Nat.le_mul_of_pos_right q hd
    _ ≤ n := h.sum ▸ Nat.le_add_right _ _

end Dividing

/-- Setting a digit below the lowest one of `q`. -/
theorem or_two_pow {q j : Nat} (h : 2 ^ (j + 1) ∣ q) : q ||| 2 ^ j = q + 2 ^ j := by
  obtain ⟨c, rfl⟩ := h
  exact (Nat.two_pow_add_eq_or_of_lt (Nat.pow_lt_pow_right (by decide) (Nat.lt_succ_self j)) c).symm

end MyCpu.Words
