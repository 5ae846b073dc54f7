import MyCpu.Words.Congruential
import Mathlib.Data.Fintype.Card

/-!
# `rand`

`rand` and `srand` of `klib/src/stdlib.c`. `next` is an `unsigned long`, which has 32 bits on the riscv32
targets (`ilp32`).

* `toNat_nextAt` : the states are a linear congruential sequence modulo `2 ^ 32`;
* `rand_period` : from any seed it goes through all states, returns every value equally often, and
  repeats the low bits of the values the sooner the fewer they are.
-/

namespace MyCpu.Klib

open Words

/-- The value returned, and `next` afterwards. -/
def rand (next : BitVec 32) : BitVec 32 × BitVec 32 :=
  let next := next * 1103515245#32 + 12345#32
  (next / 65536#32 % 32768#32, next)

def srand (seed : BitVec 32) : BitVec 32 := seed

/-- `next` after `k` calls behind `srand(seed)`. -/
def nextAt (seed : BitVec 32) (k : Nat) : BitVec 32 := (fun next => (rand next).2)^[k] (srand seed)

/-- The value the call after the first `k` returns. -/
def randAt (seed : BitVec 32) (k : Nat) : BitVec 32 := (rand (nextAt seed k)).1

section

variable (seed : BitVec 32)

theorem nextAt_succ (k : Nat) : nextAt seed (k + 1) = (rand (nextAt seed k)).2 :=
  Function.iterate_succ_apply' _ _ _

theorem toNat_nextAt (k : Nat) :
    (nextAt seed k).toNat = (affine 1103515245 12345)^[k] seed.toNat % 2 ^ 32 := by
  induction k with
  | zero => exact (Nat.mod_eq_of_lt seed.isLt).symm
  | succ k ih =>
      rw [nextAt_succ, rand, BitVec.toNat_add, BitVec.toNat_mul, ih, Function.iterate_succ_apply', affine,
        BitVec.toNat_ofNat, BitVec.toNat_ofNat]
      omega

/-- Two states agree in their low bits when as many low bits of their indices agree. -/
theorem nextAt_mod_eq_iff {w : Nat} (hw : w ≤ 32) (n k : Nat) :
    (nextAt seed n).toNat % 2 ^ w = (nextAt seed k).toNat % 2 ^ w ↔ n % 2 ^ w = k % 2 ^ w := by
  have hdvd : 2 ^ w ∣ 2 ^ 32 := Nat.pow_dvd_pow 2 hw
  rw [toNat_nextAt, toNat_nextAt, Nat.mod_mod_of_dvd _ hdvd, Nat.mod_mod_of_dvd _ hdvd]
  exact affine_modEq_iff (by decide) (by decide) w seed.toNat n k

theorem nextAt_eq_iff (n k : Nat) : nextAt seed n = nextAt seed k ↔ n % 2 ^ 32 = k % 2 ^ 32 := by
  rw [← nextAt_mod_eq_iff seed (Nat.le_refl 32), Nat.mod_eq_of_lt (nextAt seed n).isLt,
    Nat.mod_eq_of_lt (nextAt seed k).isLt, BitVec.toNat_inj]

/-- The value returned is bits 16 to 30 of the state it leaves. -/
theorem toNat_randAt (k : Nat) :
    (randAt seed k).toNat = (nextAt seed (k + 1)).toNat / 2 ^ 16 % 2 ^ 15 := by
  rw [nextAt_succ]
  exact (BitVec.toNat_umod).trans (congrArg (· % 2 ^ 15) BitVec.toNat_udiv)

/-! ## One period -/

/-- In `2 ^ 32` calls every state occurs. -/
theorem image_nextAt (n : Nat) :
    (Finset.range (2 ^ 32)).image (fun k => (nextAt seed (n + k)).toNat) = Finset.range (2 ^ 32) := by
  refine Finset.eq_of_subset_of_card_le ?_ ?_
  · intro x hx
    obtain ⟨k, -, rfl⟩ := Finset.mem_image.mp hx
    exact Finset.mem_range.mpr (nextAt seed (n + k)).isLt
  · rw [Finset.card_image_of_injOn]
    intro k hk k' hk' h
    have hmod := (nextAt_eq_iff seed _ _).mp (BitVec.eq_of_toNat_eq h)
    have hlt := Finset.mem_range.mp hk
    have hlt' := Finset.mem_range.mp hk'
    omega

theorem exists_nextAt (n : Nat) (s : BitVec 32) : ∃ k < 2 ^ 32, nextAt seed (n + k) = s := by
  have hs : s.toNat ∈ (Finset.range (2 ^ 32)).image fun k => (nextAt seed (n + k)).toNat := by
    rw [image_nextAt]
    exact Finset.mem_range.mpr s.isLt
  obtain ⟨k, hk, h⟩ := Finset.mem_image.mp hs
  exact ⟨k, Finset.mem_range.mp hk, BitVec.eq_of_toNat_eq h⟩

/-- The states that leave a value, by the bit above it and the bits below it. -/
theorem card_states {v : Nat} (hv : v < 2 ^ 15) :
    ((Finset.range (2 ^ 32)).filter fun x => x / 2 ^ 16 % 2 ^ 15 = v).card = 2 ^ 17 := by
  have hcard : (Finset.range 2 ×ˢ Finset.range (2 ^ 16)).card = 2 ^ 17 := by
    rw [Finset.card_product, Finset.card_range, Finset.card_range]
    rfl
  rw [← hcard]
  refine Finset.card_nbij' (fun x => (x / 2 ^ 31, x % 2 ^ 16))
    (fun p => p.1 * 2 ^ 31 + v * 2 ^ 16 + p.2) ?_ ?_ ?_ ?_
  · intro x hx
    obtain ⟨hlt, -⟩ := Finset.mem_filter.mp hx
    have hlt := Finset.mem_range.mp hlt
    exact Finset.mem_product.mpr ⟨Finset.mem_range.mpr (by dsimp only; omega),
      Finset.mem_range.mpr (by dsimp only; omega)⟩
  · rintro ⟨b, l⟩ hp
    obtain ⟨hb, hl⟩ := Finset.mem_product.mp hp
    have hb := Finset.mem_range.mp hb
    have hl := Finset.mem_range.mp hl
    dsimp only at hb hl
    exact Finset.mem_filter.mpr ⟨Finset.mem_range.mpr (by dsimp only; omega), by dsimp only; omega⟩
  · intro x hx
    obtain ⟨hlt, heq⟩ := Finset.mem_filter.mp hx
    dsimp only
    omega
  · rintro ⟨b, l⟩ hp
    obtain ⟨hb, hl⟩ := Finset.mem_product.mp hp
    have hb := Finset.mem_range.mp hb
    have hl := Finset.mem_range.mp hl
    dsimp only at hb hl
    exact Prod.ext (by dsimp only; omega) (by dsimp only; omega)

theorem card_randAt (n : Nat) {v : BitVec 32} (hv : v.toNat < 32768) :
    ((Finset.range (2 ^ 32)).filter fun k => randAt seed (n + k) = v).card = 2 ^ 17 := by
  rw [← card_states hv]
  refine Finset.card_bij (fun k _ => (nextAt seed (n + 1 + k)).toNat) ?_ ?_ ?_
  · intro k hk
    obtain ⟨-, rfl⟩ := Finset.mem_filter.mp hk
    refine Finset.mem_filter.mpr ⟨Finset.mem_range.mpr (nextAt seed (n + 1 + k)).isLt, ?_⟩
    rw [toNat_randAt, Nat.add_right_comm]
  · intro k hk k' hk' h
    have hmod := (nextAt_eq_iff seed _ _).mp (BitVec.eq_of_toNat_eq h)
    have hlt := Finset.mem_range.mp (Finset.mem_filter.mp hk).1
    have hlt' := Finset.mem_range.mp (Finset.mem_filter.mp hk').1
    omega
  · intro x hx
    obtain ⟨hlt, hv'⟩ := Finset.mem_filter.mp hx
    obtain ⟨k, hk, hs⟩ := exists_nextAt seed (n + 1) (BitVec.ofNat 32 x)
    have hstate : (nextAt seed (n + 1 + k)).toNat = x := by
      rw [hs, BitVec.toNat_ofNat, Nat.mod_eq_of_lt (Finset.mem_range.mp hlt)]
    refine ⟨k, Finset.mem_filter.mpr ⟨Finset.mem_range.mpr hk, BitVec.eq_of_toNat_eq ?_⟩, hstate⟩
    rw [toNat_randAt, Nat.add_right_comm, hstate, hv']

/-- From any seed, `next` goes through all words before one comes back; in any `2 ^ 32` calls each value
up to 32767 is returned equally often; and the low `j` bits of the values repeat after `2 ^ (16 + j)`
calls already. -/
theorem rand_period :
    (∀ n k, nextAt seed n = nextAt seed k ↔ n % 2 ^ 32 = k % 2 ^ 32) ∧
      (∀ n s, ∃ k < 2 ^ 32, nextAt seed (n + k) = s) ∧
      (∀ n, ∀ v : BitVec 32, v.toNat < 32768 →
        ((Finset.range (2 ^ 32)).filter fun k => randAt seed (n + k) = v).card = 2 ^ 17) ∧
      ∀ j ≤ 15, ∀ n, (randAt seed (n + 2 ^ (16 + j))).toNat % 2 ^ j = (randAt seed n).toNat % 2 ^ j := by
  refine ⟨nextAt_eq_iff seed, exists_nextAt seed, fun n v hv => card_randAt seed n hv, ?_⟩
  intro j hj n
  have hdvd : 2 ^ j ∣ 2 ^ 15 := Nat.pow_dvd_pow 2 hj
  have hlow := (nextAt_mod_eq_iff seed (w := 16 + j) (by omega) (n + 2 ^ (16 + j) + 1) (n + 1)).mpr
    (by rw [Nat.add_right_comm, Nat.add_mod_right])
  rw [toNat_randAt, toNat_randAt, Nat.mod_mod_of_dvd _ hdvd, Nat.mod_mod_of_dvd _ hdvd,
    ← Nat.mod_mul_right_div_self, ← Nat.mod_mul_right_div_self, ← Nat.pow_add, hlow]

end

end MyCpu.Klib
