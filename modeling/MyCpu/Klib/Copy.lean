import MyCpu.Klib.String

/-!
# Copies that may overlap

`memmove` goes upwards when the destination is below the source and downwards otherwise, so that a
byte is read before it is written over.

* `copy_up`, `copy_down` : one round, in either direction;
* `returns_memmove`, `returns_memcpy` : the destination holds what the source held at first;
* `memmove_memcpy_copy` : the same, byte by byte.
-/

namespace MyCpu.Klib

open Bytes Loop

/-- Upwards, the next byte of the source is still the old one. -/
theorem copy_up (m : Memory) {d s : Int} {n k : Nat} (h : d ≤ s ∨ s + n ≤ d) (hk : k < n) :
    Function.update (place m d (slice m s k)) (d + k) (place m d (slice m s k) (s + k)) =
      place m d (slice m s (k + 1)) := by
  have hold : place m d (slice m s k) (s + k) = m (s + k) :=
    place_of_outside (by rw [length_slice]; omega) m
  rw [hold, slice_succ, place_concat, length_slice]

/-- Downwards, the byte of the source before those that have been copied is still the old one. -/
theorem copy_down (m : Memory) {d s : Int} (h : s ≤ d) (k : Nat) :
    Function.update (place m (d + 1) (slice m (s + 1) k)) d (place m (d + 1) (slice m (s + 1) k) s) =
      place m d (slice m s (k + 1)) := by
  have hold : place m (d + 1) (slice m (s + 1) k) s = m s := place_of_outside (by omega) m
  rw [hold, slice_succ_eq_cons, place_cons]

theorem returns_memmove (m : Memory) (d s : Int) {n : Nat} (hn : n < 2 ^ 31) :
    Returns (memmove m (some d) (some s) n) (some d, place m d (slice m s n)) := by
  unfold memmove
  dsimp only
  split_ifs with h0 hds
  · subst h0
    exact returns_pure _
  · refine Returns.bind (a := place m d (slice m s n)) ?_ (returns_pure _)
    refine Returns.loop_states (n := n) (fun k => ((k : Int), place m d (slice m s k)))
      (fun k hk => ?_) ?_
    · dsimp only
      rw [if_pos (Int.ofNat_lt.mpr hk), copy_up m (Or.inl (Int.le_of_lt hds)) hk]
      exact (returns_int (by omega) (by omega)).bind (returns_pure _)
    · dsimp only
      rw [if_neg (Int.lt_irrefl _)]
      exact returns_pure _
  · refine Returns.bind (a := place m d (slice m s n)) ?_ (returns_pure _)
    have hstart : (toInt32 ((n : Int) - 1), m) =
        ((n : Int) - 1 - (0 : Nat), place m (d + (n - (0 : Nat))) (slice m (s + (n - (0 : Nat))) 0)) := by
      rw [toInt32_of_lt (by omega) (by omega), Int.natCast_zero, Int.sub_zero]
      rfl
    rw [hstart]
    refine Returns.loop_states (n := n) (fun k =>
      ((n : Int) - 1 - k, place m (d + (n - k)) (slice m (s + (n - k)) k))) (fun k hk => ?_) ?_
    · have hd : d + ((n : Int) - k) = d + (n - 1 - k) + 1 := by omega
      have hs : s + ((n : Int) - k) = s + (n - 1 - k) + 1 := by omega
      have hk' : (n : Int) - 1 - k - 1 = n - 1 - (k + 1 : Nat) := by omega
      have hd' : d + ((n : Int) - (k + 1 : Nat)) = d + (n - 1 - k) := by omega
      have hs' : s + ((n : Int) - (k + 1 : Nat)) = s + (n - 1 - k) := by omega
      dsimp only
      rw [if_pos (by omega), hd, hs, copy_down m (by omega), hd', hs', ← hk']
      exact (returns_int (by omega) (by omega)).bind (returns_pure _)
    · dsimp only
      rw [if_neg (by omega), Int.sub_self, Int.add_zero, Int.add_zero]
      exact returns_pure _

theorem returns_memcpy (m : Memory) {d s : Int} {n : Nat} (h : d ≤ s ∨ s + n ≤ d) :
    Returns (memcpy m (some d) (some s) n) (some d, place m d (slice m s n)) := by
  refine Returns.bind (a := place m d (slice m s n)) ?_ (returns_pure _)
  refine Returns.loop_states (n := n) (fun k => (k, place m d (slice m s k))) (fun k hk => ?_) ?_
  · dsimp only
    rw [if_pos hk, copy_up m h hk]
    exact returns_pure _
  · dsimp only
    rw [if_neg (Nat.lt_irrefl _)]
    exact returns_pure _

/-- `m'` has the `n` bytes that were at `src` in `m` at `dst`, and is `m` elsewhere. -/
structure Copied (m m' : Memory) (dst src : Int) (n : Nat) : Prop where
  copied : ∀ i : Nat, i < n → m' (dst + i) = m (src + i)
  kept : ∀ x, ¬(dst ≤ x ∧ x < dst + n) → m' x = m x

theorem copied_place (m : Memory) (d s : Int) (n : Nat) : Copied m (place m d (slice m s n)) d s n where
  copied i hi := by
    rw [at_place m d (slice m s n) i (by rwa [length_slice]), getElem_slice]
  kept x hx := place_of_outside (by rw [length_slice]; omega) m

/-- `memmove` copies whatever the overlap, `memcpy` when there is none. -/
theorem memmove_memcpy_copy (m : Memory) (dst src : Int) (n : Nat) (hn : n < 2 ^ 31) :
    (∃ m', Returns (memmove m (some dst) (some src) n) (some dst, m') ∧ Copied m m' dst src n) ∧
      (dst + n ≤ src ∨ src + n ≤ dst →
        ∃ m', Returns (memcpy m (some dst) (some src) n) (some dst, m') ∧ Copied m m' dst src n) :=
  ⟨⟨_, returns_memmove m dst src hn, copied_place m dst src n⟩, fun h =>
    ⟨_, returns_memcpy m (h.imp_left fun h => by omega), copied_place m dst src n⟩⟩

/-- Four bytes moved up by one, over themselves. -/
theorem memmove_memcpy_copy_four :
    4 < 2 ^ 31 ∧
      (∃ m', Returns (memmove (fun x => BitVec.ofInt 8 x) (some 101) (some 100) 4) (some 101, m') ∧
        Copied (fun x => BitVec.ofInt 8 x) m' 101 100 4) ∧
      (101 + 4 ≤ (100 : Int) ∨ 100 + 4 ≤ (101 : Int) →
        ∃ m', Returns (memcpy (fun x => BitVec.ofInt 8 x) (some 101) (some 100) 4) (some 101, m') ∧
          Copied (fun x => BitVec.ofInt 8 x) m' 101 100 4) :=
  ⟨by decide, memmove_memcpy_copy (fun x => BitVec.ofInt 8 x) 101 100 4 (by decide)⟩

end MyCpu.Klib
