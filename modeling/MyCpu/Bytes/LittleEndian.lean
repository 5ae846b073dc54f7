import Mathlib.Data.List.Induction
import Mathlib.Logic.Function.Basic

/-!
# Little-endian accesses to a memory of bytes

Bytes at integer addresses, and words of any number of bytes at any address, least significant byte
first. Accesses may overlap and need not be aligned.

* `read`, `write` : one access;
* `getByte_read`, `read_eq_of_bytes` : a word that is read, and its bytes;
* `Write`, `applyAll` : a sequence of writes;
* `applyAll_apply` : what it leaves in a byte is what the last write to cover it put there.
-/

namespace MyCpu.Bytes

abbrev Byte := BitVec 8

abbrev Memory := Int → Byte

/-- Byte `k` of a word of `n` bytes. -/
def getByte {n : Nat} (v : BitVec (8 * n)) (k : Nat) : Byte := v.extractLsb' (8 * k) 8

/-- The `n` bytes from `a` on. -/
def read (m : Memory) (a : Int) : (n : Nat) → BitVec (8 * n)
  | 0 => 0#0
  | n + 1 => read m (a + 1) n ++ m a

/-- The bytes of `v` from `a` on. -/
def write {n : Nat} (m : Memory) (a : Int) (v : BitVec (8 * n)) : Memory := fun x =>
  if a ≤ x ∧ x < a + n then getByte v (x - a).toNat else m x

/-! ## One access -/

theorem write_of_covered {n : Nat} (m : Memory) {a x : Int} (v : BitVec (8 * n)) (h : a ≤ x ∧ x < a + n) :
    write m a v x = getByte v (x - a).toNat := if_pos h

theorem write_of_not_covered {n : Nat} (m : Memory) {a x : Int} (v : BitVec (8 * n))
    (h : ¬(a ≤ x ∧ x < a + n)) : write m a v x = m x := if_neg h

theorem getByte_append_zero {n : Nat} (hi : BitVec (8 * n)) (lo : Byte) :
    getByte (n := n + 1) (hi ++ lo) 0 = lo := by
  apply BitVec.eq_of_getLsbD_eq
  intro i hi'
  unfold getByte
  rw [BitVec.getLsbD_extractLsb']
  simp [BitVec.getLsbD_append, hi']

theorem getByte_append_succ {n : Nat} (hi : BitVec (8 * n)) (lo : Byte) (k : Nat) :
    getByte (n := n + 1) (hi ++ lo) (k + 1) = getByte hi k := by
  apply BitVec.eq_of_getLsbD_eq
  intro i hi'
  unfold getByte
  rw [BitVec.getLsbD_extractLsb', BitVec.getLsbD_extractLsb', BitVec.getLsbD_append]
  have hge : ¬8 * (k + 1) + i < 8 := by omega
  have hsub : 8 * (k + 1) + i - 8 = 8 * k + i := by omega
  simp [hge, hsub]

theorem getByte_read (m : Memory) (a : Int) {n k : Nat} (hk : k < n) :
    getByte (read m a n) k = m (a + k) := by
  induction n generalizing a k with
  | zero => exact absurd hk (Nat.not_lt_zero k)
  | succ n ih =>
      cases k with
      | zero => exact (getByte_append_zero _ _).trans (by rw [Int.natCast_zero, Int.add_zero])
      | succ k =>
          refine (getByte_append_succ _ _ k).trans ((ih (a + 1) (Nat.lt_of_succ_lt_succ hk)).trans ?_)
          rw [Int.add_assoc, Int.add_comm 1, Int.natCast_succ]

/-- A word is given by its bytes. -/
theorem eq_of_getByte {n : Nat} {v v' : BitVec (8 * n)} (h : ∀ k < n, getByte v k = getByte v' k) :
    v = v' := by
  apply BitVec.eq_of_getLsbD_eq
  intro i hi
  have hbyte := congrArg (fun b => b.getLsbD (i % 8)) (h (i / 8) (by omega))
  unfold getByte at hbyte
  have hlt : i % 8 < 8 := Nat.mod_lt i (by decide)
  have hidx : 8 * (i / 8) + i % 8 = i := Nat.div_add_mod i 8
  simpa only [BitVec.getLsbD_extractLsb', hlt, decide_true, Bool.true_and, hidx] using hbyte

theorem read_eq_of_bytes {m : Memory} {a : Int} {n : Nat} {v : BitVec (8 * n)}
    (h : ∀ k < n, m (a + k) = getByte v k) : read m a n = v :=
  eq_of_getByte fun k hk => (getByte_read m a hk).trans (h k hk)

theorem read_one (m : Memory) (a : Int) : read m a 1 = m a :=
  read_eq_of_bytes fun k hk => by
    obtain rfl : k = 0 := by omega
    exact (congrArg m (Int.add_zero a)).trans BitVec.extractLsb'_eq_self.symm

theorem read_two (m : Memory) (a : Int) : read m a 2 = m (a + 1) ++ m a :=
  congrArg (· ++ m a) (read_one m (a + 1))

theorem append_four (b0 b1 b2 b3 : Byte) :
    ((b3 ++ b2) ++ b1 : BitVec (16 + 8)) ++ b0 = b3 ++ (b2 ++ (b1 ++ b0)) := by
  rw [BitVec.append_assoc, BitVec.append_assoc, BitVec.cast_eq, BitVec.cast_eq]

theorem read_four (m : Memory) (a : Int) :
    read m a 4 = m (a + 3) ++ (m (a + 2) ++ (m (a + 1) ++ m a)) := by
  have h2 : read m (a + 1 + 1) 2 = m (a + 3) ++ m (a + 2) := by
    rw [read_two, Int.add_assoc, Int.add_assoc, Int.add_assoc]
    rfl
  rw [← append_four, ← h2]
  rfl

/-- One byte first, then the others: writing goes byte by byte. -/
theorem write_succ {n : Nat} (m : Memory) (a : Int) (v : BitVec (8 * (n + 1))) :
    write m a v =
      write (Function.update m a (getByte v 0)) (a + 1) (n := n) (v.extractLsb' 8 (8 * n)) := by
  funext x
  by_cases hx : x = a
  · rw [hx, write_of_covered m v ⟨Int.le_refl a, by omega⟩, write_of_not_covered _ _ (by omega),
      Function.update_self, Int.sub_self]
    rfl
  · by_cases hin : a + 1 ≤ x ∧ x < a + 1 + n
    · rw [write_of_covered m v (by omega), write_of_covered _ _ hin]
      obtain ⟨k, hk⟩ : ∃ k : Nat, x - (a + 1) = k := ⟨(x - (a + 1)).toNat, by omega⟩
      have hk' : x - a = (k + 1 : Nat) := by omega
      rw [hk, hk', Int.toNat_natCast, Int.toNat_natCast]
      unfold getByte
      apply BitVec.eq_of_getLsbD_eq
      intro i hi
      have hlt : 8 * k + i < 8 * n := by omega
      have hidx : 8 + (8 * k + i) = 8 * (k + 1) + i := by omega
      simp [hi, hlt, hidx]
    · rw [write_of_not_covered m v (by omega), write_of_not_covered _ _ hin, Function.update_of_ne hx]

/-! ## Sequences of writes -/

/-- The bytes of `data` at `addr`. -/
structure Write where
  addr : Int
  len : Nat
  data : BitVec (8 * len)

def Write.apply (w : Write) (m : Memory) : Memory := write m w.addr w.data

def Write.covers (w : Write) (x : Int) : Bool := decide (w.addr ≤ x ∧ x < w.addr + w.len)

/-- What the write puts at `x`. -/
def Write.byteAt (w : Write) (x : Int) : Byte := getByte w.data (x - w.addr).toNat

def applyAll (ws : List Write) (m : Memory) : Memory := ws.foldl (fun m w => w.apply m) m

/-- The last of the writes that covers `x`. -/
def lastTo (ws : List Write) (x : Int) : Option Write := ws.reverse.find? fun w => w.covers x

theorem applyAll_concat (ws : List Write) (w : Write) (m : Memory) :
    applyAll (ws ++ [w]) m = w.apply (applyAll ws m) := List.foldl_append

theorem lastTo_concat (ws : List Write) (w : Write) (x : Int) :
    lastTo (ws ++ [w]) x = if w.covers x = true then some w else lastTo ws x := by
  unfold lastTo
  rw [List.reverse_concat, List.find?_cons]
  cases w.covers x <;> rfl

/-- A byte holds what the last write to cover it put there, or what it held before. -/
theorem applyAll_apply (ws : List Write) (m : Memory) (x : Int) :
    applyAll ws m x = (lastTo ws x).elim (m x) fun w => w.byteAt x := by
  induction ws using List.reverseRecOn with
  | nil => rfl
  | append_singleton ws w ih =>
      rw [applyAll_concat, lastTo_concat]
      cases hc : w.covers x with
      | true => exact write_of_covered _ _ (of_decide_eq_true hc)
      | false =>
          rw [if_neg Bool.false_ne_true, ← ih]
          exact write_of_not_covered _ _ (of_decide_eq_false hc)

end MyCpu.Bytes
