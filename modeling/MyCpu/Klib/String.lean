import Mathlib.Algebra.Group.Nat.Defs
import Mathlib.Algebra.Group.Int.Defs
import MyCpu.Bytes.Blocks
import MyCpu.Loop.Fueled

/-!
# String and memory functions

`klib/src/string.c`: lengths, copies and comparisons, as loops over a memory of bytes. A `size_t` is a
natural number, an `int` an integer whose arithmetic has no meaning outside its range. `NULL` has no
place in memory: an assertion refuses it, or the access does.

* `strlen`, `strcpy` : lengths, and copies to an array;
* `strcmp`, `strncmp`, `memcmp` : comparisons, for either kind of `char`;
* `memmove`, `memcpy` : copies within a memory;
* `returns_strlen`, `ensures_strlen`, `returns_strcpy` : what the first two give.
-/

namespace MyCpu.Klib

open Bytes Loop

/-- A pointer; `none` is `NULL`. -/
abbrev Ptr := Option Int

/-- The value of an `int` expression. -/
def int (v : Int) : Fueled Int := if -2 ^ 31 ≤ v ∧ v < 2 ^ 31 then pure v else fail

/-- An `int` that has been converted from another integer type. -/
def toInt32 (v : Int) : Int := v.bmod (2 ^ 32)

/-- The value of a `char`, which is signed on some targets. -/
def charVal (signed : Bool) (c : Byte) : Int := if signed then c.toInt else c.toNat

/-- An array, with the indices that have been written, in order. -/
structure Buffer where
  bytes : Memory
  written : List Int

def Buffer.set (d : Buffer) (i : Int) (c : Byte) : Buffer :=
  ⟨Function.update d.bytes i c, d.written ++ [i]⟩

/-! ## Lengths and copies to an array -/

def strlen (m : Memory) (s : Ptr) : Fueled Nat :=
  match s with
  | none => fail
  | some s => loop (fun i : Nat =>
      if m (s + i) ≠ 0 then return .inl (i + 1) else return .inr i) 0

/-- `dst` is an index in the array `d`; `src` points to somewhere else. -/
def strcpy (d : Buffer) (dst : Int) (m : Memory) (src : Ptr) : Fueled Buffer :=
  match src with
  | none => fail
  | some s => do
      let len ← strlen m src
      let (i, d) ← loop (fun (i, d) =>
        if i < len then return .inl (i + 1, d.set (dst + i) (m (s + i)))
        else return .inr (i, d)) (0, d)
      return d.set (dst + i) 0

/-! ## Comparisons -/

section Comparisons

variable (signed : Bool)

/-- A round of the loop of `strcmp`; the way out is what follows the loop. -/
def strcmpRound (m : Memory) (s1 s2 : Int) (i : Int) : Fueled (Int ⊕ Int) := do
  let c1 := charVal signed (m (s1 + i))
  let c2 := charVal signed (m (s2 + i))
  if c1 = c2 then
    if c1 = 0 then return .inr 0 else return .inl (← int (i + 1))
  else return .inr (c1 - c2)

def strcmp (m : Memory) (s1 s2 : Ptr) : Fueled Int :=
  match s1, s2 with
  | some s1, some s2 => loop (strcmpRound signed m s1 s2) 0
  | _, _ => fail

/-- `i` is never negative, so it is compared with `n` as it is. -/
def strncmpRound (m : Memory) (s1 s2 : Int) (n : Nat) (i : Int) : Fueled (Int ⊕ Int) := do
  let c1 := charVal signed (m (s1 + i))
  let c2 := charVal signed (m (s2 + i))
  if i < n ∧ c1 = c2 then
    if c1 = 0 then return .inr 0 else return .inl (← int (i + 1))
  else if i = n then return .inr 0
  else return .inr (c1 - c2)

def strncmp (m : Memory) (s1 s2 : Ptr) (n : Nat) : Fueled Int :=
  match s1, s2 with
  | some s1, some s2 => loop (strncmpRound signed m s1 s2 n) 0
  | _, _ => return 0

def memcmpRound (m : Memory) (s1 s2 : Ptr) (n : Nat) (i : Nat) : Fueled (Nat ⊕ Int) :=
  if i < n then
    match s1, s2 with
    | some a, some b =>
        let c1 := charVal signed (m (a + i))
        let c2 := charVal signed (m (b + i))
        if c1 ≠ c2 then return .inr (c1 - c2) else return .inl (i + 1)
    | _, _ => fail
  else return .inr 0

def memcmp (m : Memory) (s1 s2 : Ptr) (n : Nat) : Fueled Int := loop (memcmpRound signed m s1 s2 n) 0

end Comparisons

/-! ## Copies within a memory -/

/-- The loop upwards runs on an `int` that starts at 0, the loop downwards on one that starts at
`n - 1` converted to an `int`. -/
def memmove (m : Memory) (dst src : Ptr) (n : Nat) : Fueled (Ptr × Memory) :=
  match dst, src with
  | some d, some s => do
      if n = 0 then return (dst, m)
      let m ← if d < s then
          loop (fun (i, m) => do
            if i < (n : Int) then
              return .inl (← int (i + 1), Function.update m (d + i) (m (s + i)))
            else return .inr m) (0, m)
        else
          loop (fun (i, m) => do
            if 0 ≤ i then
              return .inl (← int (i - 1), Function.update m (d + i) (m (s + i)))
            else return .inr m) (toInt32 (n - 1), m)
      return (dst, m)
  | _, _ => return (none, m)

/-- What is printed for a `NULL` is left out. -/
def memcpy (m : Memory) (out inp : Ptr) (n : Nat) : Fueled (Ptr × Memory) :=
  match out, inp with
  | some d, some s => do
      let m ← loop (fun ((i : Nat), m) =>
        if i < n then return .inl (i + 1, Function.update m (d + i) (m (s + i)))
        else return .inr m) (0, m)
      return (out, m)
  | _, _ => return (none, m)

/-! ## What they give -/

theorem returns_int {v : Int} (hlo : -2 ^ 31 ≤ v) (hhi : v < 2 ^ 31) : Returns (int v) v := by
  rw [int, if_pos ⟨hlo, hhi⟩]
  exact returns_pure v

theorem int_of_ge {v : Int} (h : 2 ^ 31 ≤ v) : int v = fail := if_neg fun hv => by omega

theorem toInt32_of_lt {v : Int} (hlo : -2 ^ 31 ≤ v) (hhi : v < 2 ^ 31) : toInt32 v = v :=
  Int.bmod_eq_of_le (by omega) (by omega)

theorem returns_strlen {m : Memory} {p : Int} {bs : List Byte} (h : IsStr m p bs) :
    Returns (strlen m (some p)) bs.length := by
  refine Returns.loop_states (n := bs.length) (fun i => i) (fun k hk => ?_) ?_
  · rw [if_pos (h.get_ne_zero hk)]
    exact returns_pure _
  · rw [if_neg (not_not.mpr h.at_end)]
    exact returns_pure _

/-- Only of a string. -/
theorem ensures_strlen (m : Memory) (s : Ptr) :
    Ensures (strlen m s) fun n => ∃ p, s = some p ∧ IsStr m p (slice m p n) := by
  cases s with
  | none => exact fun n hn => absurd hn (not_returns_fail n)
  | some p =>
      have hnone : ∀ b ∈ slice m p 0, b ≠ 0 := nofun
      refine Ensures.loop (fun i (hi : ∀ b ∈ slice m p i, b ≠ 0) => ?_) hnone
      split_ifs with hchar
      · refine ensures_pure fun b hb => ?_
        rw [slice_succ] at hb
        rcases List.mem_append.mp hb with hb | hb
        · exact hi b hb
        · exact List.mem_singleton.mp hb ▸ hchar
      · refine ensures_pure ⟨p, rfl, at_slice m p i, ?_, hi⟩
        rw [length_slice]
        exact not_not.mp hchar

/-- The bytes `bs` written to an array one after another. -/
def Buffer.put (d : Buffer) (p : Int) (bs : List Byte) : Buffer :=
  ⟨place d.bytes p bs, d.written ++ (List.range bs.length).map fun i : Nat => p + i⟩

theorem Buffer.put_nil (d : Buffer) (p : Int) : d.put p [] = d := by
  simp [Buffer.put, place]

theorem Buffer.put_concat (d : Buffer) (p : Int) (bs : List Byte) (b : Byte) :
    d.put p (bs ++ [b]) = (d.put p bs).set (p + bs.length) b := by
  unfold Buffer.put Buffer.set
  rw [place_concat, List.length_append, List.length_singleton, List.range_succ, List.map_append,
    List.append_assoc]
  rfl

theorem returns_strcpy {m : Memory} {p : Int} {bs : List Byte} (h : IsStr m p bs) (d : Buffer) (dst : Int) :
    Returns (strcpy d dst m (some p)) (d.put dst (bs ++ [0])) := by
  have hcopy : Returns (loop (fun ((i : Nat), (d : Buffer)) =>
      if i < bs.length then (return .inl (i + 1, d.set (dst + i) (m (p + i))))
      else return .inr (i, d)) (0, d)) (bs.length, d.put dst bs) := by
    have hstart : (0, d) = (0, d.put dst (bs.take 0)) := by rw [List.take_zero, Buffer.put_nil]
    rw [hstart]
    refine Returns.loop_states (n := bs.length) (fun i => (i, d.put dst (bs.take i))) (fun k hk => ?_) ?_
    · have hlen : (bs.take k).length = k := List.length_take_of_le (Nat.le_of_lt hk)
      dsimp only
      rw [if_pos hk, List.take_succ_eq_append_getElem hk, Buffer.put_concat, hlen, h.at_chars k hk]
      exact returns_pure _
    · dsimp only
      rw [if_neg (Nat.lt_irrefl _), List.take_length]
      exact returns_pure _
  rw [Buffer.put_concat]
  exact (returns_strlen h).bind (hcopy.bind (returns_pure _))

end MyCpu.Klib
