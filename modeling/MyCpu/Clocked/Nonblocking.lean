import Mathlib.Logic.Function.Basic

/-!
# Non-blocking assignments to a memory of words

What a clock edge schedules takes effect together, in the order in which it was scheduled: of two
assignments to one bit the later one stays. An assignment may be to a whole word or to some of
its bits.

* `Nba` : one scheduled assignment, `Nba.word` and `Nba.field` build them;
* `commit ns mem` : the memory after the assignments `ns`;
* `commit_of_ne`, `getLsbD_commit_of_keeps` : words and bits that no assignment names are kept.
-/

namespace MyCpu.Clocked

variable {α : Type*} {w : Nat}

/-- A scheduled assignment of the bits of `mask` at the word `addr`. -/
structure Nba (α : Type*) (w : Nat) where
  addr : α
  mask : BitVec w
  value : BitVec w

/-- `mem[a] <= v`. -/
def Nba.word (a : α) (v : BitVec w) : Nba α w := ⟨a, BitVec.allOnes w, v⟩

/-- `mem[a][lo +: k] <= v`. -/
def Nba.field {k : Nat} (a : α) (lo : Nat) (v : BitVec k) : Nba α w :=
  ⟨a, (BitVec.allOnes k).setWidth w <<< lo, v.setWidth w <<< lo⟩

@[simp] theorem Nba.word_addr (a : α) (v : BitVec w) : (Nba.word a v).addr = a := rfl

@[simp] theorem Nba.field_addr {k : Nat} (a : α) (lo : Nat) (v : BitVec k) :
    (Nba.field a lo v : Nba α w).addr = a := rfl

theorem Nba.getLsbD_field_mask {k i : Nat} (a : α) (lo : Nat) (v : BitVec k) (hi : i < w) :
    (Nba.field a lo v : Nba α w).mask.getLsbD i = decide (lo ≤ i ∧ i < lo + k) := by
  unfold field
  rw [BitVec.getLsbD_shiftLeft, BitVec.getLsbD_setWidth, BitVec.getLsbD_allOnes]
  by_cases hlo : lo ≤ i
  · have hk : i - lo < w := by omega
    have hiff : i - lo < k ↔ i < lo + k := by omega
    simp [hi, hlo, hk, hiff, Nat.not_lt.mpr hlo]
  · simp [hlo, Nat.lt_of_not_le hlo]

variable [DecidableEq α]

/-- The memory after one assignment. -/
def Nba.apply (n : Nba α w) (mem : α → BitVec w) : α → BitVec w :=
  Function.update mem n.addr (mem n.addr &&& ~~~n.mask ||| n.value &&& n.mask)

theorem Nba.apply_of_ne {n : Nba α w} {mem : α → BitVec w} {a : α} (h : n.addr ≠ a) :
    n.apply mem a = mem a := Function.update_of_ne h.symm _ _

theorem Nba.word_apply (a : α) (v : BitVec w) (mem : α → BitVec w) :
    (Nba.word a v).apply mem = Function.update mem a v := by
  unfold apply word
  congr 1
  apply BitVec.eq_of_getLsbD_eq
  intro i hi
  simp [hi]

/-- A bit after an assignment: the new value where the assignment names it. -/
theorem Nba.getLsbD_apply {i : Nat} (n : Nba α w) (mem : α → BitVec w) (a : α) (hi : i < w) :
    (n.apply mem a).getLsbD i =
      if n.addr = a ∧ n.mask.getLsbD i = true then n.value.getLsbD i else (mem a).getLsbD i := by
  by_cases ha : n.addr = a
  · subst ha
    unfold apply
    rw [Function.update_self, BitVec.getLsbD_or, BitVec.getLsbD_and, BitVec.getLsbD_and,
      BitVec.getLsbD_not]
    cases hm : n.mask.getLsbD i <;> simp [hi]
  · rw [apply_of_ne ha, if_neg fun h => ha h.1]

theorem Nba.getLsbD_field_apply {k i : Nat} (a b : α) (lo : Nat) (v : BitVec k) (mem : α → BitVec w)
    (hi : i < w) :
    ((Nba.field a lo v).apply mem b).getLsbD i =
      if a = b ∧ lo ≤ i ∧ i < lo + k then v.getLsbD (i - lo) else (mem b).getLsbD i := by
  have hmask : (Nba.field a lo v : Nba α w).mask.getLsbD i = true ↔ lo ≤ i ∧ i < lo + k := by
    rw [getLsbD_field_mask _ _ _ hi, decide_eq_true_iff]
  rw [getLsbD_apply _ _ _ hi]
  by_cases h : a = b ∧ lo ≤ i ∧ i < lo + k
  · have hk : i - lo < w := by omega
    rw [if_pos h, if_pos ⟨h.1, hmask.mpr h.2⟩]
    unfold field
    rw [BitVec.getLsbD_shiftLeft, BitVec.getLsbD_setWidth]
    simp [hi, hk, Nat.not_lt.mpr h.2.1]
  · rw [if_neg h, if_neg fun h' => h ⟨h'.1, hmask.mp h'.2⟩]

/-- The memory after the assignments `ns`, in their order. -/
def commit (ns : List (Nba α w)) (mem : α → BitVec w) : α → BitVec w :=
  ns.foldl (fun m n => n.apply m) mem

@[simp] theorem commit_nil (mem : α → BitVec w) : commit [] mem = mem := rfl

@[simp] theorem commit_cons (n : Nba α w) (ns : List (Nba α w)) (mem : α → BitVec w) :
    commit (n :: ns) mem = commit ns (n.apply mem) := rfl

theorem commit_append (ns ms : List (Nba α w)) (mem : α → BitVec w) :
    commit (ns ++ ms) mem = commit ms (commit ns mem) := List.foldl_append

/-- A word that no assignment names is kept. -/
theorem commit_of_ne {ns : List (Nba α w)} {a : α} (h : ∀ n ∈ ns, n.addr ≠ a)
    (mem : α → BitVec w) : commit ns mem a = mem a := by
  induction ns generalizing mem with
  | nil => rfl
  | cons n ns ih =>
      rw [commit_cons, ih fun m hm => h m (List.mem_cons_of_mem n hm),
        Nba.apply_of_ne (h n List.mem_cons_self)]

theorem commit_word_cons {ns : List (Nba α w)} {a : α} (h : ∀ n ∈ ns, n.addr ≠ a) (v : BitVec w)
    (mem : α → BitVec w) : commit (.word a v :: ns) mem a = v := by
  rw [commit_cons, commit_of_ne h, Nba.word_apply, Function.update_self]

/-- A bit that no assignment names is kept. -/
theorem getLsbD_commit_of_keeps {ns : List (Nba α w)} {a : α} {i : Nat} (hi : i < w)
    (h : ∀ n ∈ ns, n.addr = a → n.mask.getLsbD i = false) (mem : α → BitVec w) :
    (commit ns mem a).getLsbD i = (mem a).getLsbD i := by
  induction ns generalizing mem with
  | nil => rfl
  | cons n ns ih =>
      rw [commit_cons, ih fun m hm => h m (List.mem_cons_of_mem n hm), Nba.getLsbD_apply _ _ _ hi,
        if_neg]
      rintro ⟨ha, hm⟩
      rw [h n List.mem_cons_self ha] at hm
      exact Bool.false_ne_true hm

end MyCpu.Clocked
