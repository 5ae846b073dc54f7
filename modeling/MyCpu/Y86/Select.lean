import MyCpu.Y86.PipelineSlots

/-!
# Selections among values on their way

A chain of selections and a register file behind some writes are the same thing, as long as the
chain has the writes in the order in which they win.

* `select_append`, `select_idem` : two selections in a row, and one made twice;
* `read_after` : the register file behind an instruction is a selection with the loaded value first;
* `select_dFwd`, `select_eFwd` : the selections of D and E as reads behind the writes ahead of them.
-/

namespace MyCpu.Y86

theorem select_append (src : BitVec 4) (d : Word) (xs ys : List Fwd) :
    select src d (xs ++ ys) = select src (select src d ys) xs := by
  induction xs with
  | nil => rfl
  | cons x xs ih => rw [List.cons_append, select, select, ih]

/-- A selection made twice is made once: no older value can win over a newer one. -/
theorem select_idem (src : BitVec 4) (d : Word) (xs : List Fwd) :
    select src (select src d xs) xs = select src d xs := by
  induction xs with
  | nil => rfl
  | cons x xs ih =>
      by_cases h : src ≠ noReg ∧ src = x.dst
      · rw [select, if_pos h, select, if_pos h]
      · rw [select, if_neg h, select, if_neg h, ih]

theorem select_cons_of_ne {src : BitVec 4} {x : Fwd} (h : src = noReg ∨ src ≠ x.dst) (d : Word)
    (xs : List Fwd) : select src d (x :: xs) = select src d xs := by
  rw [select, if_neg]
  rintro ⟨h1, h2⟩
  exact h.elim h1 fun h => h h2

/-- Some value in the chain is on its way to the register. -/
def Hit (src : BitVec 4) (xs : List Fwd) : Prop := src ≠ noReg ∧ ∃ x ∈ xs, src = x.dst

theorem select_of_not_hit {src : BitVec 4} {xs : List Fwd} (h : ¬Hit src xs) (d : Word) :
    select src d xs = d := by
  induction xs with
  | nil => rfl
  | cons x xs ih =>
      rw [select, if_neg fun hx => h ⟨hx.1, x, List.mem_cons_self, hx.2⟩]
      apply ih
      rintro ⟨hsrc, y, hy, hdst⟩
      exact h ⟨hsrc, y, List.mem_cons_of_mem x hy, hdst⟩

/-- A selection that finds its register does not look at the default. -/
theorem select_of_hit {src : BitVec 4} {xs : List Fwd} (h : Hit src xs) (d d' : Word) :
    select src d xs = select src d' xs := by
  induction xs with
  | nil =>
      obtain ⟨-, x, hx, -⟩ := h
      exact absurd hx List.not_mem_nil
  | cons x xs ih =>
      by_cases hx : src ≠ noReg ∧ src = x.dst
      · rw [select, if_pos hx, select, if_pos hx]
      · rw [select, if_neg hx, select, if_neg hx]
        obtain ⟨hsrc, y, hy, hdst⟩ := h
        rcases List.mem_cons.mp hy with rfl | hy
        · exact absurd ⟨hsrc, hdst⟩ hx
        · exact ih ⟨hsrc, y, hy, hdst⟩

theorem read_write (rf : RegFile) (r : BitVec 4) (v : Word) (src : BitVec 4) :
    (rf.write r v).read src = select src (rf.read src) [⟨r, v⟩] := by
  have hsel : select src (rf.read src) [⟨r, v⟩] =
      if src ≠ noReg ∧ src = r then v else rf.read src := rfl
  rw [hsel, RegFile.read, RegFile.read]
  by_cases hs : src = noReg
  · rw [if_pos hs, if_pos hs, if_neg fun h => h.1 hs]
  · rw [if_neg hs, if_neg hs, write_apply rf r v hs]
    by_cases hr : src = r
    · rw [if_pos hr, if_pos ⟨hs, hr⟩]
    · rw [if_neg hr, if_neg fun h => hr h.2]

/-- The second write port wins, so it comes first in a selection. -/
theorem read_after (rf : RegFile) (W : MW) (src : BitVec 4) : (rf.after W).read src =
    select src (rf.read src) [⟨W.dstM, W.valM⟩, ⟨W.dstE, W.valE⟩] := by
  rw [RegFile.after, read_write, read_write, ← select_append]
  rfl

theorem select_swap_of_ne {x y : Fwd} {src : BitVec 4} (hy : ¬(src ≠ noReg ∧ src = y.dst)) (d : Word) :
    select src d [x, y] = select src d [y, x] := by
  simp only [select]
  rw [if_neg hy, if_neg hy]

theorem select_swap {x y : Fwd} (h : x.dst = noReg ∨ y.dst = noReg) (src : BitVec 4) (d : Word) :
    select src d [x, y] = select src d [y, x] := by
  rcases h with h | h
  · exact (select_swap_of_ne (fun hx => hx.1 (hx.2.trans h)) d).symm
  · exact select_swap_of_ne (fun hy => hy.1 (hy.2.trans h)) d

/-- The order of two values matters where both are for the same register. -/
theorem select_swap_iff {x y : Fwd} {src : BitVec 4} (hsrc : src ≠ noReg) (d : Word) :
    select src d [x, y] = select src d [y, x] ↔ ¬(x.dst = src ∧ y.dst = src ∧ x.val ≠ y.val) := by
  by_cases hx : src = x.dst
  · by_cases hy : src = y.dst
    · rw [select, if_pos ⟨hsrc, hx⟩, select, if_pos ⟨hsrc, hy⟩]
      rw [and_iff_right hx.symm, and_iff_right hy.symm, not_not]
    · rw [select_swap_of_ne fun h => hy h.2]
      exact iff_of_true rfl fun h => hy h.2.1.symm
  · rw [← select_swap_of_ne fun h => hx h.2]
    exact iff_of_true rfl fun h => hx h.1.symm

/-- For an instruction with one destination the order of its two results does not matter. -/
theorem read_after_of_one_dst (rf : RegFile) {W : MW} (h : W.dstE = noReg ∨ W.dstM = noReg)
    (src : BitVec 4) : (rf.after W).read src =
      select src (rf.read src) [⟨W.dstE, W.valE⟩, ⟨W.dstM, W.valM⟩] := by
  rw [read_after, select_swap h.symm]

/-- What has been loaded last is not on its way yet. -/
theorem read_after_of_ne (rf : RegFile) {W : MW} {src : BitVec 4}
    (h : src = noReg ∨ src ≠ W.dstM) :
    (rf.after W).read src = select src (rf.read src) [⟨W.dstE, W.valE⟩] := by
  rw [read_after, select_cons_of_ne h]

section

variable {rf : RegFile} {src : BitVec 4} {W₁ W₂ W₃ : MW}

/-- The selection in D is a read behind the three instructions ahead, unless the nearest of them
loads the register. -/
theorem select_dFwd (h₂ : W₂.dstE = noReg ∨ W₂.dstM = noReg)
    (h₃ : W₃.dstE = noReg ∨ W₃.dstM = noReg) (hsrc : src = noReg ∨ src ≠ W₁.dstM) :
    select src (rf.read src) [⟨W₁.dstE, W₁.valE⟩, ⟨W₂.dstE, W₂.valE⟩, ⟨W₂.dstM, W₂.valM⟩,
      ⟨W₃.dstE, W₃.valE⟩, ⟨W₃.dstM, W₃.valM⟩] = (((rf.after W₃).after W₂).after W₁).read src := by
  rw [read_after_of_ne _ hsrc, read_after_of_one_dst _ h₂, read_after_of_one_dst _ h₃,
    ← select_append, ← select_append]
  rfl

/-- The selection in E changes nothing about a value that has been read behind the two
instructions ahead, unless the nearer of them loads the register. -/
theorem select_eFwd (hsrc : src = noReg ∨ src ≠ W₁.dstM) :
    select src (((rf.after W₂).after W₁).read src)
      [⟨W₁.dstE, W₁.valE⟩, ⟨W₂.dstM, W₂.valM⟩, ⟨W₂.dstE, W₂.valE⟩] =
        ((rf.after W₂).after W₁).read src := by
  have h : ((rf.after W₂).after W₁).read src = select src (rf.read src)
      [⟨W₁.dstE, W₁.valE⟩, ⟨W₂.dstM, W₂.valM⟩, ⟨W₂.dstE, W₂.valE⟩] := by
    rw [read_after_of_ne _ hsrc, read_after, ← select_append]
    rfl
  rw [h, select_idem]

end

/-- The selection in D and then in E, of an instruction whose nearest predecessor does not load its
source, against the reads behind its three predecessors: the farthest one may have left its results
in the wrong order. -/
theorem select_twice_iff {src : BitVec 4} (rf : RegFile) (W₁ W₂ W₃ : MW) (hsrc : src ≠ noReg)
    (hload : src ≠ W₁.dstM) :
    select src (select src (rf.read src) [⟨W₁.dstE, W₁.valE⟩, ⟨W₂.dstE, W₂.valE⟩,
        ⟨W₂.dstM, W₂.valM⟩, ⟨W₃.dstE, W₃.valE⟩, ⟨W₃.dstM, W₃.valM⟩])
      [⟨W₁.dstE, W₁.valE⟩, ⟨W₂.dstM, W₂.valM⟩, ⟨W₂.dstE, W₂.valE⟩] =
        (((rf.after W₃).after W₂).after W₁).read src ↔
      ¬((W₃.dstE = src ∧ W₃.dstM = src ∧ W₃.valE ≠ W₃.valM) ∧
        W₁.dstE ≠ src ∧ W₂.dstE ≠ src ∧ W₂.dstM ≠ src) := by
  have hright : (((rf.after W₃).after W₂).after W₁).read src =
      select src (select src (rf.read src) [⟨W₃.dstM, W₃.valM⟩, ⟨W₃.dstE, W₃.valE⟩])
        [⟨W₁.dstE, W₁.valE⟩, ⟨W₂.dstM, W₂.valM⟩, ⟨W₂.dstE, W₂.valE⟩] := by
    rw [read_after_of_ne _ (.inr hload), read_after, read_after, ← select_append]
    rfl
  have hmem : Hit src [⟨W₁.dstE, W₁.valE⟩, ⟨W₂.dstM, W₂.valM⟩, ⟨W₂.dstE, W₂.valE⟩] ↔
      ¬(W₁.dstE ≠ src ∧ W₂.dstE ≠ src ∧ W₂.dstM ≠ src) := by
    simp only [Hit, List.mem_cons, List.not_mem_nil, or_false, exists_eq_or_imp, exists_eq_left,
      eq_comm (a := src)]
    tauto
  rw [hright]
  by_cases h : Hit src [⟨W₁.dstE, W₁.valE⟩, ⟨W₂.dstM, W₂.valM⟩, ⟨W₂.dstE, W₂.valE⟩]
  · exact iff_of_true (select_of_hit h _ _) fun hn => hmem.mp h hn.2
  · have hnear := not_not.mp (mt hmem.mpr h)
    have hnot : ¬Hit src [⟨W₁.dstE, W₁.valE⟩, ⟨W₂.dstE, W₂.valE⟩, ⟨W₂.dstM, W₂.valM⟩] := by
      rintro ⟨-, x, hx, hdst⟩
      exact h ⟨hsrc, x, ((List.Perm.swap _ _ _).cons _).mem_iff.mp hx, hdst⟩
    have hsplit : select src (rf.read src) [⟨W₁.dstE, W₁.valE⟩, ⟨W₂.dstE, W₂.valE⟩,
        ⟨W₂.dstM, W₂.valM⟩, ⟨W₃.dstE, W₃.valE⟩, ⟨W₃.dstM, W₃.valM⟩] =
          select src (select src (rf.read src) [⟨W₃.dstE, W₃.valE⟩, ⟨W₃.dstM, W₃.valM⟩])
            [⟨W₁.dstE, W₁.valE⟩, ⟨W₂.dstE, W₂.valE⟩, ⟨W₂.dstM, W₂.valM⟩] := by
      rw [← select_append]
      rfl
    rw [select_of_not_hit h, select_of_not_hit h, hsplit, select_of_not_hit hnot,
      select_swap_iff hsrc, and_iff_left hnear]

end MyCpu.Y86
