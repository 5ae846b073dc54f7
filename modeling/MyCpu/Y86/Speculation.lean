import MyCpu.Clocked.Gaps
import MyCpu.Y86.StraightLine

/-!
# Conditional jumps

Every jump is predicted not to be taken, and M decides. On code without `call`, `ret` and `popq` and without
a load used by the next instruction, the pipeline is the sequential machine with jumps too, as long as the
two instructions behind a taken jump are no `ret` and no load and its use: a taken jump is an instruction
with three empty places behind it.

* `places`, `TakenAt.next` : the places of the instructions, and those behind a taken jump;
* `SpeculationInv`, `speculationInv_step` : what the registers hold, on the right path and off it;
* `speculation_refines` : registers, stores and condition codes are those of the sequential machine, and a
  taken jump costs three clocks.
-/

namespace MyCpu.Y86

open Clocked

/-! ## Instructions -/

namespace FD

variable {D D' : FD}

theorem Simple.src_ne (h : D.Simple) (hl : ¬D.LoadUse D') {src : BitVec 4}
    (hsrc : srcA D'.icode D'.rA = src ∨ srcB D'.icode D'.rB = src) :
    src = noReg ∨ src ≠ dstM D.icode D.rA := by
  rcases h with h | h
  · exact h.src_ne hl hsrc
  · have hdst : dstM D.icode D.rA = noReg := by rw [h]; rfl
    rw [hdst]
    exact Classical.em _

theorem Simple.not_stalls (h : D.Simple) (hl : ¬D.LoadUse D') : ¬D.Stalls D' := by
  rw [Stalls, loadUseHazard]
  simp only [Bool.and_eq_true, Bool.or_eq_true, beq_iff_eq, bne_iff_ne]
  rintro ⟨⟨-, hsrc⟩, hne⟩
  exact (h.src_ne hl (hsrc.imp Eq.symm Eq.symm)).elim hne fun hn => hn rfl

end FD

/-! ## Places -/

section

variable (p : Setup)

/-- Instruction `k` is a jump that is taken. -/
def taken (k : Nat) : Bool := (seqInstr p k).icode == icJxx && cond (seq p k).cc (seqInstr p k).ifun

def penalty (k : Nat) : Nat := if taken p k = true then 3 else 0

/-- The places in which the instructions go through the pipeline, the first one behind the four bubbles of
a reset. -/
def places (j : Nat) : Nat × Nat := place 4 (penalty p) j

/-- The place holds a taken jump. -/
def TakenAt (j : Nat) : Prop := (places p j).2 = 0 ∧ taken p (places p j).1 = true

/-- The instruction at a place, a bubble if it is empty. -/
def wordAt (j : Nat) : FD := if (places p j).2 = 0 then seqInstr p (places p j).1 else FD.bubble

/-- The sequential machine ahead of a place. -/
def archAt (j : Nat) : SeqState := seq p (places p j).1

/-- What the instruction at a place brings to W. -/
def outcomeAt (j : Nat) : MW := (archAt p j).result (wordAt p j)

/-- The instruction behind instruction `k`, and the one behind that. -/
def behind (k : Nat) : FD := pipeStageFetch p.imem (seqInstr p k).valP

def behindTwo (k : Nat) : FD := pipeStageFetch p.imem (behind p k).valP

/-- The sequential machine's first `n` instructions are straight-line code and jumps, no load is used by the
next instruction, and what is fetched behind a taken jump does not hold the PC. -/
structure SpeculativeRun (n : Nat) : Prop where
  simple : ∀ i < n, (seqInstr p i).Simple
  noLoadUse : ∀ i, i + 1 < n → ¬(seqInstr p i).LoadUse (seqInstr p (i + 1))
  behind : ∀ i < n, taken p i = true → (behind p i).icode ≠ icRet ∧ (behindTwo p i).icode ≠ icRet ∧
    ¬(behind p i).Stalls (behindTwo p i)

end

section

variable {p : Setup} {j : Nat}

theorem SpeculativeRun.mono {n n' : Nat} (h : SpeculativeRun p n') (hn : n ≤ n') : SpeculativeRun p n :=
  ⟨fun i hi => h.simple i (Nat.lt_of_lt_of_le hi hn),
    fun i hi => h.noLoadUse i (Nat.lt_of_lt_of_le hi hn),
    fun i hi => h.behind i (Nat.lt_of_lt_of_le hi hn)⟩

theorem places_succ_of_item (h : (places p j).2 = 0) :
    places p (j + 1) = ((places p j).1 + 1, penalty p (places p j).1) := place_succ_of_item h

theorem places_succ_of_empty {g : Nat} (h : (places p j).2 = g + 1) :
    places p (j + 1) = ((places p j).1, g) := place_succ_of_empty h

/-- The three places behind a taken jump are empty, the fourth is not. -/
theorem TakenAt.next (h : TakenAt p j) :
    places p (j + 1) = ((places p j).1 + 1, 3) ∧ places p (j + 2) = ((places p j).1 + 1, 2) ∧
      places p (j + 3) = ((places p j).1 + 1, 1) ∧ places p (j + 4) = ((places p j).1 + 1, 0) := by
  have h1 : places p (j + 1) = ((places p j).1 + 1, 3) := by
    rw [places_succ_of_item h.1, penalty, if_pos h.2]
  have h2 : places p (j + 2) = ((places p j).1 + 1, 2) := by
    rw [places_succ_of_empty (g := 2) (congrArg Prod.snd h1), h1]
  have h3 : places p (j + 3) = ((places p j).1 + 1, 1) := by
    rw [places_succ_of_empty (g := 1) (congrArg Prod.snd h2), h2]
  exact ⟨h1, h2, h3, by rw [places_succ_of_empty (g := 0) (congrArg Prod.snd h3), h3]⟩

theorem TakenAt.not_succ (h : TakenAt p j) :
    ¬TakenAt p (j + 1) ∧ ¬TakenAt p (j + 2) ∧ ¬TakenAt p (j + 3) := by
  obtain ⟨h1, h2, h3, -⟩ := h.next
  refine ⟨fun h' => ?_, fun h' => ?_, fun h' => ?_⟩
  · exact Nat.noConfusion (h'.1.symm.trans (congrArg Prod.snd h1))
  · exact Nat.noConfusion (h'.1.symm.trans (congrArg Prod.snd h2))
  · exact Nat.noConfusion (h'.1.symm.trans (congrArg Prod.snd h3))

theorem places_snd_le (j : Nat) : (places p (j + 1)).2 ≤ 3 := by
  induction j with
  | zero => exact Nat.le_refl 3
  | succ j ih =>
      cases h : (places p (j + 1)).2 with
      | zero =>
          rw [places_succ_of_item h, penalty]
          dsimp only
          split <;> omega
      | succ g =>
          rw [places_succ_of_empty h]
          dsimp only
          omega

/-- The empty place in front of an empty place, or the jump. -/
theorem takenAt_or_succ {g : Nat} (hg : g ≠ 0) (h : (places p (j + 1)).2 = g) :
    TakenAt p j ∧ g = 3 ∨ (places p j).2 = g + 1 := by
  cases h' : (places p j).2 with
  | zero =>
      rw [places_succ_of_item h', penalty] at h
      by_cases ht : taken p (places p j).1 = true
      · rw [if_pos ht] at h
        exact .inl ⟨⟨h', ht⟩, h.symm⟩
      · rw [if_neg ht] at h
        exact absurd h.symm hg
  | succ g' =>
      rw [places_succ_of_empty h'] at h
      exact .inr (congrArg (· + 1) h)

/-- An empty place behind those of the reset is one of the three behind a taken jump. -/
theorem takenAt_of_empty (h : (places p (j + 4)).2 ≠ 0) :
    TakenAt p (j + 3) ∨ TakenAt p (j + 2) ∨ TakenAt p (j + 1) := by
  rcases takenAt_or_succ h rfl with ⟨ht, -⟩ | h3
  · exact .inl ht
  rcases takenAt_or_succ (Nat.succ_ne_zero _) h3 with ⟨ht, -⟩ | h2
  · exact .inr (.inl ht)
  rcases takenAt_or_succ (Nat.succ_ne_zero _) h2 with ⟨ht, -⟩ | h1
  · exact .inr (.inr ht)
  have hle := places_snd_le (p := p) j
  omega

/-! ## The sequential machine at a place -/

theorem wordAt_of_item (h : (places p j).2 = 0) : wordAt p j = seqInstr p (places p j).1 := if_pos h

theorem wordAt_of_empty (h : (places p j).2 ≠ 0) : wordAt p j = FD.bubble := if_neg h

theorem TakenAt.word (h : TakenAt p j) : wordAt p j = seqInstr p (places p j).1 := wordAt_of_item h.1

/-- A bubble leaves everything but the PC as it is. -/
theorem archAt_succ (p : Setup) (j : Nat) :
    ∃ pc, archAt p (j + 1) = { (archAt p j).exec (wordAt p j) with pc := pc } := by
  cases h : (places p j).2 with
  | zero =>
      refine ⟨(archAt p (j + 1)).pc, ?_⟩
      rw [archAt, places_succ_of_item h, wordAt_of_item h]
      exact seq_succ p _
  | succ g =>
      refine ⟨(archAt p j).pc, ?_⟩
      have hbubble := SeqState.exec_bubble (s := { archAt p j with pc := 0#64 }) rfl
      rw [wordAt_of_empty (by rw [h]; exact Nat.succ_ne_zero g), archAt, places_succ_of_empty h]
      exact (congrArg (fun s : SeqState => { s with pc := (archAt p j).pc }) hbubble).symm

theorem regFile_archAt_succ (p : Setup) (j : Nat) :
    (archAt p (j + 1)).regFile = (archAt p j).regFile.after (outcomeAt p j) := by
  obtain ⟨pc, h⟩ := archAt_succ p j
  rw [h]
  rfl

theorem cc_archAt_succ (p : Setup) (j : Nat) : (archAt p (j + 1)).cc =
    ccReg ((archAt p j).decode (wordAt p j)) false (archAt p j).cc [] := by
  obtain ⟨pc, h⟩ := archAt_succ p j
  rw [h]
  rfl

theorem dataMem_archAt_succ (p : Setup) (j : Nat) : (archAt p (j + 1)).dataMem =
    (archAt p j).dataMem.after ((archAt p j).memWrite (wordAt p j)) := by
  obtain ⟨pc, h⟩ := archAt_succ p j
  rw [h]
  rfl

theorem seq_pc_succ {k : Nat} (h : (seqInstr p k).Simple) : (seq p (k + 1)).pc =
    if taken p k = true then (seqInstr p k).valC else (seqInstr p k).valP := by
  have hpc : (seq p (k + 1)).pc = newPc (seqInstr p k).valP ((seq p k).memIn (seqInstr p k))
      ((seq p k).result (seqInstr p k)) := by
    rw [seq_succ]
    rfl
  have hjump : (((seq p k).memIn (seqInstr p k)).icode = icJxx ∧
      ((seq p k).memIn (seqInstr p k)).cnd = true) ↔ taken p k = true := by
    rw [taken, Bool.and_eq_true, beq_iff_eq]
    exact Iff.rfl
  have hret : ((seq p k).result (seqInstr p k)).icode ≠ icRet := h.ne.2.1
  rw [hpc, newPc, if_neg hret]
  exact if_congr hjump rfl rfl

end

section

variable {p : Setup} {t : Nat} (hr : SpeculativeRun p (places p t).1)

include hr

omit hr in
/-- The instruction of a place is one of the first if a later place belongs to a later one. -/
theorem lt_of_place {j : Nat} (hj : j < t) (h : (places p j).2 = 0) : (places p j).1 < (places p t).1 := by
  have hmono : (places p (j + 1)).1 ≤ (places p t).1 := place_mono 4 (penalty p) hj
  rw [places_succ_of_item h] at hmono
  exact hmono

theorem simple_wordAt {j : Nat} (hj : j < t) : (wordAt p j).Simple := by
  by_cases h : (places p j).2 = 0
  · rw [wordAt_of_item h]
    exact hr.simple _ (lt_of_place hj h)
  · rw [wordAt_of_empty h]
    exact .inl (.inl rfl)

theorem noLoadUse_wordAt {j : Nat} (hj : j + 1 < t) : ¬(wordAt p j).LoadUse (wordAt p (j + 1)) := by
  intro hl
  by_cases h : (places p j).2 = 0
  · by_cases ht : taken p (places p j).1 = true
    · rw [taken, Bool.and_eq_true, beq_iff_eq, ← wordAt_of_item h, hl.1] at ht
      exact absurd ht.1 (by decide)
    · have hnext := places_succ_of_item h
      rw [penalty, if_neg ht] at hnext
      have hitem : (places p (j + 1)).2 = 0 := by rw [hnext]
      have hlt := lt_of_place hj hitem
      rw [wordAt_of_item h, wordAt_of_item hitem] at hl
      rw [hnext] at hl hlt
      exact hr.noLoadUse _ hlt hl
  · rw [wordAt_of_empty h] at hl
    exact absurd hl.1 (by decide)

theorem behind_of_takenAt {j : Nat} (hj : j < t) (h : TakenAt p j) :
    (behind p (places p j).1).icode ≠ icRet ∧ (behindTwo p (places p j).1).icode ≠ icRet ∧
      ¬(behind p (places p j).1).Stalls (behindTwo p (places p j).1) :=
  hr.behind _ (lt_of_place hj h.1) h.2

end

/-! ## What the registers hold -/

/-- After `t` clocks W holds what place `t` brings, and the registers in front of it the next three places,
except that a jump in M that will be taken has the two instructions behind it in E and D, and one in E has
one of them in D. -/
structure SpeculationInv (p : Setup) (t : Nat) : Prop where
  fPc : ¬TakenAt p (t + 3) → ¬TakenAt p (t + 2) → ¬TakenAt p (t + 1) →
    (trace p t).fPc = (archAt p (t + 4)).pc
  fPc₁ : TakenAt p (t + 3) → (trace p t).fPc = (seqInstr p (places p (t + 3)).1).valP
  fPc₂ : TakenAt p (t + 2) → (trace p t).fPc = (behind p (places p (t + 2)).1).valP
  d : ¬TakenAt p (t + 2) → ¬TakenAt p (t + 1) → (trace p t).D = wordAt p (t + 3)
  d₁ : TakenAt p (t + 2) → (trace p t).D = behind p (places p (t + 2)).1
  d₂ : TakenAt p (t + 1) → (trace p t).D = behindTwo p (places p (t + 1)).1
  e : ¬TakenAt p (t + 1) → (trace p t).E = (archAt p (t + 2)).decode (wordAt p (t + 2))
  e₁ : TakenAt p (t + 1) →
    ∃ rf fwd, (trace p t).E = pipeStageDecode (behind p (places p (t + 1)).1) rf fwd
  m : ∃ cnd valP, (trace p t).M =
      { (archAt p (t + 1)).memIn (wordAt p (t + 1)) with cnd := cnd, valP := valP } ∧
    ((wordAt p (t + 1)).icode = icJxx → cnd = cond (archAt p (t + 1)).cc (wordAt p (t + 1)).ifun)
  w : (trace p t).W = outcomeAt p t
  regFile : (trace p t).regFile = (archAt p t).regFile
  cc : (trace p t).cc = (archAt p (t + 2)).cc
  dataMem : (trace p t).dataMem = (archAt p (t + 1)).dataMem

theorem not_takenAt_of_lt {p : Setup} {j : Nat} (hj : j < 4) : ¬TakenAt p j := by
  intro h
  have hempty : ∀ j < 4, (places p j).2 ≠ 0 := by
    intro j hj
    obtain rfl | rfl | rfl | rfl : j = 0 ∨ j = 1 ∨ j = 2 ∨ j = 3 := by omega
    all_goals exact nofun
  exact hempty j hj h.1

theorem speculationInv_zero (p : Setup) : SpeculationInv p 0 where
  fPc _ _ _ := rfl
  fPc₁ h := absurd h (not_takenAt_of_lt (by decide))
  fPc₂ h := absurd h (not_takenAt_of_lt (by decide))
  d _ _ := rfl
  d₁ h := absurd h (not_takenAt_of_lt (by decide))
  d₂ h := absurd h (not_takenAt_of_lt (by decide))
  e _ := rfl
  e₁ h := absurd h (not_takenAt_of_lt (by decide))
  m := ⟨false, 0#64, rfl, nofun⟩
  w := rfl
  regFile := rfl
  cc := rfl
  dataMem := rfl

namespace SpeculationInv

variable {p : Setup} {t : Nat} (h : SpeculationInv p t)

section

include h

/-- The jump in M is found taken exactly when it is. -/
theorem mispredicted_iff :
    mispredicted (trace p t).M.icode (trace p t).M.cnd = true ↔ TakenAt p (t + 1) := by
  obtain ⟨cnd, valP, hM, hcnd⟩ := h.m
  have hic : (trace p t).M.icode = (wordAt p (t + 1)).icode := by rw [hM]; rfl
  have hc : (trace p t).M.cnd = cnd := by rw [hM]
  rw [mispredicted, Bool.and_eq_true, beq_iff_eq, hic, hc]
  by_cases hitem : (places p (t + 1)).2 = 0
  · rw [TakenAt, and_iff_right hitem, taken, Bool.and_eq_true, beq_iff_eq, ← wordAt_of_item hitem]
    exact and_congr_right fun hj => by rw [hcnd hj]; rfl
  · rw [wordAt_of_empty hitem]
    exact iff_of_false (fun hj => absurd hj.1 (by decide)) fun ht => hitem ht.1

theorem e_icode (hn : ¬TakenAt p (t + 1)) : (trace p t).E.icode = (wordAt p (t + 2)).icode := by
  rw [h.e hn]
  rfl

end

variable (hr : SpeculativeRun p (places p (t + 4)).1)

include h hr

/-- Nothing is stalled. -/
theorem control : (trace p t).control.dStall = false ∧
    retHazard (trace p t).D.icode (trace p t).E.icode (trace p t).M.icode = false := by
  have hstall : (trace p t).control.dStall = loadUseHazard (trace p t).E.icode (trace p t).E.dstM
      (srcA (trace p t).D.icode (trace p t).D.rA) (srcB (trace p t).D.icode (trace p t).D.rB) := rfl
  have hM : (trace p t).M.icode ≠ icRet := by
    obtain ⟨cnd, valP, hM, -⟩ := h.m
    rw [hM]
    exact (simple_wordAt hr (show t + 1 < t + 4 by omega)).ne.2.1
  have hret : ∀ {dIcode eIcode : BitVec 4}, dIcode ≠ icRet → eIcode ≠ icRet →
      retHazard dIcode eIcode (trace p t).M.icode = false := by
    intro dIcode eIcode hD hE
    rw [retHazard, beq_false_of_ne hD, beq_false_of_ne hE, beq_false_of_ne hM]
    rfl
  rw [hstall]
  by_cases h1 : TakenAt p (t + 1)
  · obtain ⟨hE, hD, hnot⟩ := behind_of_takenAt hr (show t + 1 < t + 4 by omega) h1
    obtain ⟨rf, fwd, he⟩ := h.e₁ h1
    rw [h.d₂ h1, he]
    exact ⟨eq_false_of_ne_true hnot, hret hD hE⟩
  · have hE := (simple_wordAt hr (show t + 2 < t + 4 by omega)).ne.2.1
    rw [h.e h1]
    by_cases h2 : TakenAt p (t + 2)
    · obtain ⟨hD, -, -⟩ := behind_of_takenAt hr (show t + 2 < t + 4 by omega) h2
      have hjump : (wordAt p (t + 2)).icode = icJxx := by
        have ht := h2.2
        rw [taken, Bool.and_eq_true, beq_iff_eq] at ht
        rw [h2.word]
        exact ht.1
      have hno : loadUseHazard (wordAt p (t + 2)).icode
          (dstM (wordAt p (t + 2)).icode (wordAt p (t + 2)).rA)
          (srcA (trace p t).D.icode (trace p t).D.rA) (srcB (trace p t).D.icode (trace p t).D.rB) = false := by
        rw [hjump]
        rfl
      rw [← h.d₁ h2] at hD
      exact ⟨hno, hret hD hE⟩
    · have hD := (simple_wordAt hr (show t + 3 < t + 4 by omega)).ne.2.1
      rw [h.d h2 h1]
      refine ⟨eq_false_of_ne_true ?_, hret hD hE⟩
      exact (simple_wordAt hr (show t + 2 < t + 4 by omega)).not_stalls
        (noLoadUse_wordAt hr (show t + 2 + 1 < t + 4 by omega))

theorem mOut : (trace p t).mOut = outcomeAt p (t + 1) := by
  obtain ⟨cnd, valP, hM, -⟩ := h.m
  rw [State.mOut, hM, h.dataMem]
  exact pipeStageMemory_with (simple_wordAt hr (show t + 1 < t + 4 by omega)).ne.1 cnd valP _

theorem memWrite : (trace p t).memWrite = (archAt p (t + 1)).memWrite (wordAt p (t + 1)) := by
  obtain ⟨cnd, valP, hM, -⟩ := h.m
  rw [State.memWrite, hM]
  exact memWrite_with (simple_wordAt hr (show t + 1 < t + 4 by omega)).ne.1 cnd valP

/-- E selects for a source what the register file holds ahead of its instruction. -/
theorem select_e {src : BitVec 4} (hsrc : srcA (wordAt p (t + 2)).icode (wordAt p (t + 2)).rA = src ∨
    srcB (wordAt p (t + 2)).icode (wordAt p (t + 2)).rB = src) :
    select src ((archAt p (t + 2)).regFile.read src) (trace p t).eFwd =
      (archAt p (t + 2)).regFile.read src := by
  obtain ⟨cnd, valP, hM, -⟩ := h.m
  rw [regFile_archAt_succ, regFile_archAt_succ, ← h.w]
  exact select_eFwd_of_m hM _ ((simple_wordAt hr (show t + 1 < t + 4 by omega)).src_ne
    (noLoadUse_wordAt hr (show t + 1 + 1 < t + 4 by omega)) hsrc)

theorem eOut (h1 : ¬TakenAt p (t + 1)) :
    (trace p t).eOut = (archAt p (t + 2)).execute (wordAt p (t + 2)) := by
  rw [State.eOut, h.e h1, h.cc]
  exact pipeStageExecute_decode (simple_wordAt hr (show t + 2 < t + 4 by omega)) (fun _ => h.select_e hr) _

theorem ccReg (h1 : ¬TakenAt p (t + 1)) (eBubble : Bool) :
    Y86.ccReg (trace p t).E eBubble (trace p t).cc (trace p t).eFwd =
      Y86.ccReg ((archAt p (t + 2)).decode (wordAt p (t + 2))) eBubble (archAt p (t + 2)).cc [] := by
  rw [h.e h1, h.cc]
  exact ccReg_decode (simple_wordAt hr (show t + 2 < t + 4 by omega)) (fun _ => h.select_e hr) _ _

/-- D selects for a source what the register file will hold ahead of its instruction. -/
theorem select_d (h1 : ¬TakenAt p (t + 1)) {src : BitVec 4}
    (hsrc : srcA (wordAt p (t + 3)).icode (wordAt p (t + 3)).rA = src ∨
      srcB (wordAt p (t + 3)).icode (wordAt p (t + 3)).rB = src) :
    select src ((trace p t).regFile.read src) (trace p t).dFwd =
      (archAt p (t + 3)).regFile.read src := by
  obtain ⟨cnd, valP, hM, -⟩ := h.m
  have hW : (trace p t).W.dstE = noReg ∨ (trace p t).W.dstM = noReg := by
    rw [h.w]
    exact one_dst_result (simple_wordAt hr (show t < t + 4 by omega)) _
  rw [regFile_archAt_succ, regFile_archAt_succ, regFile_archAt_succ, ← h.regFile, ← h.w]
  exact select_dFwd_of_m hM (h.eOut hr h1) (h.mOut hr)
    (simple_wordAt hr (show t + 1 < t + 4 by omega)) hW
    ((simple_wordAt hr (show t + 2 < t + 4 by omega)).src_ne
      (noLoadUse_wordAt hr (show t + 2 + 1 < t + 4 by omega)) hsrc)

theorem dOut (h1 : ¬TakenAt p (t + 1)) (h2 : ¬TakenAt p (t + 2)) :
    (trace p t).dOut = (archAt p (t + 3)).decode (wordAt p (t + 3)) := by
  rw [State.dOut, h.d h2 h1]
  exact pipeStageDecode_eq (simple_wordAt hr (show t + 3 < t + 4 by omega)) fun _ => h.select_d hr h1

end SpeculationInv

/-! ## A clock -/

/-- A jump that is found taken leaves bubbles behind it. -/
theorem step_of_flush {p : Setup} {t : Nat} (hD : (trace p t).control.dBubble = true)
    (hE : (trace p t).control.eBubble = true) :
    (trace p (t + 1)).D = FD.bubble ∧ (trace p (t + 1)).E = DE.bubble ∧
      (trace p (t + 1)).M = EM.bubble ∧ (slotsAt p (t + 1)).d = none ∧
      (slotsAt p (t + 1)).e = none ∧ (slotsAt p (t + 1)).m = none := by
  rcases step_d p.imem (p.net t) (trace p t) (slotsAt p t) (fetchedAt p t) with
    ⟨-, hd, hd'⟩ | ⟨hd, -⟩ | ⟨hd, -⟩
  · rcases step_em p.imem (p.net t) (trace p t) (slotsAt p t) (fetchedAt p t) with
      ⟨-, he, hm, he', hm'⟩ | ⟨he, -⟩
    · exact ⟨hd, he, hm, hd', he', hm'⟩
    · rw [hE] at he
      contradiction
  · rw [hD] at hd
    contradiction
  · rw [hD] at hd
    contradiction

section

variable {p : Setup} {t : Nat} (h : SpeculationInv p t) (hr : SpeculativeRun p (places p (t + 4)).1)

include h hr

theorem fStall_of_inv : (trace p t).control.fStall = false := by
  obtain ⟨hlu, hrh⟩ := h.control hr
  rw [fStall_eq, hlu, hrh]
  rfl

theorem bubble_of_inv {b : Bool} (hb : mispredicted (trace p t).M.icode (trace p t).M.cnd = b) :
    (trace p t).control.dBubble = b ∧ (trace p t).control.eBubble = b := by
  obtain ⟨hlu, hrh⟩ := h.control hr
  rw [dBubble_eq, eBubble_eq, hlu, hrh, hb]
  exact ⟨Bool.or_false b, Bool.or_false b⟩

end

/-- A clock in which a jump is found taken. -/
theorem speculationInv_flush {p : Setup} {t : Nat} (h : SpeculationInv p t)
    (hr : SpeculativeRun p (places p (t + 4)).1) (ht : TakenAt p (t + 1)) :
    SpeculationInv p (t + 1) := by
  have hmp := h.mispredicted_iff.mpr ht
  obtain ⟨hD, hE⟩ := bubble_of_inv h hr hmp
  obtain ⟨hd, he, hm, -, -, -⟩ := step_of_flush hD hE
  obtain ⟨h2, h3, h4, h5⟩ := ht.next
  obtain ⟨hn2, hn3, hn4⟩ := ht.not_succ
  have hword : ∀ {j g}, places p j = ((places p (t + 1)).1 + 1, g + 1) → wordAt p j = FD.bubble :=
    fun hj => wordAt_of_empty (by rw [hj]; exact Nat.succ_ne_zero _)
  have hM : (trace p t).M.icode = icJxx ∧ (trace p t).M.cnd = true := by
    simpa [mispredicted] using hmp
  have hvalC : (trace p t).M.valC = (wordAt p (t + 1)).valC := by
    obtain ⟨cnd, valP, hM, -⟩ := h.m
    rw [hM]
    rfl
  have hpc : (trace p (t + 1)).fPc = (archAt p (t + 5)).pc := by
    rw [fPc_succ, if_pos (fStall_of_inv h hr), newPc, if_pos hM, hvalC, ht.word, archAt, h5]
    have hs := hr.simple _ (lt_of_place (show t + 1 < t + 4 by omega) ht.1)
    rw [seq_pc_succ hs, if_pos ht.2]
  have hreg : (trace p (t + 1)).regFile = (trace p t).regFile.after (trace p t).W := rfl
  have hcc : (trace p (t + 1)).cc = ccReg (trace p t).E (trace p t).control.eBubble
      (trace p t).cc (trace p t).eFwd := rfl
  have hmem : (trace p (t + 1)).dataMem = (trace p t).dataMem.after (trace p t).memWrite := rfl
  refine ⟨fun _ _ _ => hpc, fun hc => absurd hc hn4, fun hc => absurd hc hn3, fun _ _ => ?_,
    fun hc => absurd hc hn3, fun hc => absurd hc hn2, fun _ => ?_, fun hc => absurd hc hn2,
    ⟨false, 0#64, ?_, ?_⟩, h.mOut hr, ?_, ?_, ?_⟩
  · rw [hd, hword h4]
  · rw [he, hword h3]
    rfl
  · rw [hm, hword h2]
    rfl
  · rw [hword h2]
    exact fun hc => absurd hc (by decide)
  · rw [hreg, h.regFile, h.w, regFile_archAt_succ]
  · have hsame : (archAt p (t + 3)).cc = (archAt p (t + 2)).cc := by
      rw [archAt, archAt, h3, h2]
    rw [hcc, hE, h.cc, hsame]
    exact if_neg fun hc => Bool.noConfusion hc.2
  · rw [hmem, h.memWrite hr, h.dataMem, dataMem_archAt_succ p (t + 1)]

/-- A clock in which none is. -/
theorem speculationInv_flow {p : Setup} {t : Nat} (h : SpeculationInv p t)
    (hr : SpeculativeRun p (places p (t + 5)).1) (h1 : ¬TakenAt p (t + 1)) :
    SpeculationInv p (t + 1) := by
  have hr' := hr.mono (place_mono 4 (penalty p) (Nat.le_succ (t + 4)))
  have hmp := eq_false_of_ne_true (mt h.mispredicted_iff.mp h1)
  obtain ⟨hlu, hrh⟩ := h.control hr'
  obtain ⟨hD, hE⟩ := bubble_of_inv h hr' hmp
  obtain ⟨hd, -⟩ := step_d_of_free hD hlu
  obtain ⟨he, hm, -, -⟩ := step_em_of_free hE
  have hM : ¬((trace p t).M.icode = icJxx ∧ (trace p t).M.cnd = true) := by
    simpa [mispredicted] using hmp
  have hW : (trace p t).W.icode ≠ icRet := by
    rw [h.w]
    exact (simple_wordAt hr' (show t < t + 4 by omega)).ne.2.1
  have hpc : (trace p (t + 1)).fPc = (pipeStageFetch p.imem (trace p t).fPc).valP := by
    rw [fPc_succ, if_pos (fStall_of_inv h hr'), newPc_of_ne hM hW]
  -- the next place is that of the next instruction unless it is behind a jump
  have hfetch : ¬TakenAt p (t + 3) → ¬TakenAt p (t + 2) → (places p (t + 4)).2 = 0 ∧
      pipeStageFetch p.imem (trace p t).fPc = seqInstr p (places p (t + 4)).1 := by
    intro h3 h2
    refine ⟨?_, by rw [h.fPc h3 h2 h1]; rfl⟩
    by_contra hne
    exact (takenAt_of_empty hne).elim h3 fun hn => hn.elim h2 h1
  have hitem : TakenAt p (t + 4) → ¬TakenAt p (t + 3) ∧ ¬TakenAt p (t + 2) := fun h4 =>
    ⟨fun hc => hc.not_succ.1 h4, fun hc => hc.not_succ.2.1 h4⟩
  have hreg : (trace p (t + 1)).regFile = (trace p t).regFile.after (trace p t).W := rfl
  have hcc : (trace p (t + 1)).cc = ccReg (trace p t).E (trace p t).control.eBubble
      (trace p t).cc (trace p t).eFwd := rfl
  have hmem : (trace p (t + 1)).dataMem = (trace p t).dataMem.after (trace p t).memWrite := rfl
  refine ⟨fun h4 h3 h2 => ?_, fun h4 => ?_, fun h3 => ?_, fun h3 h2 => ?_, fun h3 => ?_, fun h2 => ?_,
    fun h2 => ?_, fun h2 => ?_,
    ⟨cond (archAt p (t + 2)).cc (wordAt p (t + 2)).ifun, p.net t, ?_, fun _ => rfl⟩, h.mOut hr', ?_, ?_, ?_⟩
  · obtain ⟨h0, hf⟩ := hfetch h3 h2
    have hs := hr.simple _ (lt_of_place (Nat.lt_succ_self (t + 4)) h0)
    have hnot : ¬taken p (places p (t + 4)).1 = true := fun hc => h4 ⟨h0, hc⟩
    rw [hpc, hf, archAt, places_succ_of_item h0, seq_pc_succ hs, if_neg hnot]
  · obtain ⟨h3, h2⟩ := hitem h4
    rw [hpc, (hfetch h3 h2).2]
  · rw [hpc, h.fPc₁ h3]
    rfl
  · obtain ⟨h0, hf⟩ := hfetch h3 h2
    rw [hd, hf, wordAt_of_item h0]
  · rw [hd, h.fPc₁ h3]
    rfl
  · rw [hd, h.fPc₂ h2]
    rfl
  · rw [he, h.dOut hr' h1 h2]
  · refine ⟨(trace p t).regFile, (trace p t).dFwd, ?_⟩
    rw [he, State.dOut, h.d₁ h2]
  · rw [hm, h.eOut hr' h1]
    rfl
  · rw [hreg, h.regFile, h.w, regFile_archAt_succ]
  · rw [hcc, hE, h.ccReg hr' h1, cc_archAt_succ p (t + 2)]
  · rw [hmem, h.memWrite hr', h.dataMem, dataMem_archAt_succ p (t + 1)]

theorem speculationInv_trace {p : Setup} {t : Nat} (hr : SpeculativeRun p (places p (t + 4)).1) :
    SpeculationInv p t := by
  induction t with
  | zero => exact speculationInv_zero p
  | succ t ih =>
      have hr' := hr.mono (place_mono 4 (penalty p) (Nat.le_succ (t + 4)))
      by_cases ht : TakenAt p (t + 1)
      · exact speculationInv_flush (ih hr') hr' ht
      · exact speculationInv_flow (ih hr') hr ht

/-! ## Runs with jumps -/

/-- The address of the instruction at a place. -/
def pcAt (p : Setup) (j : Nat) : Option Word :=
  if (places p j).2 = 0 then some (archAt p j).pc else none

theorem pcAt_of_empty {p : Setup} {j : Nat} (h : (places p j).2 ≠ 0) : pcAt p j = none := if_neg h

/-- The instructions of the right path are where their places say. -/
structure SlotsOnPath (p : Setup) (t : Nat) : Prop where
  d : ¬TakenAt p (t + 2) → ¬TakenAt p (t + 1) → (slotsAt p t).d.map Fetched.pc = pcAt p (t + 3)
  e : ¬TakenAt p (t + 1) → (slotsAt p t).e.map Fetched.pc = pcAt p (t + 2)
  m : (slotsAt p t).m.map Fetched.pc = pcAt p (t + 1)
  w : (slotsAt p t).w.map Fetched.pc = pcAt p t

theorem slotsOnPath_succ {p : Setup} {t : Nat} (h : SpeculationInv p t) (hs : SlotsOnPath p t)
    (hr : SpeculativeRun p (places p (t + 4)).1) : SlotsOnPath p (t + 1) := by
  have hempty : ∀ {j k g}, places p j = (k, g + 1) → none = pcAt p j := fun hj =>
    (pcAt_of_empty (by rw [hj]; exact Nat.succ_ne_zero _)).symm
  by_cases h1 : TakenAt p (t + 1)
  · obtain ⟨hD, hE⟩ := bubble_of_inv h hr (h.mispredicted_iff.mpr h1)
    obtain ⟨-, -, -, hd, he, hm⟩ := step_of_flush hD hE
    obtain ⟨h2, h3, h4, -⟩ := h1.next
    refine ⟨fun _ _ => ?_, fun _ => ?_, ?_, hs.m⟩
    · rw [hd]
      exact hempty h4
    · rw [he]
      exact hempty h3
    · rw [hm]
      exact hempty h2
  · obtain ⟨hD, hE⟩ := bubble_of_inv h hr (eq_false_of_ne_true (mt h.mispredicted_iff.mp h1))
    obtain ⟨-, hd⟩ := step_d_of_free hD (h.control hr).1
    obtain ⟨-, -, he, hm⟩ := step_em_of_free hE
    refine ⟨fun h3 h2 => ?_, fun h2 => ?_, ?_, hs.m⟩
    · have hitem : (places p (t + 4)).2 = 0 := by
        by_contra hne
        exact (takenAt_of_empty hne).elim h3 fun hn => hn.elim h2 h1
      rw [hd, pcAt, if_pos hitem]
      exact congrArg some (h.fPc h3 h2 h1)
    · rw [he]
      exact hs.d h2 h1
    · rw [hm]
      exact hs.e h1

theorem slotsOnPath_trace {p : Setup} {t : Nat} (hr : SpeculativeRun p (places p (t + 4)).1) :
    SlotsOnPath p t := by
  induction t with
  | zero => exact ⟨fun _ _ => rfl, fun _ => rfl, rfl, rfl⟩
  | succ t ih =>
      have hr' := hr.mono (place_mono 4 (penalty p) (Nat.le_succ (t + 4)))
      exact slotsOnPath_succ (speculationInv_trace hr') (ih hr') hr'

section

variable {p : Setup} {t : Nat} (hr : SpeculativeRun p (places p (t + 4)).1)

include hr

theorem speculativeRun_of_lt {i : Nat} (hi : i ≤ t) : SpeculativeRun p (places p (i + 4)).1 :=
  hr.mono (place_mono 4 (penalty p) (Nat.add_le_add_right hi 4))

theorem retired_pc : (retiredAt p t).map Fetched.pc =
    (List.range (places p t).1).map fun k => (seq p k).pc := by
  have hout : (retiredAt p t).map Fetched.pc = emitted (pcAt p) t := by
    have hmap : (retiredAt p t).map Fetched.pc =
        emitted (fun i => (slotsAt p i).w.map Fetched.pc) t := List.map_filterMap
    rw [hmap]
    exact emitted_congr fun i hi => (slotsOnPath_trace (speculativeRun_of_lt hr (Nat.le_of_lt hi))).w
  rw [hout, ← emitted_some]
  exact emitted_place (fun j _ hj => if_pos hj) fun j _ hj => if_neg hj

theorem emitted_memWrite : emitted (fun i => (trace p i).memWrite) t =
    emitted (fun k => (seq p k).memWrite (seqInstr p k)) (places p (t + 1)).1 := by
  have hplaces : emitted (fun j => (archAt p j).memWrite (wordAt p j)) (t + 1) =
      emitted (fun k => (seq p k).memWrite (seqInstr p k)) (places p (t + 1)).1 :=
    emitted_place (fun j _ hj => by rw [wordAt_of_item hj]; rfl)
      fun j _ hj => by rw [wordAt_of_empty hj]; rfl
  have hshift : emitted (fun j => (archAt p j).memWrite (wordAt p j)) (t + 1) =
      emitted (fun i => (trace p i).memWrite) (t + 1 - 1) := ?_
  · rw [← hplaces, hshift, Nat.add_sub_cancel]
  refine emitted_sub (fun j hj _ => ?_) fun i hi => ?_
  · obtain rfl : j = 0 := by omega
    rfl
  · have hinv := speculationInv_trace (speculativeRun_of_lt hr (show i ≤ t by omega))
    rw [Nat.add_comm 1 i]
    exact (hinv.memWrite (speculativeRun_of_lt hr (show i ≤ t by omega))).symm

theorem ccUpdate_trace {i : Nat} (hi : i ≤ t) :
    (trace p i).ccUpdate = (archAt p (i + 2)).ccUpdate (wordAt p (i + 2)) := by
  have hr' := speculativeRun_of_lt hr hi
  have h := speculationInv_trace hr'
  by_cases h1 : TakenAt p (i + 1)
  · obtain ⟨-, hE⟩ := bubble_of_inv h hr' (h.mispredicted_iff.mpr h1)
    have hno : (places p (i + 2)).2 ≠ 0 := by rw [h1.next.1]; exact Nat.succ_ne_zero 2
    have hset : (trace p i).setCc = false := by rw [State.setCc, hE]; exact Bool.and_false _
    rw [State.ccUpdate, hset, wordAt_of_empty hno]
    rfl
  · obtain ⟨-, hE⟩ := bubble_of_inv h hr' (eq_false_of_ne_true (mt h.mispredicted_iff.mp h1))
    rw [State.ccUpdate, SeqState.ccUpdate, State.setCc, h.ccReg hr' h1, hE, h.e_icode h1]
    simp only [Bool.not_false, Bool.and_true, beq_iff_eq]

theorem emitted_ccUpdate : emitted (fun i => (trace p i).ccUpdate) t =
    emitted (fun k => (seq p k).ccUpdate (seqInstr p k)) (places p (t + 2)).1 := by
  have hplaces : emitted (fun j => (archAt p j).ccUpdate (wordAt p j)) (t + 2) =
      emitted (fun k => (seq p k).ccUpdate (seqInstr p k)) (places p (t + 2)).1 :=
    emitted_place (fun j _ hj => by rw [wordAt_of_item hj]; rfl)
      fun j _ hj => by rw [wordAt_of_empty hj]; rfl
  have hshift : emitted (fun j => (archAt p j).ccUpdate (wordAt p j)) (t + 2) =
      emitted (fun i => (trace p i).ccUpdate) (t + 2 - 2) := ?_
  · rw [← hplaces, hshift, Nat.add_sub_cancel]
  refine emitted_sub (fun j hj _ => ?_) fun i hi => ?_
  · obtain rfl | rfl : j = 0 ∨ j = 1 := by omega
    all_goals rfl
  · rw [Nat.add_comm 2 i]
    exact (ccUpdate_trace hr (show i ≤ t by omega)).symm

end

/-- Of the first `n` instructions, the jumps that are taken. -/
def takenJumps (p : Setup) (n : Nat) : Nat := ((List.range n).filter (taken p)).length

theorem sum_penalty (p : Setup) (n : Nat) : ∑ k ∈ Finset.range n, penalty p k = 3 * takenJumps p n := by
  induction n with
  | zero => rfl
  | succ n ih =>
      rw [Finset.sum_range_succ, ih, takenJumps, takenJumps, List.range_succ, List.filter_append,
        List.length_append, penalty]
      by_cases h : taken p n = true
      · rw [if_pos h, List.filter_cons_of_pos h]
        rfl
      · rw [if_neg h, List.filter_cons_of_neg h]
        rfl

/-- On straight-line code with jumps the pipeline is the sequential machine, whatever it has fetched behind
the taken ones. What has retired are the first instructions in order, the register file is the one behind
them, the stores and the settings of the condition codes are those of the instructions that have passed M
and E, and a taken jump costs three clocks. -/
theorem speculation_refines (p : Setup) (t : Nat) (hr : SpeculativeRun p (places p (t + 4)).1) :
    ∃ n, (retiredAt p t).map Fetched.pc = (List.range n).map (fun k => (seq p k).pc) ∧
      (trace p t).regFile = (seq p n).regFile ∧
      emitted (fun i => (trace p i).memWrite) t =
        emitted (fun k => (seq p k).memWrite (seqInstr p k)) (places p (t + 1)).1 ∧
      emitted (fun i => (trace p i).ccUpdate) t =
        emitted (fun k => (seq p k).ccUpdate (seqInstr p k)) (places p (t + 2)).1 ∧
      t ≤ 4 + n + 3 * takenJumps p n ∧ 4 + n + 3 * takenJumps p n ≤ t + 4 := by
  have htotal : t + (places p t).2 = 4 + (places p t).1 + 3 * takenJumps p (places p t).1 := by
    rw [← sum_penalty]
    exact place_total 4 (penalty p) t
  have hle : (places p t).2 ≤ 4 := by
    cases t with
    | zero => exact Nat.le_refl 4
    | succ t => exact Nat.le_succ_of_le (places_snd_le t)
  exact ⟨(places p t).1, retired_pc hr, (speculationInv_trace hr).regFile, emitted_memWrite hr,
    emitted_ccUpdate hr, by omega, by omega⟩

/-- `irmovq $1, %rax`, `irmovq $2, %rcx`, then `subq %rax, %rcx` and a `jne` back to it, then `nop`s. -/
def countdown : Setup := Setup.ofBytes
  [0x30#8, 0xF0#8, 0x01#8, 0#8, 0#8, 0#8, 0#8, 0#8, 0#8, 0#8,
    0x30#8, 0xF1#8, 0x02#8, 0#8, 0#8, 0#8, 0#8, 0#8, 0#8, 0#8,
    0x61#8, 0x01#8, 0x74#8, 0x14#8]

theorem speculativeRun_countdown : SpeculativeRun countdown (places countdown 18).1 := by
  have hn : (places countdown 18).1 = 11 := by decide +kernel
  rw [hn]
  have hload : ∀ i < 10, ¬(seqInstr countdown i).LoadUse (seqInstr countdown (i + 1)) := by decide +kernel
  exact ⟨by decide +kernel, fun i hi => hload i (Nat.lt_of_succ_lt_succ hi), by decide +kernel⟩

/-- The loop is left behind the second `jne`, the first one having been taken. -/
theorem speculation_refines_countdown :
    ∃ n, (retiredAt countdown 14).map Fetched.pc = (List.range n).map (fun k => (seq countdown k).pc) ∧
      (trace countdown 14).regFile = (seq countdown n).regFile ∧
      14 ≤ 4 + n + 3 * takenJumps countdown n := by
  obtain ⟨n, hpc, hreg, -, -, hlo, -⟩ := speculation_refines countdown 14 speculativeRun_countdown
  exact ⟨n, hpc, hreg, hlo⟩

end MyCpu.Y86
