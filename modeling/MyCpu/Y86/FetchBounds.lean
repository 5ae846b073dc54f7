import MyCpu.Y86.Pipeline
import MyCpu.Y86.SingleCycleIsa

/-!
# Instruction fetch at the end of memory

Both machines call an address an error when the first byte of the instruction is outside the 1024
bytes of instruction memory, and decode one to ten bytes.

* `DependsAt` : an output depends on one byte of memory;
* `dependsAt_decoded_iff` : the bytes on which what `fetch` decodes depends;
* `fetchInside_iff` : they are inside memory, or the address is reported, exactly when the
  instruction does not run over the end.
-/

namespace MyCpu.Y86

open Isa

/-- With another byte at `i` the output is a different one. -/
def DependsAt {α : Type} (f : IMem → α) (imem : IMem) (i : Word) : Prop :=
  ∃ b, f (Function.update imem i b) ≠ f imem

/-- `icode`, `ifun`, `rA`, `rB` and `valC` of `y86/fetch.v`. -/
def Single.decoded (imem : IMem) (pc : Word) : BitVec 4 × BitVec 4 × BitVec 4 × BitVec 4 × Word :=
  let f := Single.fetch imem pc
  (f.icode, f.ifun, f.rA, f.rB, f.valC)

/-- The same of `pipe_stage_fetch.v`. -/
def decoded (imem : IMem) (pc : Word) : BitVec 4 × BitVec 4 × BitVec 4 × BitVec 4 × Word :=
  let f := pipeStageFetch imem pc
  (f.icode, f.ifun, f.rA, f.rB, f.valC)

theorem decoded_eq (imem : IMem) (pc : Word) : decoded imem pc = Single.decoded imem pc := rfl

/-- Without an address error, `fetch` decodes bytes inside instruction memory only. -/
def Single.FetchInside (imem : IMem) (pc : Word) : Prop :=
  (Single.fetch imem pc).imemError = false →
    ∀ i, DependsAt (fun m => Single.decoded m pc) imem i → i.toNat ≤ 1023

/-- The same for the pipeline, which reports the error in the status. -/
def FetchInside (imem : IMem) (pc : Word) : Prop :=
  (pipeStageFetch imem pc).stat ≠ statAdr →
    ∀ i, DependsAt (fun m => decoded m pc) imem i → i.toNat ≤ 1023

/-! ## The bytes of an instruction -/

namespace Single

variable {m m' : IMem} {pc : Word}

theorem bytesAt_eq_iff (m m' : Word → Byte) (n : Nat) (pc : Word) :
    bytesAt m' pc n = bytesAt m pc n ↔
      ∀ k < n, m' (pc + BitVec.ofNat 64 k) = m (pc + BitVec.ofNat 64 k) := by
  induction n generalizing pc with
  | zero => exact iff_of_true rfl fun k hk => absurd hk (Nat.not_lt_zero k)
  | succ n ih =>
      have hnext : ∀ k, pc + 1#64 + BitVec.ofNat 64 k = pc + BitVec.ofNat 64 (k + 1) := by
        intro k
        rw [BitVec.add_assoc, Nat.add_comm k 1, BitVec.ofNat_add]
      rw [bytesAt, bytesAt, List.cons.injEq, ih]
      constructor
      · rintro ⟨h0, hrest⟩ k hk
        cases k with
        | zero => rwa [BitVec.add_zero]
        | succ k =>
            rw [← hnext]
            exact hrest k (Nat.lt_of_succ_lt_succ hk)
      · intro h
        constructor
        · have h0 := h 0 (Nat.succ_pos n)
          rwa [BitVec.add_zero] at h0
        · intro k hk
          rw [hnext]
          exact h (k + 1) (Nat.succ_lt_succ hk)

theorem rA_of_not_need (h : needRegids (fetch m pc).icode = false) :
    (fetch m pc).rA = noReg ∧ (fetch m pc).rB = noReg := by
  have hic : needRegids ((m pc).extractLsb' 4 4) = false := h
  unfold fetch
  dsimp only
  rw [hic]
  exact ⟨rfl, rfl⟩

theorem valC_of_not_need (h : needValC (fetch m pc).icode = false) : (fetch m pc).valC = 0#64 := by
  have hic : needValC ((m pc).extractLsb' 4 4) = false := h
  unfold fetch
  dsimp only
  rw [hic]
  rfl

/-- What `fetch` decodes is the same just when the bytes of the instruction are. -/
theorem decoded_eq_iff (m m' : IMem) (pc : Word) : decoded m' pc = decoded m pc ↔
    ∀ k < instrLength (fetch m pc).icode, m' (pc + BitVec.ofNat 64 k) = m (pc + BitVec.ofNat 64 k) := by
  rw [← bytesAt_eq_iff]
  constructor
  · intro h
    simp only [decoded, Prod.mk.injEq] at h
    obtain ⟨hic, hif, hrA, hrB, hvalC⟩ := h
    have h' := bytesAt_fetch m' pc
    rw [hic, hif, hrA, hrB, hvalC] at h'
    rw [h', bytesAt_fetch]
  · intro h
    obtain ⟨hic, hif, hreg, hvalC⟩ := fetch_of_bytes _ _ _ _ _ (h.trans (bytesAt_fetch m pc))
    have hrAB : (fetch m' pc).rA = (fetch m pc).rA ∧ (fetch m' pc).rB = (fetch m pc).rB := by
      cases hneed : needRegids (fetch m pc).icode with
      | true => exact hreg hneed
      | false =>
          have h1 := rA_of_not_need hneed
          have h2 := rA_of_not_need (m := m') (hic ▸ hneed)
          exact ⟨h2.1.trans h1.1.symm, h2.2.trans h1.2.symm⟩
    have hC : (fetch m' pc).valC = (fetch m pc).valC := by
      cases hneed : needValC (fetch m pc).icode with
      | true => exact hvalC hneed
      | false => exact (valC_of_not_need (hic ▸ hneed)).trans (valC_of_not_need hneed).symm
    unfold decoded
    dsimp only
    rw [hic, hif, hrAB.1, hrAB.2, hC]

/-- The bytes on which what `fetch` decodes depends are those it counts for the instruction. -/
theorem dependsAt_decoded_iff (imem : IMem) (pc i : Word) :
    DependsAt (fun m => decoded m pc) imem i ↔
      ∃ k < instrLength (fetch imem pc).icode, i = pc + BitVec.ofNat 64 k := by
  constructor
  · rintro ⟨b, hb⟩
    by_contra hout
    refine hb ((decoded_eq_iff imem _ pc).mpr fun k hk => ?_)
    exact Function.update_of_ne (fun h => hout ⟨k, hk, h.symm⟩) b imem
  · rintro ⟨k, hk, rfl⟩
    refine ⟨~~~imem (pc + BitVec.ofNat 64 k), fun h => ?_⟩
    have hsame := (decoded_eq_iff imem _ pc).mp h k hk
    rw [Function.update_self] at hsame
    generalize imem (pc + BitVec.ofNat 64 k) = byte at hsame
    revert byte
    decide

theorem instrLength_le (icode : BitVec 4) : 0 < instrLength icode ∧ instrLength icode ≤ 10 := by
  revert icode
  decide

/-- All of them are inside memory when the last one is. -/
theorem inside_iff (imem : IMem) (pc : Word) :
    (pc.toNat ≤ 1023 → ∀ i, DependsAt (fun m => decoded m pc) imem i → i.toNat ≤ 1023) ↔
      1023 < pc.toNat ∨ pc.toNat + instrLength (fetch imem pc).icode ≤ 1024 := by
  obtain ⟨hpos, hlen⟩ := instrLength_le (fetch imem pc).icode
  have hnat : pc.toNat ≤ 1023 → ∀ k ≤ 10, (pc + BitVec.ofNat 64 k).toNat = pc.toNat + k := by
    intro hpc k hk
    rw [BitVec.toNat_add, BitVec.toNat_ofNat]
    omega
  constructor
  · intro h
    by_contra hover
    have hpc : pc.toNat ≤ 1023 := by omega
    have hlast := h hpc _ ((dependsAt_decoded_iff imem pc _).mpr
      ⟨instrLength (fetch imem pc).icode - 1, Nat.sub_lt hpos Nat.one_pos, rfl⟩)
    rw [hnat hpc _ (by omega)] at hlast
    omega
  · intro h hpc i hi
    obtain ⟨k, hk, rfl⟩ := (dependsAt_decoded_iff imem pc i).mp hi
    rw [hnat hpc k (by omega)]
    omega

end Single

/-! ## Both machines -/

theorem stat_ne_adr_iff (imem : IMem) (pc : Word) :
    (pipeStageFetch imem pc).stat ≠ statAdr ↔ pc.toNat ≤ 1023 := by
  unfold pipeStageFetch
  dsimp only
  split_ifs with hpc hvalid
  · exact iff_of_false (fun h => h rfl) (Nat.not_le.mpr hpc)
  · exact iff_of_true (by decide) (Nat.not_lt.mp hpc)
  · exact iff_of_true (by decide) (Nat.not_lt.mp hpc)

/-- Bytes outside instruction memory are used without an error exactly by the instructions that
start inside it and run over its end. -/
theorem fetchInside_iff (imem : IMem) (pc : Word) :
    (Single.FetchInside imem pc ↔
        1023 < pc.toNat ∨ pc.toNat + Single.instrLength ((imem pc).extractLsb' 4 4) ≤ 1024) ∧
      (FetchInside imem pc ↔
        1023 < pc.toNat ∨ pc.toNat + Single.instrLength ((imem pc).extractLsb' 4 4) ≤ 1024) := by
  constructor
  · refine Iff.trans ?_ (Single.inside_iff imem pc)
    unfold Single.FetchInside
    have herr : (Single.fetch imem pc).imemError = false ↔ pc.toNat ≤ 1023 := by
      exact decide_eq_false_iff_not.trans Nat.not_lt
    rw [herr]
  · refine Iff.trans ?_ (Single.inside_iff imem pc)
    unfold FetchInside
    simp only [stat_ne_adr_iff, decoded_eq]

/-- `irmovq` in the last byte of memory. -/
def irmovAtEnd : IMem := fun a => if a = 1023#64 then 0x30#8 else 0x00#8

/-- It takes its register and its constant from behind the end. -/
theorem not_fetchInside_irmovAtEnd :
    ¬Single.FetchInside irmovAtEnd 1023#64 ∧ ¬FetchInside irmovAtEnd 1023#64 := by
  have hdep : DependsAt (fun m => Single.decoded m 1023#64) irmovAtEnd 1024#64 :=
    ⟨0xFF#8, by decide +kernel⟩
  constructor
  · intro h
    exact absurd (h (by decide) _ hdep) (by decide)
  · intro h
    exact absurd (h (by decide) _ hdep) (by decide)

end MyCpu.Y86
