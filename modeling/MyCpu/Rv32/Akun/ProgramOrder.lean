import Mathlib.Data.Nat.Find
import MyCpu.Rv32.Akun.PipelineInv

/-!
# Program order in the `akun` pipeline

`nextW` is the address of the next instruction to commit, found by looking from `regW` towards
`regF` past the bubbles; `nextM`, `nextE` and `nextD` start further to the front.

* `Ordered`, `ordered_trace` : as long as `regE` does not jump, addresses behind it follow one
  another;
* `nextW_step`, `nextM_step`, `nextE_step` : behind an instruction comes where `select_pc` went;
* `pathReported_iff` : the port reports that address but for a `jalr` to an odd one, which
  `execute_o_pre_pc` makes even.
-/

namespace MyCpu.Rv32.Akun

open Clocked

/-! ## The address of the next instruction -/

section

variable (s : State)

def nextD : Word := if s.regD.commit then s.regD.pc else s.regF

def nextE : Word := if s.regE.commit then s.regE.pc else nextD s

def nextM : Word := if s.regM.commit then s.regM.pc else nextE s

def nextW : Word := if s.regW.commit then s.regW.pc else nextM s

/-- Where the instruction in `regE` leads. -/
def exNextPc : Word := if s.needJump then s.valE else s.regE.pc + 4#32

structure Ordered : Prop where
  d : s.needJump = false → s.regD.commit = true → s.regF = s.regD.pc + 4#32
  e : s.needJump = false → s.regE.commit = true → nextD s = s.regE.pc + 4#32

end

section

variable {s : State}

/-- A clock without a jump keeps the address behind `regE`. -/
theorem nextE_step_of_not_jump (h : Inv s) (hj : s.needJump = false) : nextE (step s) = nextD s := by
  unfold nextE nextD
  rcases step_front h with ⟨-, hf, hd, he⟩ | ⟨hj', -⟩ | ⟨-, -, -, hd, he⟩
  · rw [hf, hd, he]
    rfl
  · rw [hj] at hj'
    contradiction
  · rw [hd, he]
    rfl

/-- Behind `regE` comes where its instruction leads. -/
theorem nextE_step (h : Inv s) (ho : Ordered s) :
    nextE (step s) = if s.regE.commit then exNextPc s else nextD s := by
  unfold exNextPc
  cases hc : s.regE.commit with
  | false => exact nextE_step_of_not_jump h (not_jump_of_bubble h hc)
  | true =>
      cases hj : s.needJump with
      | false => exact (nextE_step_of_not_jump h hj).trans (ho.e hj hc)
      | true =>
          unfold nextE nextD
          rcases step_front h with ⟨hj', -⟩ | ⟨-, hf, hd, he⟩ | ⟨hj', -⟩
          · rw [hj] at hj'
            contradiction
          · rw [hf, hd, he]
            rfl
          · rw [hj] at hj'
            contradiction

theorem nextM_step (h : Inv s) (ho : Ordered s) : nextM (step s) = nextE s := by
  show (if s.regE.commit then s.regE.pc else nextE (step s)) = _
  rw [nextE_step h ho]
  unfold nextE
  cases s.regE.commit <;> rfl

theorem nextW_step (h : Inv s) (ho : Ordered s) : nextW (step s) = nextM s := by
  show (if s.regM.commit then s.regM.pc else nextM (step s)) = _
  rw [nextM_step h ho]
  unfold nextM
  cases s.regM.commit <;> rfl

theorem ordered_step (h : Inv s) (ho : Ordered s) : Ordered (step s) where
  d := by
    intro _
    rcases step_front h with ⟨hj, hf, hd, -⟩ | ⟨-, -, hd, -⟩ | ⟨-, -, hf, hd, -⟩
    · rw [hf, hd]
      exact ho.d hj
    · rw [hd]
      exact fun hc => absurd hc Bool.false_ne_true
    · rw [hf, hd]
      exact fun _ => rfl
  e := by
    intro _
    unfold nextD
    rcases step_front h with ⟨-, -, -, he⟩ | ⟨-, -, -, he⟩ | ⟨hj, -, -, hd, he⟩
    · rw [he]
      exact fun hc => absurd hc Bool.false_ne_true
    · rw [he]
      exact fun hc => absurd hc Bool.false_ne_true
    · rw [hd, he]
      exact ho.d hj

end

theorem ordered_trace (s₀ : State) (t : Nat) : Ordered (trace s₀ t) := by
  induction t with
  | zero => exact ⟨fun _ h => absurd h Bool.false_ne_true, fun _ h => absurd h Bool.false_ne_true⟩
  | succ t ih => exact ordered_step (inv_trace s₀ t) ih

/-! ## The reported path -/

section

variable {s₀ : State}

/-- Without a commit the next one stays where it is. -/
theorem nextW_of_quiet {t u : Nat} (htu : t < u)
    (hq : ∀ i, t < i → i < u → (trace s₀ i).regW.commit = false) :
    nextW (trace s₀ u) = nextM (trace s₀ t) := by
  induction u, htu using Nat.le_induction with
  | base => exact nextW_step (inv_trace s₀ t) (ordered_trace s₀ t)
  | succ u htu ih =>
      have hu := hq u htu (Nat.lt_succ_self u)
      rw [trace_succ, nextW_step (inv_trace s₀ u) (ordered_trace s₀ u), ← ih]
      · unfold nextW
        rw [hu]
        rfl
      · exact fun i hi hiu => hq i hi (Nat.lt_succ_of_lt hiu)

/-- The commit after the one in clock `t` is at `nextM`. -/
theorem pc_of_next {t u : Nat} (htu : t < u) (hu : (trace s₀ u).regW.commit = true)
    (hq : ∀ i, t < i → i < u → (trace s₀ i).regW.commit = false) :
    (trace s₀ u).regW.pc = nextM (trace s₀ t) := by
  rw [← nextW_of_quiet htu hq]
  unfold nextW
  rw [hu]
  rfl

/-- There is a next commit. -/
theorem exists_next (s₀ : State) (t : Nat) : ∃ u, t < u ∧ (trace s₀ u).regW.commit = true ∧
    ∀ i, t < i → i < u → (trace s₀ i).regW.commit = false := by
  have hex : ∃ u, t < u ∧ (trace s₀ u).regW.commit = true := exists_commit s₀ (t + 1)
  classical
  refine ⟨Nat.find hex, (Nat.find_spec hex).1, (Nat.find_spec hex).2, ?_⟩
  intro i hti hi
  rw [← Bool.not_eq_true]
  exact fun hc => Nat.find_min hex hi ⟨hti, hc⟩

/-- What reaches `regW` has been in `regE` two clocks before. -/
theorem regW_eq (s₀ : State) (t : Nat) : (trace s₀ (t + 2)).regW.commit = (trace s₀ t).regE.commit ∧
    (trace s₀ (t + 2)).regW.prePc = executePrePc (trace s₀ t).regE := ⟨rfl, rfl⟩

theorem nextM_eq {t : Nat} (hc : (trace s₀ t).regE.commit = true) :
    nextM (trace s₀ (t + 2)) = exNextPc (trace s₀ t) := by
  rw [trace_succ, nextM_step (inv_trace s₀ (t + 1)) (ordered_trace s₀ (t + 1)), trace_succ,
    nextE_step (inv_trace s₀ t) (ordered_trace s₀ t), hc, if_pos rfl]

end

theorem executeValE_jalr {s : State} (h : Inv s) (hj : s.regE.isJalr = true) :
    s.valE = s.regE.valA + s.regE.imm := by
  have hc := h.e_control (jump_of_jalr h hj).1
  have hop : opcode s.regE.instr = opJalr := by
    rw [hc] at hj
    exact of_decide_eq_true hj
  have himm : s.regE.imm = imm s.regE.instr := congrArg Control.imm hc
  have hsel : s.regE.aluFuncSel = aluFuncAdd := by
    rw [hc]
    show aluFuncSel s.regE.instr = _
    simp +decide [aluFuncSel, hop]
  unfold State.valE executeValE
  rw [aluValA_eq hc, aluValB_eq hc, hsel, himm]
  simp +decide [hop, alu]

/-- What is reported of an instruction is where it leads, unless it is a `jalr` to an odd address. -/
theorem executePrePc_eq_iff {s : State} (h : Inv s) (hc : s.regE.commit = true) :
    executePrePc s.regE = exNextPc s ↔
      (s.regE.isJalr = true → (s.regE.valA + s.regE.imm).getLsbD 0 = false) := by
  unfold executePrePc exNextPc
  cases hj : s.regE.isJalr with
  | false =>
      refine iff_of_true ?_ (fun h => absurd h Bool.false_ne_true)
      rw [h.e_prePc hc]
      rfl
  | true =>
      rw [(jump_of_jalr h hj).2, if_pos rfl, if_pos rfl, ← executeValE_jalr h hj, eq_comm]
      exact (eq_and_not_one_iff s.valE).trans ⟨fun heven _ => heven, fun heven => heven rfl⟩

/-- The `commit_pre_pc` of every commit is the `commit_pc` of the next one. -/
def PathReported (s₀ : State) : Prop :=
  ∀ t u, t < u → (trace s₀ t).regW.commit = true → (trace s₀ u).regW.commit = true →
    (∀ i, t < i → i < u → (trace s₀ i).regW.commit = false) →
      (trace s₀ t).regW.prePc = (trace s₀ u).regW.pc

/-- A run reports the path it takes exactly when every `jalr` it executes has an even target. -/
theorem pathReported_iff (s₀ : State) : PathReported s₀ ↔
    ∀ t, (trace s₀ t).regE.commit = true → (trace s₀ t).regE.isJalr = true →
      ((trace s₀ t).regE.valA + (trace s₀ t).regE.imm).getLsbD 0 = false := by
  constructor
  · intro h t hc
    obtain ⟨hw, hpre⟩ := regW_eq s₀ t
    obtain ⟨u, htu, hu, hq⟩ := exists_next s₀ (t + 2)
    have heq := h (t + 2) u htu (hw.trans hc) hu hq
    rw [hpre, pc_of_next htu hu hq, nextM_eq hc] at heq
    exact (executePrePc_eq_iff (inv_trace s₀ t) hc).mp heq
  · intro h t u htu ht hu hq
    -- nothing reaches `regW` in the first two clocks
    obtain ⟨t, rfl⟩ : ∃ v, t = v + 2 := by
      rcases t with _ | _ | t
      · exact absurd ht Bool.false_ne_true
      · exact absurd ht Bool.false_ne_true
      · exact ⟨t, rfl⟩
    obtain ⟨hw, hpre⟩ := regW_eq s₀ t
    have hc := hw.symm.trans ht
    rw [hpre, pc_of_next htu hu hq, nextM_eq hc]
    exact (executePrePc_eq_iff (inv_trace s₀ t) hc).mpr (h t hc)

/-- `jalr x0, 1(x2)`. -/
def oddJump : State :=
  { (default : State) with
    regfile := fun _ => 0x80000008#32
    pmem := Mem.ofWords resetVector [0x00110067#32] }

/-- The `jalr` is reported to lead to 0x80000008, and 0x80000009 is executed. -/
theorem not_pathReported_oddJump : ¬PathReported oddJump := by
  intro h
  have hq : ∀ i, 4 < i → i < 7 → (trace oddJump i).regW.commit = false := by
    intro i hi hi'
    obtain rfl | rfl : i = 5 ∨ i = 6 := by omega
    · decide +kernel
    · decide +kernel
  have heq := h 4 7 (by decide) (by decide +kernel) (by decide +kernel) hq
  exact absurd heq (by decide +kernel)

end MyCpu.Rv32.Akun
