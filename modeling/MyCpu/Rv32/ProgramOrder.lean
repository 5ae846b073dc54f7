import MyCpu.Rv32.PipelineSlots

/-!
# Program order in the pipeline

Instructions pass through the pipeline one behind the other, with bubbles in between. `nextW` is
the address of the next instruction to retire, found by looking from MEM/WB towards IF past the
bubbles; `nextM`, `nextE` and `nextD` start further to the front.

* `ordered_trace` : the `next_pc` an instruction carries is the address of the one behind it;
* `commits_pcs` : over every run the retired instructions follow each other from the reset vector.
-/

namespace MyCpu.Rv32.Pipe

open Clocked

/-! ## Bubbles -/

section

variable {s : State} {sl : Slots Fetched} (h : Inv s) (hs : Shows s sl)

include h hs

theorem ex_of_bubble (he : sl.e = none) : s.ex.toFields = IdEx.bubble.toFields := by
  have hinstr : s.ex.instr = nop := congrArg Prod.snd (hs.e.trans (congrArg shown he))
  rw [h.ex_fields, hinstr, fieldsOf_nop]

theorem not_branchTaken_of_bubble (he : sl.e = none) : s.exOut.branchTaken = false := by
  have hop : s.ex.opcode = opAlui := congrArg Fields.opcode (ex_of_bubble h hs he)
  simp +decide [State.exOut, executePipe, hop]

theorem not_stall_of_bubble (he : sl.e = none) : s.hazard.stallId = false := by
  have hop : s.ex.opcode = opAlui := congrArg Fields.opcode (ex_of_bubble h hs he)
  simp +decide [State.hazard, hazardUnit, loadUse, hop]

theorem mem_of_bubble (hm : sl.m = none) : s.mem.opcode = opAlui ∧ s.mem.rd = 0#5 := by
  have hinstr : s.mem.instr = nop := congrArg Prod.snd (hs.m.trans (congrArg shown hm))
  rw [h.mem_opcode, h.mem_rd, hinstr, fieldsOf_nop]
  exact ⟨rfl, rfl⟩

theorem wb_of_bubble (hw : sl.w = none) : s.wb.rd = 0#5 := by
  have hinstr : s.wb.instr = nop := congrArg Prod.snd (hs.w.trans (congrArg shown hw))
  rw [h.wb_rd, hinstr, fieldsOf_nop]
  rfl

theorem memWrite_of_bubble (hm : sl.m = none) : s.memWrite = none := by
  have hop := (mem_of_bubble h hs hm).1
  simp +decide [State.memWrite, memoryWritePipe, storeCall, hop]

end

/-- Only an instruction in EX stalls or flushes. -/
theorem control_of_bubble (rf : RegFile) (m : Mem) (t : Nat) (he : (slotsAt rf m t).e = none) :
    (trace rf m t).control.stallD = false ∧ (trace rf m t).control.bubbleD = false ∧
      (trace rf m t).control.bubbleE = false := by
  have hb := not_branchTaken_of_bubble (inv_trace rf m t) (shows_trace rf m t) he
  have hl := not_stall_of_bubble (inv_trace rf m t) (shows_trace rf m t) he
  have hf : (trace rf m t).hazard.flushIdEx =
      ((trace rf m t).exOut.branchTaken || (trace rf m t).hazard.stallId) := rfl
  rw [hb, hl] at hf
  exact ⟨hl, hb, hf⟩

/-- Every run keeps retiring. -/
theorem exists_retiredAt (rf : RegFile) (m : Mem) (t : Nat) :
    ∃ u, t ≤ u ∧ (slotsAt rf m u).w ≠ none :=
  exists_retire (fun _ => rfl) (control_of_bubble rf m) t

theorem exists_retiredAt_length (rf : RegFile) (m : Mem) (k : Nat) :
    ∃ t, (retiredAt rf m t).length = k :=
  exists_retired_length (fun _ => rfl) (control_of_bubble rf m) k

/-! ## The address of the next instruction -/

section

variable (s : State) (sl : Slots Fetched)

def nextD : Word := sl.d.elim s.PC fun _ => s.id.pc

def nextE : Word := sl.e.elim (nextD s sl) fun _ => s.ex.pc

def nextM : Word := sl.m.elim (nextE s sl) fun _ => s.mem.pc

def nextW : Word := sl.w.elim (nextM s sl) fun _ => s.wb.pc

/-- Each instruction knows the address of the one behind it, EX and ID provided EX does not
redirect. -/
structure Ordered : Prop where
  d : s.exOut.branchTaken = false → sl.d ≠ none → s.PC = s.id.pc + 4#32
  e : s.exOut.branchTaken = false → sl.e ≠ none → nextD s sl = s.ex.pc + 4#32
  m : sl.m ≠ none → s.mem.nextPc = nextE s sl
  w : sl.w ≠ none → s.wb.nextPc = nextM s sl

end

section

variable {s : State} {sl : Slots Fetched} {f : Fetched}

theorem exNextPc_of_not_taken (h : Inv s) (ht : s.exOut.branchTaken = false) :
    s.exNextPc = s.ex.pc + 4#32 := by
  rw [State.exNextPc, ht, ← h.ex_pcPlus4]
  rfl

theorem exNextPc_of_taken (ht : s.exOut.branchTaken = true) :
    s.exNextPc = s.exOut.pcTarget := by
  rw [State.exNextPc, ht, if_pos rfl]

/-- A clock in which EX does not redirect keeps the address behind it. -/
theorem nextE_step_of_not_taken (ht : s.exOut.branchTaken = false) :
    nextE (step s) (sl.advance s.control f) = nextD s sl := by
  rcases advance_front s sl f with ⟨-, hpc, hid, -, hd, he⟩ | ⟨ht', -⟩ | ⟨-, -, hid, hex, hd, he⟩
  · rw [nextE, nextD, he, hd, hpc, hid]
    rfl
  · rw [ht] at ht'
    contradiction
  · rw [nextE, nextD, he, hd, hid, hex]
    rfl

/-- Behind EX comes what EX computes. -/
theorem nextE_step (h : Inv s) (hs : Shows s sl) (ho : Ordered s sl) :
    nextE (step s) (sl.advance s.control f) = sl.e.elim (nextD s sl) fun _ => s.exNextPc := by
  cases he : sl.e with
  | none => exact nextE_step_of_not_taken (not_branchTaken_of_bubble h hs he)
  | some x =>
      cases ht : s.exOut.branchTaken with
      | false =>
          rw [nextE_step_of_not_taken ht, ho.e ht (by simp [he]), Option.elim_some,
            exNextPc_of_not_taken h ht]
      | true =>
          rcases advance_front s sl f with ⟨ht', -⟩ | ⟨-, hpc, -, -, hd, he'⟩ | ⟨ht', -⟩
          · rw [ht] at ht'
            contradiction
          · rw [nextE, nextD, he', hd, Option.elim_none, Option.elim_none, hpc, Option.elim_some,
              exNextPc_of_taken ht]
          · rw [ht] at ht'
            contradiction

theorem nextM_step (h : Inv s) (hs : Shows s sl) (ho : Ordered s sl) :
    nextM (step s) (sl.advance s.control f) = nextE s sl := by
  have hm : (sl.advance s.control f).m = sl.e := rfl
  rw [nextM, nextE_step h hs ho, hm, nextE]
  cases sl.e <;> rfl

theorem nextW_step (h : Inv s) (hs : Shows s sl) (ho : Ordered s sl) :
    nextW (step s) (sl.advance s.control f) = nextM s sl := by
  have hw : (sl.advance s.control f).w = sl.m := rfl
  rw [nextW, nextM_step h hs ho, hw, nextM]
  cases sl.m <;> rfl

theorem ordered_step (h : Inv s) (hs : Shows s sl) (ho : Ordered s sl) :
    Ordered (step s) (sl.advance s.control f) where
  d := by
    intro _ hd'
    rcases advance_front s sl f with ⟨ht, hpc, hid, -, hd, -⟩ | ⟨-, -, -, -, hd, -⟩ |
      ⟨-, hpc, hid, -, -, -⟩
    · rw [hpc, hid]
      exact ho.d ht (hd ▸ hd')
    · exact absurd hd hd'
    · rw [hpc, hid]
      rfl
  e := by
    intro _ he'
    rcases advance_front s sl f with ⟨-, -, -, -, -, he⟩ | ⟨-, -, -, -, -, he⟩ |
      ⟨ht, -, hid, hex, hd, he⟩
    · exact absurd he he'
    · exact absurd he he'
    · rw [nextD, hd, hid, hex]
      exact ho.d ht (he ▸ he')
  m := by
    intro he
    obtain ⟨x, hx⟩ := Option.ne_none_iff_exists'.mp (show sl.e ≠ none from he)
    rw [nextE_step h hs ho, hx]
    rfl
  w := by
    intro hm
    rw [nextM_step h hs ho]
    exact ho.m hm

end

/-! ## Runs -/

section

variable (rf : RegFile) (m : Mem)

theorem ordered_trace (t : Nat) : Ordered (trace rf m t) (slotsAt rf m t) := by
  induction t with
  | zero =>
      exact ⟨fun _ h => absurd rfl h, fun _ h => absurd rfl h, fun h => absurd rfl h,
        fun h => absurd rfl h⟩
  | succ t ih => exact ordered_step (inv_trace rf m t) (shows_trace rf m t) ih

/-- The address of the next instruction to retire after `t` clocks. -/
def nextPcAt (t : Nat) : Word := nextW (trace rf m t) (slotsAt rf m t)

/-- What the pipeline shows of the instructions that have left MEM/WB in the first `t` clocks. -/
def commits (t : Nat) : List Commit :=
  emitted (fun i => (slotsAt rf m i).w.map fun _ => (trace rf m i).commit) t

theorem commits_succ (t : Nat) : commits rf m (t + 1) = commits rf m t ++
    ((slotsAt rf m t).w.map fun _ => (trace rf m t).commit).toList :=
  emitted_succ _ t

/-- The retired instructions are at the reset vector and then each where the one before it leads. -/
theorem commits_pcs (t : Nat) : (commits rf m t).map Commit.pc ++ [nextPcAt rf m t] =
    resetVector :: (commits rf m t).map Commit.nextPc := by
  induction t with
  | zero => rfl
  | succ t ih =>
      have ho := ordered_trace rf m t
      have hnext : nextPcAt rf m (t + 1) = nextM (trace rf m t) (slotsAt rf m t) :=
        nextW_step (inv_trace rf m t) (shows_trace rf m t) ho
      rw [commits_succ, hnext]
      cases hw : (slotsAt rf m t).w with
      | none =>
          have : nextPcAt rf m t = nextM (trace rf m t) (slotsAt rf m t) := by
            rw [nextPcAt, nextW, hw, Option.elim_none]
          rw [this] at ih
          simpa using ih
      | some x =>
          have hpc : nextPcAt rf m t = (trace rf m t).commit.pc := by
            rw [nextPcAt, nextW, hw, Option.elim_some]
            rfl
          have hnx : (trace rf m t).commit.nextPc = nextM (trace rf m t) (slotsAt rf m t) :=
            ho.w (by simp [hw])
          rw [hpc] at ih
          simp only [Option.map_some, Option.toList_some, List.map_append, List.map_singleton, ih,
            hnx, List.cons_append]

end

end MyCpu.Rv32.Pipe
