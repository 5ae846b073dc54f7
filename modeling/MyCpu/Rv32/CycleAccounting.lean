import MyCpu.Clocked.Accounting
import MyCpu.Rv32.ProgramOrder

/-!
# What the pipeline's clocks are spent on

A load-use stall costs one clock and a taken branch or jump two, and no other clock is lost.

* `paced_trace` : stalls and flushes of the pipeline;
* `stallCnt_eq` : `stall_cnt` counts the stalls;
* `cycleAccounting` : the instructions retired, from the clocks, the stalls and the redirects.
-/

namespace MyCpu.Rv32.Pipe

open Clocked

section

variable (rf : RegFile) (m : Mem)

/-- The redirects in the first `t` clocks. -/
def takenCount (t : Nat) : Nat := Nat.count (fun i => (trace rf m i).exOut.branchTaken = true) t

/-- Where the clocks go. What counts as an instruction in MEM/WB is what its register holds: a bubble
where there is none. -/
structure CycleAccounting : Prop where
  shows : ∀ t, Shows (trace rf m t) (slotsAt rf m t)
  leaves : ∀ t, retiredAt rf m (t + 1) = retiredAt rf m t ++ (slotsAt rf m t).w.toList
  retired : ∀ t, 1 ≤ t → t < 2 ^ 64 → ((retiredAt rf m (t + 3)).length : Int) =
    t - 1 - (trace rf m t).stallCnt.toNat - takenCount rf m t - takenCount rf m (t - 1)
  nodup : ∀ t, (retiredAt rf m t).Nodup
  apart : ∀ t, ¬((trace rf m t).hazard.stallIf = true ∧ (trace rf m t).exOut.branchTaken = true)
  idle : ∀ t, (trace rf m t).hazard.stallIf = true ∨ (trace rf m t).exOut.branchTaken = true →
    (trace rf m (t + 1)).hazard.stallIf = false ∧ (trace rf m (t + 1)).exOut.branchTaken = false

/-! ## Stalls and redirects -/

/-- A bubble in ID reads no register that a load writes. -/
theorem not_stall_of_bubble_id {s : State} {sl : Slots Fetched} (hs : Shows s sl) (hd : sl.d = none) :
    s.hazard.stallId = false := by
  have hinstr : s.id.instr = nop := congrArg Prod.snd (hs.d.trans (congrArg shown hd))
  show loadUse s.ex.opcode s.ex.rd (fieldsOf s.id.instr).rs1 (fieldsOf s.id.instr).rs2 = false
  rw [hinstr, fieldsOf_nop]
  simp only [loadUse, decide_eq_false_iff_not]
  rintro ⟨-, hrd, h | h⟩ <;> exact hrd h

theorem paced_trace : Paced (fun i => (trace rf m i).control) (fetchedAt rf m) where
  bubbleM := fun _ => rfl
  bubbleE := fun _ => rfl
  idle := fun t he => ⟨(control_of_bubble rf m t he).1, (control_of_bubble rf m t he).2.1⟩
  apart := fun _ h => not_stall_of_branchTaken h
  held := fun t hs hd =>
    Bool.false_ne_true ((not_stall_of_bubble_id (shows_trace rf m t) hd).symm.trans hs)

/-- `stall_cnt` counts the stalls. -/
theorem stallCnt_eq (t : Nat) : (trace rf m t).stallCnt =
    BitVec.ofNat 64 (Nat.count (fun i => (trace rf m i).hazard.stallIf = true) t) := by
  induction t with
  | zero => rfl
  | succ t ih =>
      have hstep : (trace rf m (t + 1)).stallCnt = if (trace rf m t).hazard.stallIf
          then (trace rf m t).stallCnt + 1#64 else (trace rf m t).stallCnt := rfl
      rw [hstep, Nat.count_succ, ih]
      cases (trace rf m t).hazard.stallIf
      · rfl
      · exact (BitVec.ofNat_add _ 1).symm

/-- In every run each stall costs one clock and each redirect two, and no other clock is lost. -/
theorem cycleAccounting : CycleAccounting rf m where
  shows := shows_trace rf m
  leaves := retiredAt_succ rf m
  retired := by
    intro t ht hlt
    obtain ⟨t, rfl⟩ := Nat.exists_eq_add_of_le' ht
    have hcount : (retiredAt rf m (t + 4)).length +
        Nat.count (fun i => (trace rf m i).hazard.stallIf = true) (t + 1) +
          takenCount rf m (t + 1) + takenCount rf m t = t :=
      (paced_trace rf m).retired_length_add_count t
    have hle : Nat.count (fun i => (trace rf m i).hazard.stallIf = true) (t + 1) ≤ t + 1 :=
      Nat.count_le _
    show ((retiredAt rf m (t + 4)).length : Int) = _
    rw [stallCnt_eq, BitVec.toNat_ofNat, Nat.mod_eq_of_lt (Nat.lt_of_le_of_lt hle hlt),
      Nat.add_sub_cancel]
    omega
  nodup := by
    intro t
    have hnodup : ((List.range t).map (fetchedAt rf m)).Nodup :=
      List.Nodup.map (fun i j h => congrArg Fetched.cycle h) List.nodup_range
    exact ((List.sublist_append_left _ _).trans (retired_append_inFlight_sublist _ _ t)).nodup hnodup
  apart := by
    rintro t ⟨hs, hb⟩
    exact Bool.false_ne_true ((not_stall_of_branchTaken hb).symm.trans hs)
  idle := by
    intro t h
    exact (paced_trace rf m).idle_succ h

end

/-- `lw a0, 0(x0)`, `addi a1, a0, 1`, a jump over `addi a2, x0, 1`, `addi a3, x0, 2`, and a jump to
itself. -/
def stallAndJump : Mem := Mem.ofWords resetVector
  [0x00002503#32, 0x00150593#32, 0x0080006F#32, 0x00100613#32, 0x00200693#32, 0x0000006F#32]

/-- One stall and two jumps in 12 clocks: 6 instructions have left MEM/WB 3 clocks later. -/
theorem cycleAccounting_stallAndJump :
    (trace (fun _ => 0#32) stallAndJump 12).stallCnt = 1#64 ∧
      takenCount (fun _ => 0#32) stallAndJump 12 = 2 ∧
      (retiredAt (fun _ => 0#32) stallAndJump 15).length = 6 := by
  have hstall : (trace (fun _ => 0#32) stallAndJump 12).stallCnt = 1#64 := by decide +kernel
  have htaken : takenCount (fun _ => 0#32) stallAndJump 12 = 2 := by decide +kernel
  have htaken' : takenCount (fun _ => 0#32) stallAndJump 11 = 2 := by decide +kernel
  have hretired := (cycleAccounting (fun _ => 0#32) stallAndJump).retired 12 (by decide) (by decide)
  rw [hstall, htaken, htaken'] at hretired
  have hlen : ((retiredAt (fun _ => 0#32) stallAndJump 15).length : Int) = 6 := by simpa using hretired
  exact ⟨hstall, htaken, Int.ofNat_inj.mp hlen⟩

end MyCpu.Rv32.Pipe
