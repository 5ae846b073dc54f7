import MyCpu.Rv32.PipelineInv

/-!
# Which instruction is where in the five-stage pipeline

The pipeline has no valid bits. `slotsAt` follows every word IF delivers through the registers
under the stall and flush signals, so that a register can be told to hold a fetched instruction or
a bubble; `shows_trace` ties this bookkeeping to what the registers contain.
-/

namespace MyCpu.Rv32.Pipe

open Clocked

/-- A word delivered by IF: in which clock, from where, and what. -/
structure Fetched where
  cycle : Nat
  pc : Word
  instr : Word
  deriving DecidableEq

/-- The stall and flush inputs of the pipeline registers. -/
def State.control (s : State) : Control where
  stallD := s.hazard.stallId
  bubbleD := s.hazard.flushIfId
  bubbleE := s.hazard.flushIdEx
  bubbleM := false
  bubbleE_of_stallD := fun h => by
    have : s.hazard.flushIdEx = (s.exOut.branchTaken || s.hazard.stallId) := rfl
    rw [this, h, Bool.or_true]

section

variable (rf : RegFile) (m : Mem)

def fetchedAt (t : Nat) : Fetched :=
  ⟨t, (trace rf m t).PC, dpiInstrMemRead (trace rf m t).pmem (trace rf m t).PC⟩

/-- The instructions in the pipeline registers after `t` clocks. -/
def slotsAt (t : Nat) : Slots Fetched := slots (fun i => (trace rf m i).control) (fetchedAt rf m) t

/-- The instructions that have left MEM/WB in the first `t` clocks. -/
def retiredAt (t : Nat) : List Fetched :=
  retired (fun i => (trace rf m i).control) (fetchedAt rf m) t

theorem slotsAt_succ (t : Nat) : slotsAt rf m (t + 1) =
    (slotsAt rf m t).advance (trace rf m t).control (fetchedAt rf m t) := rfl

theorem retiredAt_succ (t : Nat) :
    retiredAt rf m (t + 1) = retiredAt rf m t ++ (slotsAt rf m t).w.toList :=
  retired_succ _ _ t

theorem retiredAt_length_succ (t : Nat) :
    (retiredAt rf m (t + 1)).length = (slotsAt rf m t).posM (retiredAt rf m t).length :=
  retired_length_succ _ _ t

end

/-! ## Registers and instructions -/

/-- What a register shows of its instruction: a bubble is a `nop` at the reset vector. -/
def shown : Option Fetched → Word × Word
  | none => (resetVector, nop)
  | some x => (x.pc, x.instr)

/-- Every register shows the instruction it is said to hold. -/
structure Shows (s : State) (sl : Slots Fetched) : Prop where
  d : (s.id.pc, s.id.instr) = shown sl.d
  e : (s.ex.pc, s.ex.instr) = shown sl.e
  m : (s.mem.pc, s.mem.instr) = shown sl.m
  w : (s.wb.pc, s.wb.instr) = shown sl.w

/-- The three things a clock can do to the young end of the pipeline, in the registers and in the
slots. -/
theorem advance_front (s : State) (sl : Slots Fetched) (f : Fetched) :
    (s.exOut.branchTaken = false ∧ (step s).PC = s.PC ∧ (step s).id = s.id ∧
        (step s).ex = IdEx.bubble ∧ (sl.advance s.control f).d = sl.d ∧
        (sl.advance s.control f).e = none) ∨
      (s.exOut.branchTaken = true ∧ (step s).PC = s.exOut.pcTarget ∧ (step s).id = IfId.bubble ∧
        (step s).ex = IdEx.bubble ∧ (sl.advance s.control f).d = none ∧
        (sl.advance s.control f).e = none) ∨
      (s.exOut.branchTaken = false ∧ (step s).PC = s.PC + 4#32 ∧
        (step s).id = fetchPipe s.pmem s.PC ∧ (step s).ex = s.idOut ∧
        (sl.advance s.control f).d = some f ∧ (sl.advance s.control f).e = sl.d) := by
  have hf : s.hazard.flushIfId = s.exOut.branchTaken := rfl
  have he : s.hazard.flushIdEx = (s.exOut.branchTaken || s.hazard.stallId) := rfl
  rcases step_front s with ⟨hl, hb, hpc, hid, hex⟩ | ⟨hl, hb, hpc, hid, hex⟩ |
    ⟨hl, hb, hpc, hid, hex⟩
  · exact .inl ⟨hb, hpc, hid, hex, by simp [Slots.advance, State.control, hf, hl, hb],
      by simp [Slots.advance, State.control, he, hl, hb]⟩
  · exact .inr (.inl ⟨hb, hpc, hid, hex, by simp [Slots.advance, State.control, hf, hb],
      by simp [Slots.advance, State.control, he, hl, hb]⟩)
  · exact .inr (.inr ⟨hb, hpc, hid, hex, by simp [Slots.advance, State.control, hf, hl, hb],
      by simp [Slots.advance, State.control, he, hl, hb]⟩)

theorem shows_step {s : State} {sl : Slots Fetched} {f : Fetched} (h : Shows s sl)
    (hpc : f.pc = s.PC) (hinstr : f.instr = dpiInstrMemRead s.pmem s.PC) :
    Shows (step s) (sl.advance s.control f) where
  d := by
    rcases advance_front s sl f with ⟨-, -, hid, -, hd, -⟩ | ⟨-, -, hid, -, hd, -⟩ |
      ⟨-, -, hid, -, hd, -⟩ <;> rw [hid, hd]
    · exact h.d
    · rfl
    · rw [shown, hpc, hinstr, fetchPipe]
  e := by
    rcases advance_front s sl f with ⟨-, -, -, hex, -, he⟩ | ⟨-, -, -, hex, -, he⟩ |
      ⟨-, -, -, hex, -, he⟩ <;> rw [hex, he]
    · rfl
    · rfl
    · exact h.d
  m := h.e
  w := h.m

theorem shows_trace (rf : RegFile) (m : Mem) (t : Nat) :
    Shows (trace rf m t) (slotsAt rf m t) := by
  induction t with
  | zero => exact ⟨rfl, rfl, rfl, rfl⟩
  | succ t ih => exact shows_step ih rfl rfl

end MyCpu.Rv32.Pipe
