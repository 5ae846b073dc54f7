import MyCpu.Y86.Pipeline

/-!
# Which instruction is where in the pipelined Y86

As in the RV32I pipeline there are no valid bits. `slotsAt` follows what F delivers under the
stall and bubble signals; `E_bubble` clears the D/E and the E/M register alike.

* `bubble_trace`, `shows_trace` : what the registers contain of a bubble and of an instruction;
* `Writes` : an instruction changes condition codes, data memory or registers in a clock;
* `exists_writes` : nothing else changes them.
-/

namespace MyCpu.Y86

open Clocked

/-- What F delivers: in which clock and from where. -/
structure Fetched where
  cycle : Nat
  pc : Word
  deriving DecidableEq

/-- The stall and bubble inputs of the pipeline registers. -/
def State.slotControl (s : State) : Control where
  stallD := s.control.dStall
  bubbleD := s.control.dBubble
  bubbleE := s.control.eBubble
  bubbleM := s.control.eBubble
  bubbleE_of_stallD := fun h => by
    have : s.control.eBubble = (mispredicted s.M.icode s.M.cnd || s.control.dStall) := rfl
    rw [this, h, Bool.or_true]

section

variable (p : Setup)

def fetchedAt (t : Nat) : Fetched := ⟨t, (trace p t).fPc⟩

/-- The instructions in the pipeline registers after `t` clocks. -/
def slotsAt (t : Nat) : Slots Fetched := slots (fun i => (trace p i).slotControl) (fetchedAt p) t

/-- The instructions that have left W in the first `t` clocks. -/
def retiredAt (t : Nat) : List Fetched :=
  retired (fun i => (trace p i).slotControl) (fetchedAt p) t

theorem slotsAt_succ (t : Nat) :
    slotsAt p (t + 1) = (slotsAt p t).advance (trace p t).slotControl (fetchedAt p t) := rfl

theorem retiredAt_succ (t : Nat) : retiredAt p (t + 1) = retiredAt p t ++ (slotsAt p t).w.toList :=
  retired_succ _ _ t

theorem cycle_fetchedAt (t : Nat) : (fetchedAt p t).cycle = t := rfl

end

/-! ## Control signals -/

theorem eBubble_eq (s : State) : s.control.eBubble =
    (mispredicted s.M.icode s.M.cnd || s.control.dStall) := rfl

theorem dBubble_eq (s : State) : s.control.dBubble = (mispredicted s.M.icode s.M.cnd ||
    (!s.control.dStall && retHazard s.D.icode s.E.icode s.M.icode)) := rfl

theorem fStall_eq (s : State) : s.control.fStall =
    (s.control.dStall || retHazard s.D.icode s.E.icode s.M.icode) := rfl

/-! ## Registers and instructions -/

/-- A register that holds no instruction holds a bubble. One that has passed E shows whatever `Cnd`
and the undriven net were. -/
structure Bubbles (s : State) (sl : Slots Fetched) : Prop where
  d : sl.d = none → s.D = FD.bubble
  e : sl.e = none → s.E = DE.bubble
  m : sl.m = none → s.M.icode = icNop ∧ s.M.stat = statAok ∧ s.M.dstE = noReg ∧ s.M.dstM = noReg
  w : sl.w = none → s.W.icode = icNop ∧ s.W.dstE = noReg ∧ s.W.dstM = noReg

/-- A register that holds an instruction holds its code, and D all of it. -/
structure Shows (imem : IMem) (s : State) (sl : Slots Fetched) : Prop where
  d : ∀ x, sl.d = some x → s.D = pipeStageFetch imem x.pc
  e : ∀ x, sl.e = some x → s.E.icode = (pipeStageFetch imem x.pc).icode
  m : ∀ x, sl.m = some x → s.M.icode = (pipeStageFetch imem x.pc).icode
  w : ∀ x, sl.w = some x → s.W.icode = (pipeStageFetch imem x.pc).icode

section

variable {imem : IMem} {net : Word} {s : State} {sl : Slots Fetched} {f : Fetched}

/-- What a clock does to D, in the register and in the slot. -/
theorem step_d (imem : IMem) (net : Word) (s : State) (sl : Slots Fetched) (f : Fetched) :
    (s.control.dBubble = true ∧ (step imem net s).D = FD.bubble ∧
        (sl.advance s.slotControl f).d = none) ∨
      (s.control.dBubble = false ∧ s.control.dStall = true ∧ (step imem net s).D = s.D ∧
        (sl.advance s.slotControl f).d = sl.d) ∨
      (s.control.dBubble = false ∧ s.control.dStall = false ∧
        (step imem net s).D = pipeStageFetch imem s.fPc ∧
        (sl.advance s.slotControl f).d = some f) := by
  cases hb : s.control.dBubble
  · cases hl : s.control.dStall
    · exact .inr (.inr ⟨rfl, rfl, by simp [posedge, pipeRegFd, hb, hl],
        by simp [Slots.advance, State.slotControl, hb, hl]⟩)
    · exact .inr (.inl ⟨rfl, rfl, by simp [posedge, pipeRegFd, hb, hl],
        by simp [Slots.advance, State.slotControl, hb, hl]⟩)
  · exact .inl ⟨rfl, by simp [posedge, pipeRegFd, hb],
      by simp [Slots.advance, State.slotControl, hb]⟩

/-- What a clock does to E and M, in the registers and in the slots. -/
theorem step_em (imem : IMem) (net : Word) (s : State) (sl : Slots Fetched) (f : Fetched) :
    (s.control.eBubble = true ∧ (step imem net s).E = DE.bubble ∧
        (step imem net s).M = EM.bubble ∧ (sl.advance s.slotControl f).e = none ∧
        (sl.advance s.slotControl f).m = none) ∨
      (s.control.eBubble = false ∧ (step imem net s).E = s.dOut ∧
        (step imem net s).M = emInput s.eOut net ∧ (sl.advance s.slotControl f).e = sl.d ∧
        (sl.advance s.slotControl f).m = sl.e) := by
  cases hb : s.control.eBubble
  · exact .inr ⟨rfl, by simp [posedge, pipeRegDe, hb], by simp [posedge, pipeRegEm, hb],
      by simp [Slots.advance, State.slotControl, hb], by simp [Slots.advance, State.slotControl, hb]⟩
  · exact .inl ⟨rfl, by simp [posedge, pipeRegDe, hb], by simp [posedge, pipeRegEm, hb],
      by simp [Slots.advance, State.slotControl, hb], by simp [Slots.advance, State.slotControl, hb]⟩

theorem dOut_bubble (h : s.D = FD.bubble) : s.dOut = DE.bubble := by
  rw [State.dOut, h]
  rfl

theorem bubbles_step (h : Bubbles s sl) : Bubbles (step imem net s) (sl.advance s.slotControl f) where
  d := by
    intro hd
    rcases step_d imem net s sl f with ⟨-, hD, -⟩ | ⟨-, -, hD, hd'⟩ | ⟨-, -, -, hd'⟩
    · exact hD
    · rw [hD]
      exact h.d (hd' ▸ hd)
    · rw [hd'] at hd
      contradiction
  e := by
    intro he
    rcases step_em imem net s sl f with ⟨-, hE, -⟩ | ⟨-, hE, -, he', -⟩
    · exact hE
    · rw [hE]
      exact dOut_bubble (h.d (he' ▸ he))
  m := by
    intro hm
    rcases step_em imem net s sl f with ⟨-, -, hM, -⟩ | ⟨-, -, hM, -, hm'⟩
    · rw [hM]
      exact ⟨rfl, rfl, rfl, rfl⟩
    · rw [hM, State.eOut, h.e (hm' ▸ hm)]
      exact ⟨rfl, rfl, rfl, rfl⟩
  w := by
    intro hw
    obtain ⟨h1, -, h3, h4⟩ := h.m hw
    exact ⟨h1, h3, h4⟩

theorem shows_step (h : Shows imem s sl) (hf : f.pc = s.fPc) :
    Shows imem (step imem net s) (sl.advance s.slotControl f) where
  d := by
    intro x hx
    rcases step_d imem net s sl f with ⟨-, -, hd⟩ | ⟨-, -, hD, hd⟩ | ⟨-, -, hD, hd⟩
    · rw [hd] at hx
      contradiction
    · rw [hD]
      exact h.d x (hd ▸ hx)
    · rw [hd, Option.some.injEq] at hx
      rw [hD, ← hx, hf]
  e := by
    intro x hx
    rcases step_em imem net s sl f with ⟨-, -, -, he, -⟩ | ⟨-, hE, -, he, -⟩
    · rw [he] at hx
      contradiction
    · rw [hE]
      exact congrArg FD.icode (h.d x (he ▸ hx))
  m := by
    intro x hx
    rcases step_em imem net s sl f with ⟨-, -, -, -, hm⟩ | ⟨-, -, hM, -, hm⟩
    · rw [hm] at hx
      contradiction
    · rw [hM]
      exact h.e x (hm ▸ hx)
  w := h.m

end

section

variable (p : Setup)

theorem bubbles_trace (t : Nat) : Bubbles (trace p t) (slotsAt p t) := by
  induction t with
  | zero => exact ⟨fun _ => rfl, fun _ => rfl, fun _ => ⟨rfl, rfl, rfl, rfl⟩, fun _ => ⟨rfl, rfl, rfl⟩⟩
  | succ t ih => exact bubbles_step ih

theorem shows_trace (t : Nat) : Shows p.imem (trace p t) (slotsAt p t) := by
  induction t with
  | zero => constructor <;> intro x hx <;> contradiction
  | succ t ih => exact shows_step ih rfl

variable {p} {t : Nat} {x : Fetched}

/-- D takes the word F delivers unless it is stalled or cleared. -/
theorem step_d_of_free (hb : (trace p t).control.dBubble = false)
    (hl : (trace p t).control.dStall = false) :
    (trace p (t + 1)).D = pipeStageFetch p.imem (trace p t).fPc ∧
      (slotsAt p (t + 1)).d = some (fetchedAt p t) := by
  rcases step_d p.imem (p.net t) (trace p t) (slotsAt p t) (fetchedAt p t) with
    ⟨h, -⟩ | ⟨-, h, -⟩ | ⟨-, -, h⟩
  · rw [hb] at h
    contradiction
  · rw [hl] at h
    contradiction
  · exact h

/-- E and M take what is in front of them unless they are cleared. -/
theorem step_em_of_free (hb : (trace p t).control.eBubble = false) :
    (trace p (t + 1)).E = (trace p t).dOut ∧
      (trace p (t + 1)).M = emInput (trace p t).eOut (p.net t) ∧
      (slotsAt p (t + 1)).e = (slotsAt p t).d ∧ (slotsAt p (t + 1)).m = (slotsAt p t).e := by
  rcases step_em p.imem (p.net t) (trace p t) (slotsAt p t) (fetchedAt p t) with ⟨h, -⟩ | ⟨-, h⟩
  · rw [hb] at h
    contradiction
  · exact h

/-- What M holds has come out of E in the clock before, and E took it from D before that. -/
theorem e_of_m (h : (slotsAt p (t + 1)).m = some x) :
    (trace p t).control.eBubble = false ∧ (slotsAt p t).e = some x ∧
      (trace p (t + 1)).M = emInput (trace p t).eOut (p.net t) ∧
      (slotsAt p (t + 1)).e = (slotsAt p t).d := by
  rcases step_em p.imem (p.net t) (trace p t) (slotsAt p t) (fetchedAt p t) with
    ⟨-, -, -, -, hm⟩ | ⟨hb, -, hM, he, hm⟩
  · rw [slotsAt_succ, hm] at h
    contradiction
  · exact ⟨hb, by rw [← hm]; exact h, hM, he⟩

theorem d_of_e (h : (slotsAt p (t + 1)).e = some x) :
    (trace p t).control.eBubble = false ∧ (slotsAt p t).d = some x := by
  rcases step_em p.imem (p.net t) (trace p t) (slotsAt p t) (fetchedAt p t) with
    ⟨-, -, -, he, -⟩ | ⟨hb, -, -, he, -⟩
  · rw [slotsAt_succ, he] at h
    contradiction
  · exact ⟨hb, by rw [← he]; exact h⟩

end

/-! ## Next PC -/

section

variable {p : Setup} {t : Nat}

theorem fPc_succ (p : Setup) (t : Nat) : (trace p (t + 1)).fPc =
    if (trace p t).control.fStall = false then
      newPc (pipeStageFetch p.imem (trace p t).fPc).valP (trace p t).M (trace p t).W
    else (trace p t).fPc := by
  have h : (trace p (t + 1)).fPc = pipePcLogic (trace p t).control.fStall
      (pipeStageFetch p.imem (trace p t).fPc).valP (trace p t).M (trace p t).W
      (trace p t).fPc := rfl
  rw [h, pipePcLogic]
  cases (trace p t).control.fStall <;> rfl

theorem fPc_of_fStall (h : (trace p t).control.fStall = true) :
    (trace p (t + 1)).fPc = (trace p t).fPc := by
  rw [fPc_succ, h, if_neg (by decide)]

/-- A PC that is held in every clock from `a` to `t` is the same at both ends. -/
theorem fPc_of_held {a : Nat} (hat : a ≤ t)
    (h : ∀ u, a ≤ u → u < t → (trace p (u + 1)).fPc = (trace p u).fPc) :
    (trace p t).fPc = (trace p a).fPc := by
  induction t, hat using Nat.le_induction with
  | base => rfl
  | succ t hat ih =>
      rw [h t hat (Nat.lt_succ_self t), ih fun u h1 h2 => h u h1 (Nat.lt_succ_of_lt h2)]

end

/-! ## Effects -/

/-- `set_cc`. -/
def State.setCc (s : State) : Bool := s.E.icode == icAlu && !s.control.eBubble

/-- W writes a register. -/
def State.writesReg (s : State) : Prop := s.W.dstE ≠ noReg ∨ s.W.dstM ≠ noReg

/-- In clock `t` the instruction `x` writes data memory or a register. -/
def WritesMemReg (p : Setup) (t : Nat) (x : Fetched) : Prop :=
  (slotsAt p t).m = some x ∧ (trace p t).memWrite ≠ none ∨
    (slotsAt p t).w = some x ∧ (trace p t).writesReg

/-- In clock `t` the instruction `x` writes the condition codes, data memory or a register. -/
def Writes (p : Setup) (t : Nat) (x : Fetched) : Prop :=
  (slotsAt p t).e = some x ∧ (trace p t).setCc = true ∨ WritesMemReg p t x

section

variable {p : Setup} {t : Nat} {x : Fetched}

theorem mem_inFlight_of_writes (h : Writes p t x) : x ∈ (slotsAt p t).inFlight := by
  rw [Slots.mem_inFlight]
  rcases h with ⟨h, -⟩ | ⟨h, -⟩ | ⟨h, -⟩
  · exact .inr (.inr (.inl h))
  · exact .inr (.inl h)
  · exact .inl h

theorem regFile_step (h : ¬(trace p t).writesReg) :
    (trace p (t + 1)).regFile = (trace p t).regFile := by
  simp only [State.writesReg, not_or, not_not] at h
  have hstep : (trace p (t + 1)).regFile = (trace p t).regFile.after (trace p t).W := rfl
  rw [hstep, RegFile.after, h.1, h.2, regFile_write_noReg, regFile_write_noReg]

theorem cc_step (h : (trace p t).setCc = false) : (trace p (t + 1)).cc = (trace p t).cc := by
  have hstep : (trace p (t + 1)).cc = ccReg (trace p t).E (trace p t).control.eBubble
      (trace p t).cc (trace p t).eFwd := rfl
  rw [hstep, ccReg, if_neg]
  rintro ⟨h1, h2⟩
  simp [State.setCc, h1, h2] at h

theorem dataMem_step (h : (trace p t).memWrite = none) :
    (trace p (t + 1)).dataMem = (trace p t).dataMem := by
  have hstep : (trace p (t + 1)).dataMem = (trace p t).dataMem.after (trace p t).memWrite := rfl
  rw [hstep, h]
  rfl

theorem memWrite_of_icode {M : EM} (h : M.icode ≠ icRmmovl) (h' : M.icode ≠ icCall)
    (h'' : M.icode ≠ icPushl) : memWrite M = none := by
  rw [memWrite, if_neg]
  rintro ⟨hw, -⟩
  simp only [memControl, h, h', h'', or_self, if_false] at hw
  split at hw
  · contradiction
  split at hw <;> contradiction

/-- Whatever changes in a clock, an instruction in flight has written it. -/
theorem exists_writes (h : (trace p (t + 1)).regFile ≠ (trace p t).regFile ∨
    (trace p (t + 1)).cc ≠ (trace p t).cc ∨ (trace p (t + 1)).dataMem ≠ (trace p t).dataMem) :
    ∃ x, Writes p t x := by
  have hb := bubbles_trace p t
  rcases h with h | h | h
  · cases hw : (slotsAt p t).w with
    | some x => exact ⟨x, .inr (.inr ⟨hw, by_contra fun hn => h (regFile_step hn)⟩)⟩
    | none =>
        refine absurd (regFile_step ?_) h
        simp [State.writesReg, hb.w hw]
  · cases he : (slotsAt p t).e with
    | some x =>
        refine ⟨x, .inl ⟨he, ?_⟩⟩
        by_contra hn
        exact h (cc_step (Bool.eq_false_iff.mpr hn))
    | none =>
        refine absurd (cc_step ?_) h
        rw [State.setCc, hb.e he]
        rfl
  · cases hm : (slotsAt p t).m with
    | some x => exact ⟨x, .inr (.inl ⟨hm, fun hn => h (dataMem_step hn)⟩)⟩
    | none =>
        have hic := (hb.m hm).1
        exact absurd (dataMem_step (memWrite_of_icode (by rw [hic]; decide)
          (by rw [hic]; decide) (by rw [hic]; decide))) h

end

end MyCpu.Y86
