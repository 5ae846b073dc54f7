import MyCpu.Rv32.Akun.Pipeline

/-!
# Invariants of the `akun` pipeline

What every state of every run satisfies, whatever words memory holds (`Inv`):

* a register with its `commit` bit set carries what `decode` makes of its word;
* one without writes no register but `x0`, touches no memory and does not jump;
* a link in `regM` has nothing behind it, so that it need not be forwarded from there.
-/

namespace MyCpu.Rv32.Akun

open Clocked

/-! ## Decoded words -/

section

variable {i : Word}

theorem opcode_of_valP (h : (wbControl i).wbValDSel = wbValDSelValP) :
    opcode i = opJal ∨ opcode i = opJalr := by
  unfold wbControl at h
  dsimp only at h
  split_ifs at h with h1 h2 h3
  · exact absurd h (by decide)
  · exact absurd h (by decide)
  · exact h3.symm
  · exact absurd h (by decide)

/-- A jump goes on to `regM` as a `nop`. -/
theorem memRw_of_needJump {a b : Word} (h : decodeNeedJump i a b = true) : memRw i = memNoRw := by
  rcases decodeNeedJump_cases h with h | h | h <;>
    exact memRw_of_opcode (by rw [h]; decide) (by rw [h]; decide)

end

/-! ## The invariant -/

/-- What is left of the control signals in a bubble. -/
structure RegE.Idle (r : RegE) : Prop where
  wbRd : r.wbRd = 0#5
  wbValDSel : r.wbValDSel = wbValDSelValE
  memRw : r.memRw = memNoRw
  needJump : r.needJump = false
  isJalr : r.isJalr = false

structure Inv (s : State) : Prop where
  d_bubble : s.regD.commit = false → s.regD.instr = nopInstr
  d_prePc : s.regD.commit = true → s.regD.prePc = s.regD.pc + 4#32
  e_bubble : s.regE.commit = false → s.regE.Idle
  e_control : s.regE.commit = true → s.regE.toControl = control s.regE.instr
  e_needJump : s.regE.commit = true →
    s.regE.needJump = decodeNeedJump s.regE.instr s.regE.valA s.regE.valB
  e_prePc : s.regE.commit = true → s.regE.prePc = s.regE.pc + 4#32
  m_bubble : s.regM.commit = false → s.regM.wbRd = 0#5 ∧ s.regM.memRw = memNoRw
  m_control : s.regM.commit = true → s.regM.toWbControl = wbControl s.regM.instr
  m_link : s.regM.wbValDSel = wbValDSelValP → s.regD.commit = false
  w_bubble : s.regW.commit = false → s.regW.wbRd = 0#5
  w_control : s.regW.commit = true → s.regW.toWbControl = wbControl s.regW.instr

theorem idle_bubble (r : RegE) : r.bubble.Idle := ⟨rfl, rfl, rfl, rfl, rfl⟩

/-- A `nop` is as idle as a bubble. -/
theorem idle_nop (valA valB pc prePc : Word) (commit : Bool) :
    (toRegE nopInstr valA valB pc prePc commit).Idle where
  wbRd := (by decide : (wbControl nopInstr).wbRd = 0#5)
  wbValDSel := (by decide : (wbControl nopInstr).wbValDSel = wbValDSelValE)
  memRw := (by decide : memRw nopInstr = memNoRw)
  needJump := by
    show decodeNeedJump nopInstr valA valB = false
    rw [decodeNeedJump_of_opcode (by decide)]
    decide
  isJalr := (by decide : (control nopInstr).isJalr = false)

section

variable {s : State} (h : Inv s)

include h

theorem memRw_of_jump (hj : s.needJump = true) : s.regE.memRw = memNoRw := by
  cases hc : s.regE.commit with
  | false => exact (h.e_bubble hc).memRw
  | true =>
      rw [h.e_control hc]
      exact memRw_of_needJump ((h.e_needJump hc).symm.trans hj)

theorem not_loadUse_of_jump (hj : s.needJump = true) : s.loadUse = false := by
  unfold State.loadUse loadUse
  rw [memRw_of_jump h hj]
  simp +decide

/-- A link in `regE` is a jump. -/
theorem jump_of_link (hl : s.regE.wbValDSel = wbValDSelValP) : s.needJump = true := by
  cases hc : s.regE.commit with
  | false =>
      rw [(h.e_bubble hc).wbValDSel] at hl
      contradiction
  | true =>
      rw [h.e_control hc] at hl
      have hop := opcode_of_valP hl
      show s.regE.needJump = true
      rw [h.e_needJump hc, decodeNeedJump_of_opcode]
      · exact decide_eq_true hop
      · rcases hop with hop | hop <;> rw [hop] <;> decide

theorem jump_of_jalr (hj : s.regE.isJalr = true) :
    s.regE.commit = true ∧ s.needJump = true := by
  cases hc : s.regE.commit with
  | false =>
      rw [(h.e_bubble hc).isJalr] at hj
      contradiction
  | true =>
      rw [h.e_control hc] at hj
      have hop : opcode s.regE.instr = opJalr := of_decide_eq_true hj
      refine ⟨rfl, ?_⟩
      show s.regE.needJump = true
      rw [h.e_needJump hc, decodeNeedJump_of_opcode (by rw [hop]; decide)]
      exact decide_eq_true (.inr hop)

/-- Every clock either holds the instruction in `regD` behind a load it may need, replaces it by a
bubble after a jump, or passes it on. -/
theorem step_front :
    (s.needJump = false ∧ (step s).regF = s.regF ∧ (step s).regD = s.regD ∧
        (step s).regE = s.regE.bubble) ∨
      (s.needJump = true ∧ (step s).regF = s.valE ∧ (step s).regD = RegD.bubble ∧
        (step s).regE = s.regE.bubble) ∨
      (s.needJump = false ∧ s.loadUse = false ∧ (step s).regF = s.regF + 4#32 ∧
        (step s).regD = s.fetch ∧ (step s).regE = s.decode) := by
  cases hj : s.needJump
  · cases hl : s.loadUse
    · exact .inr (.inr ⟨rfl, rfl, by simp [posedge, selectPc, fetchPrePc, hl, hj],
        by simp [posedge, hl, hj], by simp [posedge, hl, hj]⟩)
    · exact .inl ⟨rfl, by simp [posedge, hl], by simp [posedge, hl, hj], by simp [posedge, hl]⟩
  · have hl := not_loadUse_of_jump h hj
    exact .inr (.inl ⟨rfl, by simp [posedge, selectPc, hl, hj], by simp [posedge, hj],
      by simp [posedge, hj]⟩)

end

theorem step_regfile (s : State) : (step s).regfile = s.regfile.after s.wb := rfl

theorem step_pmem (s : State) : (step s).pmem = afterWrite s.pmem s.memWrite := rfl

theorem inv_start (s₀ : State) : Inv (start s₀) where
  d_bubble := fun _ => rfl
  d_prePc := fun h => absurd h Bool.false_ne_true
  e_bubble := fun _ => idle_bubble _
  e_control := fun h => absurd h Bool.false_ne_true
  e_needJump := fun h => absurd h Bool.false_ne_true
  e_prePc := fun h => absurd h Bool.false_ne_true
  m_bubble := fun _ => ⟨rfl, rfl⟩
  m_control := fun h => absurd h Bool.false_ne_true
  m_link := fun _ => rfl
  w_bubble := fun _ => rfl
  w_control := fun h => absurd h Bool.false_ne_true

/-- Every clock keeps the invariant. -/
theorem inv_step {s : State} (h : Inv s) : Inv (step s) where
  d_bubble := by
    rcases step_front h with ⟨-, -, hd, -⟩ | ⟨-, -, hd, -⟩ | ⟨-, -, -, hd, -⟩ <;> rw [hd]
    · exact h.d_bubble
    · exact fun _ => rfl
    · exact fun hc => absurd hc.symm Bool.false_ne_true
  d_prePc := by
    rcases step_front h with ⟨-, -, hd, -⟩ | ⟨-, -, hd, -⟩ | ⟨-, -, -, hd, -⟩ <;> rw [hd]
    · exact h.d_prePc
    · exact fun hc => absurd hc Bool.false_ne_true
    · exact fun _ => rfl
  e_bubble := by
    rcases step_front h with ⟨-, -, -, he⟩ | ⟨-, -, -, he⟩ | ⟨-, -, -, -, he⟩ <;> rw [he]
    · exact fun _ => idle_bubble _
    · exact fun _ => idle_bubble _
    · intro hc
      unfold State.decode
      rw [h.d_bubble hc]
      exact idle_nop _ _ _ _ _
  e_control := by
    rcases step_front h with ⟨-, -, -, he⟩ | ⟨-, -, -, he⟩ | ⟨-, -, -, -, he⟩ <;> rw [he]
    · exact fun hc => absurd hc Bool.false_ne_true
    · exact fun hc => absurd hc Bool.false_ne_true
    · exact fun _ => rfl
  e_needJump := by
    rcases step_front h with ⟨-, -, -, he⟩ | ⟨-, -, -, he⟩ | ⟨-, -, -, -, he⟩ <;> rw [he]
    · exact fun hc => absurd hc Bool.false_ne_true
    · exact fun hc => absurd hc Bool.false_ne_true
    · exact fun _ => rfl
  e_prePc := by
    rcases step_front h with ⟨-, -, -, he⟩ | ⟨-, -, -, he⟩ | ⟨-, -, -, -, he⟩ <;> rw [he]
    · exact fun hc => absurd hc Bool.false_ne_true
    · exact fun hc => absurd hc Bool.false_ne_true
    · exact h.d_prePc
  m_bubble := fun hc => ⟨(h.e_bubble hc).wbRd, (h.e_bubble hc).memRw⟩
  m_control := fun hc => congrArg Control.toWbControl (h.e_control hc)
  m_link := by
    intro hl
    have hj := jump_of_link h hl
    rcases step_front h with ⟨hj', -⟩ | ⟨-, -, hd, -⟩ | ⟨hj', -⟩
    · rw [hj] at hj'
      contradiction
    · rw [hd]
      rfl
    · rw [hj] at hj'
      contradiction
  w_bubble := fun hc => (h.m_bubble hc).1
  w_control := h.m_control

theorem inv_trace (s₀ : State) (t : Nat) : Inv (trace s₀ t) :=
  run_invariant (fun _ => Inv) (inv_start s₀) (fun _ _ h => inv_step h) t

/-! ## Bubbles and progress -/

theorem not_jump_of_bubble {s : State} (h : Inv s) (hc : s.regE.commit = false) :
    s.needJump = false := (h.e_bubble hc).needJump

theorem not_loadUse_of_bubble {s : State} (h : Inv s) (hc : s.regE.commit = false) :
    s.loadUse = false := by
  unfold State.loadUse loadUse
  rw [(h.e_bubble hc).memRw]
  simp +decide

/-- What the commit port delivers in the first `t` clocks. -/
def commits (s₀ : State) (t : Nat) : List Commit :=
  emitted (fun i => if (trace s₀ i).regW.commit then some (trace s₀ i).report else none) t

theorem commits_succ (s₀ : State) (t : Nat) : commits s₀ (t + 1) = commits s₀ t ++
    (if (trace s₀ t).regW.commit then some (trace s₀ t).report else none).toList :=
  emitted_succ _ t

/-- The number of the instruction in `regM` counts those that have left `regW` by the next clock. -/
theorem commits_length_succ (s₀ : State) (t : Nat) : (commits s₀ (t + 1)).length =
    (trace s₀ t).slots.posM (commits s₀ t).length := by
  rw [commits_succ, List.length_append, Slots.posM]
  unfold State.slots held
  cases (trace s₀ t).regW.commit <;> rfl

/-- Without an instruction in `regE` nothing stalls and nothing is flushed. -/
theorem control_of_bubble {s : State} (h : Inv s) (he : s.slots.e = none) :
    s.control.stallD = false ∧ s.control.bubbleD = false ∧ s.control.bubbleE = false := by
  have hc : s.regE.commit = false := by
    rw [← Bool.not_eq_true, ← held_ne_none_iff]
    exact not_not_intro he
  have hl := not_loadUse_of_bubble h hc
  have hj := not_jump_of_bubble h hc
  refine ⟨hl, hj, ?_⟩
  show (s.needJump || s.loadUse) = false
  rw [hl, hj]
  rfl

/-- Every run keeps committing. -/
theorem exists_commit (s₀ : State) (t : Nat) : ∃ u, t ≤ u ∧ (trace s₀ u).regW.commit = true := by
  have hE := fun i => control_of_bubble (inv_trace s₀ i)
  simp only [slots_trace] at hE
  obtain ⟨u, hu, hw⟩ := exists_retire (fun _ => rfl) hE t
  rw [← slots_trace] at hw
  exact ⟨u, hu, held_ne_none_iff.mp hw⟩

/-- Every number of instructions is committed at some clock. -/
theorem exists_commits_length (s₀ : State) (k : Nat) : ∃ t, (commits s₀ t).length = k := by
  have hE := fun i => control_of_bubble (inv_trace s₀ i)
  simp only [slots_trace] at hE
  obtain ⟨t, rfl⟩ := exists_retired_length (fun _ => rfl) hE k
  refine ⟨t, ?_⟩
  induction t with
  | zero => rfl
  | succ t ih => rw [commits_length_succ, ih, retired_length_succ, slots_trace]

end MyCpu.Rv32.Akun
