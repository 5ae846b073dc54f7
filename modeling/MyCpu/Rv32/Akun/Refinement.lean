import MyCpu.Rv32.Akun.Agreement
import MyCpu.Rv32.Akun.Conformance
import MyCpu.Rv32.Akun.ProgramOrder

/-!
# The `akun` pipeline refines the sequential machine

With `k` instructions committed, the one in `regW` is number `k` of the sequential run, the one in
`regM` number `posM`, and so on to the front. `Sim` says that each register agrees with the pass of
its instruction; the one in `regD` only while `regE` does not jump, since behind a jump it is on the
wrong path.

* `bypassable_encode` : legal words are those whose results `decode` can forward;
* `decode_exOf` : what leaves `regD` has the operands of the sequential machine;
* `sim_step` : a clock keeps the simulation;
* `pipeline_refines_seq` : the commits, the register file, the memory writes and the operands of
  every run.
-/

namespace MyCpu.Rv32.Akun

open Clocked Isa

/-! ## Legal words -/

theorem bypassable_of_opcode {i : Word} {op : BitVec 7} (h : opcode i = op) (hs : op ≠ opSystem)
    (hl : op ≠ opLoad) : Bypassable i :=
  ⟨h ▸ hs, fun h' => absurd (h.symm.trans h') hl⟩

theorem bypassable_of_load {i : Word} (h : opcode i = opLoad) (op : LoadOp)
    (h3 : func3 i = op.funct3) : Bypassable i := by
  refine ⟨by rw [h]; decide, fun _ => ?_⟩
  have hne : i ≠ 0x0000a023#32 := ne_of_opcode (by rw [h]; decide)
  unfold memRw
  cases op <;> simp +decide [hne, h, h3, LoadOp.funct3]

/-- Every legal word but `SYSTEM` writes a value that can be forwarded. -/
theorem bypassable_encode (i : Instr) : Bypassable i.encode := by
  have hop := opcode_encode i
  cases i with
  | load op rd rs1 imm =>
      obtain ⟨-, h3, -, -⟩ := fields_iType imm rs1 op.funct3 rd (.inr (.inl rfl))
        (fun h => absurd h (by decide))
      exact bypassable_of_load hop op h3
  | _ =>
      refine bypassable_of_opcode hop ?_ ?_
      all_goals simp +decide [Instr.opcode]

/-! ## Positions -/

section

variable (s : State) (k : Nat)

theorem posM_eq : s.slots.posM k = k + s.regW.commit.toNat := by
  unfold Slots.posM State.slots held
  cases s.regW.commit <;> rfl

theorem posE_eq : s.slots.posE k = s.slots.posM k + s.regM.commit.toNat := by
  unfold Slots.posE State.slots held
  cases s.regM.commit <;> rfl

theorem posD_eq : s.slots.posD k = s.slots.posE k + s.regE.commit.toNat := by
  unfold Slots.posD State.slots held
  cases s.regE.commit <;> rfl

theorem posM_step : (step s).slots.posM (s.slots.posM k) = s.slots.posE k := by
  rw [slots_step, Slots.posM_advance]

theorem posE_step : (step s).slots.posE (s.slots.posM k) = s.slots.posD k := by
  rw [slots_step, Slots.posE_advance rfl]

theorem posD_step : (step s).slots.posD (s.slots.posM k) =
    s.slots.posD k + (step s).regE.commit.toNat := by
  rw [posD_eq, posE_step]

end

/-! ## The simulation -/

/-- The first `n` instructions of the sequential run are legal, and none of their stores changes a
word that a later one of them is fetched from. -/
structure Executable (u : Seq.State) (n : Nat) : Prop where
  legal : ∀ i < n, ∃ ins : Instr, (Seq.trace u i).pass.instr = ins.encode
  fetch_stable : ∀ j < n, ∀ i < j, fetchInstr (Seq.trace u (i + 1)).pmem (Seq.trace u j).pc =
    fetchInstr (Seq.trace u i).pmem (Seq.trace u j).pc

/-- Fetching early reads what the sequential machine reads when the instruction's turn comes. -/
theorem Executable.fetch_eq {u : Seq.State} {n : Nat} (h : Executable u n) {i j : Nat} (hij : i ≤ j)
    (hj : j < n) : fetchInstr (Seq.trace u i).pmem (Seq.trace u j).pc =
      (Seq.trace u j).pass.instr := by
  induction hij using Nat.decreasingInduction with
  | self => rfl
  | of_succ i hi ih => exact (h.fetch_stable j hj i hi).symm.trans ih

section

variable (u : Seq.State) (n : Nat)

/-- Memory, register file and the instructions behind `regD`, as far as these are among the first
`n`, when `k` have committed. -/
structure Back (s : State) (k : Nat) : Prop where
  regfile : k ≤ n → s.regfile = (Seq.trace u k).regfile
  pmem : s.slots.posM k ≤ n → s.pmem = (Seq.trace u (s.slots.posM k)).pmem
  next : s.slots.posE k ≤ n → nextE s = (Seq.trace u (s.slots.posE k)).pc
  w : s.regW.commit = true → k < n → WbOf s.regW (Seq.trace u k).pass
  m : s.regM.commit = true → s.slots.posM k < n →
    MemOf s.regM (Seq.trace u (s.slots.posM k)).pass
  e : s.regE.commit = true → s.slots.posE k < n → ExOf s.regE (Seq.trace u (s.slots.posE k)).pass

/-- The word in `regD` as well, unless it is behind a jump. -/
structure Sim (s : State) (k : Nat) : Prop extends Back u n s k where
  d : s.needJump = false → s.regD.commit = true → s.slots.posD k < n →
    s.regD.instr = (Seq.trace u (s.slots.posD k)).pass.instr

end

section

variable {u : Seq.State} {n : Nat} {s : State} {k : Nat}

/-- The register file behind a write-back, be it a bubble's. -/
theorem after_retire {rf : RegFile} {r : RegW} (hb : r.commit = false → r.wbRd = 0#5)
    (hw : r.commit = true → k < n → WbOf r (Seq.trace u k).pass)
    (hr : k ≤ n → rf = (Seq.trace u k).regfile) (hn : k + r.commit.toNat ≤ n) :
    rf.after (writeBack r) = (Seq.trace u (k + r.commit.toNat)).regfile := by
  cases hc : r.commit with
  | false =>
      rw [hc] at hn
      rw [after_of_rd_zero rf (hb hc)]
      exact hr hn
  | true =>
      rw [hc] at hn
      rw [(hw hc hn).write, hr (Nat.le_of_lt hn)]
      rfl

/-- The memory behind a memory stage, be it a bubble's. -/
theorem after_store {pm : Mem} {r : RegM} (hb : r.commit = false → r.memRw = memNoRw)
    (hm : r.commit = true → k < n → MemOf r (Seq.trace u k).pass)
    (hp : k ≤ n → pm = (Seq.trace u k).pmem) (hn : k + r.commit.toNat ≤ n) :
    afterWrite pm (memoryWrite r) = (Seq.trace u (k + r.commit.toNat)).pmem := by
  cases hc : r.commit with
  | false =>
      rw [hc] at hn
      rw [memoryWrite_of_noRw (hb hc)]
      exact hp hn
  | true =>
      rw [hc] at hn
      rw [(hm hc hn).memWrite, hp (Nat.le_of_lt hn)]
      rfl

theorem Back.step_regfile (h : Inv s) (hb : Back u n s k) (hn : s.slots.posM k ≤ n) :
    (step s).regfile = (Seq.trace u (s.slots.posM k)).regfile := by
  rw [posM_eq] at hn ⊢
  exact after_retire h.w_bubble hb.w hb.regfile hn

theorem Back.step_pmem (h : Inv s) (hb : Back u n s k) (hn : s.slots.posE k ≤ n) :
    (step s).pmem = (Seq.trace u (s.slots.posE k)).pmem := by
  rw [posE_eq] at hn ⊢
  exact after_store (fun hc => (h.m_bubble hc).2) hb.m hb.pmem hn

theorem Back.step_w (hb : Back u n s k) (hc : (step s).regW.commit = true) (hn : s.slots.posM k < n) :
    WbOf (step s).regW (Seq.trace u (s.slots.posM k)).pass :=
  wbOf_toRegW (hb.m hc hn) (hb.pmem (Nat.le_of_lt hn))

theorem Back.step_m (hb : Back u n s k) (hc : (step s).regM.commit = true) (hn : s.slots.posE k < n) :
    MemOf (step s).regM (Seq.trace u (s.slots.posE k)).pass :=
  memOf_toRegM (hb.e hc hn)

/-- The register file the instructions in `regW`, `regM` and `regE` leave. -/
theorem Back.step_step_step_regfile (h : Inv s) (hb : Back u n s k) (hn : s.slots.posD k ≤ n) :
    (step (step (step s))).regfile = (Seq.trace u (s.slots.posD k)).regfile := by
  have h1 := inv_step h
  have h2 := inv_step h1
  have hE : s.slots.posE k ≤ n := Nat.le_trans (Nat.le_add_right _ _) hn
  have hM : s.slots.posM k ≤ n := Nat.le_trans (Nat.le_add_right _ _) hE
  have hr2 : (step (step s)).regfile = (Seq.trace u (s.slots.posE k)).regfile := by
    rw [posE_eq] at hE ⊢
    exact after_retire h1.w_bubble hb.step_w (hb.step_regfile h) hE
  rw [posD_eq] at hn ⊢
  exact after_retire h2.w_bubble
    (fun hc hlt => wbOf_toRegW (hb.step_m hc hlt) (hb.step_pmem h (Nat.le_of_lt hlt)))
    (fun _ => hr2) hn

/-- The address of the next instruction to enter `regE`. -/
theorem Back.step_next (h : Inv s) (ho : Ordered s) (hb : Back u n s k) (hn : s.slots.posD k ≤ n) :
    nextE (step s) = (Seq.trace u (s.slots.posD k)).pc := by
  rw [nextE_step h ho]
  rw [posD_eq] at hn ⊢
  cases hc : s.regE.commit with
  | false =>
      rw [hc] at hn
      have hnext : nextE s = nextD s := by
        unfold nextE
        rw [hc]
        rfl
      rw [if_neg Bool.false_ne_true, ← hnext]
      exact hb.next hn
  | true =>
      rw [hc] at hn
      exact (hb.e hc hn).nextPc

theorem Back.regD_pc (h : Inv s) (ho : Ordered s) (hb : Back u n s k) (hj : s.needJump = false)
    (hc : s.regD.commit = true) (hn : s.slots.posD k ≤ n) :
    s.regD.pc = (Seq.trace u (s.slots.posD k)).pc := by
  rw [← hb.step_next h ho hn, nextE_step_of_not_jump h hj]
  unfold nextD
  rw [hc]
  rfl

/-- What `decode` selects for a register that is read is what the sequential machine reads. -/
theorem Back.select_eq (h : Inv s) (hb : Back u n s k) (hx : Executable u n)
    (hc : s.regD.commit = true) (hj : s.needJump = false) (hl : s.loadUse = false)
    (hn : s.slots.posD k < n) {r : BitVec 5} (hr : r = rs1 s.regD.instr ∨ r = rs2 s.regD.instr) :
    s.bypass.select r (s.regfile.read r) =
      (Seq.trace u (s.slots.posD k)).regfile.read r := by
  have hE : s.regE.commit = true → Bypassable s.regE.instr := by
    intro hcE
    have hlt : s.slots.posE k < n := Nat.lt_of_le_of_lt (Nat.le_add_right _ _) hn
    obtain ⟨ins, hins⟩ := hx.legal _ hlt
    rw [(hb.e hcE hlt).instr, hins]
    exact bypassable_encode ins
  rw [Akun.select_eq h hc hj hl hE hr, hb.step_step_step_regfile h (Nat.le_of_lt hn)]

/-- An instruction leaves `regD` with the operands it uses, and with the decision of its jump. -/
theorem Sim.decode_exOf (h : Inv s) (ho : Ordered s) (hs : Sim u n s k) (hx : Executable u n)
    (hc : s.regD.commit = true) (hj : s.needJump = false) (hl : s.loadUse = false)
    (hn : s.slots.posD k < n) : ExOf s.decode (Seq.trace u (s.slots.posD k)).pass := by
  have hi : s.regD.instr = (Seq.trace u (s.slots.posD k)).pass.instr := hs.d hj hc hn
  have hA : UsesRs1 (Seq.trace u (s.slots.posD k)).pass.instr →
      s.valA = (Seq.trace u (s.slots.posD k)).pass.valA := by
    rw [← hi]
    intro hu
    have hsel := hs.select_eq h hx hc hj hl hn (.inl rfl)
    rw [rs1_of_uses hu] at hsel
    unfold State.valA decodeValA
    rw [rs1_of_uses hu, hsel, hi]
    exact (Seq.idle_select _ _).symm
  have hB : UsesRs2 (Seq.trace u (s.slots.posD k)).pass.instr →
      s.valB = (Seq.trace u (s.slots.posD k)).pass.valB := by
    rw [← hi]
    intro hu
    have hsel := hs.select_eq h hx hc hj hl hn (.inr rfl)
    rw [rs2_of_uses hu] at hsel
    unfold State.valB decodeValB
    rw [rs2_of_uses hu, hsel, hi]
    exact (Seq.idle_select _ _).symm
  exact
    { pc := hs.regD_pc h ho hj hc (Nat.le_of_lt hn)
      instr := hi
      control := congrArg control hi
      needJump := (congrArg (decodeNeedJump · s.valA s.valB) hi).trans (decodeNeedJump_congr hA hB)
      valA := hA
      valB := hB }

/-- Every clock keeps the old part of the simulation. -/
theorem Sim.step_back (h : Inv s) (ho : Ordered s) (hs : Sim u n s k) (hx : Executable u n) :
    Back u n (step s) (s.slots.posM k) where
  regfile := hs.step_regfile h
  pmem := by
    rw [posM_step]
    exact hs.step_pmem h
  next := by
    rw [posE_step]
    exact hs.step_next h ho
  w := hs.step_w
  m := by
    rw [posM_step]
    exact hs.step_m
  e := by
    rw [posE_step]
    intro hc hn
    rcases step_front h with ⟨-, -, -, he⟩ | ⟨-, -, -, he⟩ | ⟨hj, hl, -, -, he⟩ <;> rw [he] at hc ⊢
    · exact absurd hc Bool.false_ne_true
    · exact absurd hc Bool.false_ne_true
    · exact hs.decode_exOf h ho hx hc hj hl hn

/-- And the word in `regD`. -/
theorem sim_step (h : Inv s) (ho : Ordered s) (hs : Sim u n s k) (hx : Executable u n) :
    Sim u n (step s) (s.slots.posM k) where
  toBack := hs.step_back h ho hx
  d := by
    intro hj' hc' hn
    rcases step_front h with ⟨hj, -, hd, he⟩ | ⟨-, -, hd, -⟩ | ⟨-, -, -, hd, -⟩
    · rw [posD_step, he] at hn ⊢
      rw [hd] at hc' ⊢
      exact hs.d hj hc' hn
    · rw [hd] at hc'
      exact absurd hc' Bool.false_ne_true
    · -- the word just fetched: `regE` does not jump, so its address is the next instruction's
      have hpc : s.regF = (Seq.trace u ((step s).slots.posD (s.slots.posM k))).pc := by
        rw [← (hs.step_back h ho hx).regD_pc (inv_step h) (ordered_step h ho) hj' hc'
          (Nat.le_of_lt hn), hd]
        rfl
      have hle : s.slots.posM k ≤ (step s).slots.posD (s.slots.posM k) := by
        rw [posD_eq, posE_eq, posM_eq (step s)]
        omega
      rw [← hx.fetch_eq hle hn, ← hpc, ← hs.pmem (Nat.le_trans hle (Nat.le_of_lt hn)), hd]
      rfl

end

/-! ## Runs -/

section

variable (s₀ : State)

/-- The sequential machine in the state out of reset. -/
def seqStart : Seq.State := ⟨(start s₀).regF, (start s₀).regfile, (start s₀).pmem⟩

/-- How many instructions have left `regM` in the first `t` clocks. -/
def memLeft (t : Nat) : Nat := (trace s₀ t).slots.posM (commits s₀ t).length

/-- How many have left `regD` for `regE`. -/
def issued (t : Nat) : Nat := (trace s₀ t).slots.posD (commits s₀ t).length

/-- The `dpi_mem_write` calls of the first `t` clocks. -/
def memWrites (t : Nat) : List MemWrite := emitted (fun i => (trace s₀ i).memWrite) t

end

section

variable {s₀ : State}

theorem memLeft_eq (t : Nat) :
    memLeft s₀ t = (commits s₀ t).length + (trace s₀ t).regW.commit.toNat := posM_eq _ _

theorem memLeft_succ (t : Nat) :
    memLeft s₀ (t + 1) = memLeft s₀ t + (trace s₀ t).regM.commit.toNat := by
  unfold memLeft
  rw [commits_length_succ, trace_succ, posM_step, posE_eq]

theorem issued_succ (t : Nat) :
    issued s₀ (t + 1) = issued s₀ t + (trace s₀ (t + 1)).regE.commit.toNat := by
  unfold issued
  rw [commits_length_succ, trace_succ, posD_step]

theorem memLeft_le_issued (t : Nat) : memLeft s₀ t ≤ issued s₀ t := by
  unfold memLeft issued
  rw [posD_eq, posE_eq]
  omega

theorem commits_length_le (t : Nat) : (commits s₀ t).length ≤ issued s₀ t := by
  refine Nat.le_trans ?_ (memLeft_le_issued t)
  rw [memLeft_eq]
  exact Nat.le_add_right _ _

theorem issued_mono {t v : Nat} (h : t ≤ v) : issued s₀ t ≤ issued s₀ v := by
  induction v, h using Nat.le_induction with
  | base => exact Nat.le_refl _
  | succ v _ ih =>
      rw [issued_succ]
      exact Nat.le_trans ih (Nat.le_add_right _ _)

theorem issued_succ_of_advances {t : Nat} (h : (trace s₀ t).Advances) :
    issued s₀ (t + 1) = issued s₀ t + 1 := by
  obtain ⟨hc, hj, hl⟩ := h
  have he : (trace s₀ (t + 1)).regE =
      if (trace s₀ t).needJump || (trace s₀ t).loadUse then (trace s₀ t).regE.bubble
      else (trace s₀ t).decode := rfl
  rw [hj, hl] at he
  have hcE : (trace s₀ (t + 1)).regE.commit = true := (congrArg RegE.commit he).trans hc
  rw [issued_succ, hcE]
  rfl

theorem sim_trace {n : Nat} (hx : Executable (seqStart s₀) n) (t : Nat) :
    Sim (seqStart s₀) n (trace s₀ t) (commits s₀ t).length := by
  induction t with
  | zero =>
      exact
        { regfile := fun _ => rfl
          pmem := fun _ => rfl
          next := fun _ => rfl
          w := fun h => absurd h Bool.false_ne_true
          m := fun h => absurd h Bool.false_ne_true
          e := fun h => absurd h Bool.false_ne_true
          d := fun _ h => absurd h Bool.false_ne_true }
  | succ t ih =>
      rw [commits_length_succ]
      exact sim_step (inv_trace s₀ t) (ordered_trace s₀ t) ih hx

theorem commits_eq {n : Nat} (hx : Executable (seqStart s₀) n) (t : Nat)
    (hn : (commits s₀ t).length ≤ n) : (commits s₀ t).map (fun c => (c.pc, c.instr)) =
      (List.range (commits s₀ t).length).map fun i =>
        ((Seq.trace (seqStart s₀) i).pc, (Seq.trace (seqStart s₀) i).pass.instr) := by
  induction t with
  | zero => rfl
  | succ t ih =>
      have hw := (sim_trace hx t).w
      rw [commits_length_succ, posM_eq] at hn ⊢
      rw [commits_succ, List.map_append, ih (Nat.le_trans (Nat.le_add_right _ _) hn)]
      cases hc : (trace s₀ t).regW.commit with
      | false => exact List.append_nil _
      | true =>
          rw [hc] at hn
          have hof := hw hc hn
          have hpc : (trace s₀ t).report.pc = _ := hof.pc
          have hinstr : (trace s₀ t).report.instr = _ := hof.instr
          rw [if_pos rfl, Option.toList_some, List.map_singleton, hpc, hinstr, Bool.toNat_true,
            List.range_succ, List.map_append, List.map_singleton]
          rfl

theorem memWrites_eq {n : Nat} (hx : Executable (seqStart s₀) n) (t : Nat) (hn : memLeft s₀ t ≤ n) :
    memWrites s₀ t =
      emitted (fun i => (Seq.trace (seqStart s₀) i).pass.memWrite) (memLeft s₀ t) := by
  induction t with
  | zero => rfl
  | succ t ih =>
      have hm := (sim_trace hx t).m
      rw [memLeft_succ] at hn ⊢
      unfold memWrites
      rw [emitted_succ]
      unfold memWrites at ih
      rw [ih (Nat.le_trans (Nat.le_add_right _ _) hn)]
      unfold State.memWrite
      cases hc : (trace s₀ t).regM.commit with
      | false =>
          rw [memoryWrite_of_noRw ((inv_trace s₀ t).m_bubble hc).2]
          exact List.append_nil _
      | true =>
          rw [hc] at hn
          rw [(hm hc hn).memWrite]
          exact (emitted_succ _ _).symm

end

/-- The pipeline refines the sequential machine. After any number of clocks the commits are those
of its first instructions, the register file is the one it has after as many, and the memory
writes are its memory writes; `decode` has passed on to `execute` the operands each instruction has
there, and the same decision to jump; and every number of instructions commits at some clock. -/
theorem pipeline_refines_seq (s₀ : State) (t : Nat)
    (hx : Executable (seqStart s₀) (issued s₀ t)) :
    (commits s₀ t).map (fun c => (c.pc, c.instr)) =
        (List.range (commits s₀ t).length).map (fun i =>
          ((Seq.trace (seqStart s₀) i).pc, (Seq.trace (seqStart s₀) i).pass.instr)) ∧
      (trace s₀ t).regfile = (Seq.trace (seqStart s₀) (commits s₀ t).length).regfile ∧
      memWrites s₀ t =
        emitted (fun i => (Seq.trace (seqStart s₀) i).pass.memWrite) (memLeft s₀ t) ∧
      (∀ i < t, (trace s₀ i).Advances →
        ExOf (trace s₀ i).decode (Seq.trace (seqStart s₀) (issued s₀ i)).pass) ∧
      ∀ k, ∃ v, (commits s₀ v).length = k := by
  refine ⟨commits_eq hx t (commits_length_le t), (sim_trace hx t).regfile (commits_length_le t),
    memWrites_eq hx t (memLeft_le_issued t), ?_, exists_commits_length s₀⟩
  rintro i hi ⟨hc, hj, hl⟩
  refine (sim_trace hx i).decode_exOf (inv_trace s₀ i) (ordered_trace s₀ i) hx hc hj hl ?_
  calc issued s₀ i < issued s₀ i + 1 := Nat.lt_succ_self _
    _ = issued s₀ (i + 1) := (issued_succ_of_advances ⟨hc, hj, hl⟩).symm
    _ ≤ issued s₀ t := issued_mono hi

/-- `addi x1, x0, 256`, `sw x1, 0(x1)`, `lw x2, 0(x1)` and `beq x2, x1` back to the start. -/
def loopInstrs : List Instr :=
  [.opImm .addi 1#5 0#5 256#12, .store .sw 1#5 1#5 0#12, .load .lw 2#5 1#5 0#12,
    .branch .beq 2#5 1#5 (-6)]

def storeLoadLoop : State :=
  { (default : State) with pmem := Mem.ofWords resetVector (loopInstrs.map Instr.encode) }

theorem issued_storeLoadLoop : issued storeLoadLoop 10 = 6 := by decide +kernel

theorem executable_storeLoadLoop : Executable (seqStart storeLoadLoop) 6 where
  legal := by
    intro i hi
    refine ⟨loopInstrs.getD (i % 4) (.fence 0#5 0#5 0#12), ?_⟩
    revert i
    decide +kernel
  fetch_stable := by decide +kernel

/-- Ten clocks through the loop, with a store, a stall and a jump back. -/
theorem pipeline_refines_seq_storeLoadLoop :
    (trace storeLoadLoop 10).regfile =
        (Seq.trace (seqStart storeLoadLoop) (commits storeLoadLoop 10).length).regfile ∧
      memWrites storeLoadLoop 10 =
        emitted (fun i => (Seq.trace (seqStart storeLoadLoop) i).pass.memWrite)
          (memLeft storeLoadLoop 10) := by
  obtain ⟨-, hr, hw, -⟩ := pipeline_refines_seq storeLoadLoop 10
    (issued_storeLoadLoop ▸ executable_storeLoadLoop)
  exact ⟨hr, hw⟩

end MyCpu.Rv32.Akun
