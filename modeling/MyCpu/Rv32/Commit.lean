import MyCpu.Rv32.Refinement

/-!
# The commit port

`commit` is `wb_valid`: MEM/WB holds anything but a `nop` at the reset vector. The simulator's
`execute` (`simulator/src/sim/exec.c`) clocks the CPU until `commit` is 1 and takes what the port
shows.

* `committed` : what the port delivers;
* `execute_committed` : `execute` consumes that stream, up to the first `ebreak`;
* `commitExact_iff` : the port reports every retired instruction once and nothing else exactly when
  no retired instruction is itself a `nop` at the reset vector, which is what a bubble looks like.
-/

namespace MyCpu.Rv32.Pipe

open Clocked

/-! ## `execute` -/

/-- `inst_ebreak`. -/
def instEbreak : Word := 0x00100073#32

/-- `while (dut.commit != 1) npc_single_cycle();` -/
def awaitCommit : Nat → State → Option State
  | 0, _ => none
  | fuel + 1, s => if s.wbValid then some s else awaitCommit fuel (step s)

/-- `execute(n)`: the commits it takes and the state it leaves. `check_ebreak` ends the simulation
through `sim_exit`, which makes one more clock. -/
def execute (fuel : Nat) : Nat → State → Option (List Commit × State)
  | 0, s => some ([], s)
  | n + 1, s =>
      (awaitCommit fuel s).bind fun s' =>
        if s'.commit.instr = instEbreak then some ([s'.commit], step s')
        else (execute fuel n (step s')).map fun r => (s'.commit :: r.1, r.2)

/-- `n` commits, or fewer if the last of them is the first `ebreak`. -/
def StopsAt : Nat → List Commit → Prop
  | 0, cs => cs = []
  | _ + 1, [] => False
  | n + 1, c :: cs => if c.instr = instEbreak then cs = [] else StopsAt n cs

section

variable (rf : RegFile) (m : Mem)

/-- What the commit port delivers in the first `t` clocks. -/
def committed (t : Nat) : List Commit :=
  emitted (fun i => if (trace rf m i).wbValid then some (trace rf m i).commit else none) t

theorem committed_succ (t : Nat) : committed rf m (t + 1) = committed rf m t ++
    (if (trace rf m t).wbValid then some (trace rf m t).commit else none).toList :=
  emitted_succ _ t

variable {rf m}

/-- `instr_cnt` counts the commits. -/
theorem instrCnt_eq (t : Nat) :
    (trace rf m t).instrCnt = BitVec.ofNat 64 (committed rf m t).length := by
  induction t with
  | zero => rfl
  | succ t ih =>
      have hstep : (trace rf m (t + 1)).instrCnt = if (trace rf m t).wbValid
          then (trace rf m t).instrCnt + 1#64 else (trace rf m t).instrCnt := rfl
      rw [hstep, committed_succ, ih, List.length_append]
      cases (trace rf m t).wbValid
      · rfl
      · exact (BitVec.ofNat_add _ 1).symm

/-- The loop stops at the first state from which the port delivers something. -/
theorem awaitCommit_eq (d t : Nat) (h : (trace rf m (t + d)).wbValid = true) :
    ∃ u, (trace rf m u).wbValid = true ∧ committed rf m u = committed rf m t ∧
      ∀ fuel, d < fuel → awaitCommit fuel (trace rf m t) = some (trace rf m u) := by
  induction d generalizing t with
  | zero =>
      rw [Nat.add_zero] at h
      refine ⟨t, h, rfl, fun fuel hf => ?_⟩
      obtain ⟨fuel, rfl⟩ := Nat.exists_eq_add_of_lt hf
      rw [awaitCommit, if_pos h]
  | succ d ih =>
      cases hv : (trace rf m t).wbValid with
      | true =>
          refine ⟨t, hv, rfl, fun fuel hf => ?_⟩
          obtain ⟨fuel, rfl⟩ := Nat.exists_eq_add_of_lt hf
          rw [awaitCommit, if_pos hv]
      | false =>
          obtain ⟨u, hu, hc, ha⟩ := ih (t + 1) (by rwa [Nat.add_right_comm])
          refine ⟨u, hu, ?_, fun fuel hf => ?_⟩
          · rw [hc, committed_succ, hv]
            exact List.append_nil _
          · obtain ⟨fuel, rfl⟩ := Nat.exists_eq_add_of_lt hf
            rw [awaitCommit, hv, if_neg Bool.false_ne_true, ← trace_succ]
            exact ha _ (by omega)

/-- If the port always delivers something in the end, `execute` consumes what it delivers. -/
theorem execute_committed (hlive : ∀ t, ∃ d, (trace rf m (t + d)).wbValid = true) (n t : Nat) :
    ∃ fuel₀ cs u, committed rf m u = committed rf m t ++ cs ∧ StopsAt n cs ∧
      ∀ fuel, fuel₀ ≤ fuel → execute fuel n (trace rf m t) = some (cs, trace rf m u) := by
  induction n generalizing t with
  | zero => exact ⟨0, [], t, (List.append_nil _).symm, rfl, fun _ _ => rfl⟩
  | succ n ih =>
      obtain ⟨d, hd⟩ := hlive t
      obtain ⟨v, hv, hc, ha⟩ := awaitCommit_eq d t hd
      have hnext : committed rf m (v + 1) = committed rf m t ++ [(trace rf m v).commit] := by
        rw [committed_succ, hv, if_pos rfl, hc, Option.toList_some]
      by_cases hb : (trace rf m v).commit.instr = instEbreak
      · refine ⟨d + 1, [(trace rf m v).commit], v + 1, hnext, ?_, fun fuel hf => ?_⟩
        · rw [StopsAt, if_pos hb]
        · rw [execute, ha fuel hf, Option.bind_some, if_pos hb, trace_succ]
      · obtain ⟨fuel₀, cs, u, hcs, hstop, hex⟩ := ih (v + 1)
        refine ⟨max (d + 1) fuel₀, (trace rf m v).commit :: cs, u, ?_, ?_, fun fuel hf => ?_⟩
        · rw [hcs, hnext, List.append_assoc, List.singleton_append]
        · rwa [StopsAt, if_neg hb]
        · rw [execute, ha fuel (by omega), Option.bind_some, if_neg hb, ← trace_succ,
            hex fuel (by omega), Option.map_some]

end

/-! ## Exactness -/

/-- What the commit port promises over a run. -/
structure CommitExact (rf : RegFile) (m : Mem) : Prop where
  valid : ∀ t, (trace rf m t).wbValid = true ↔ (slotsAt rf m t).w ≠ none
  count : ∀ t, (trace rf m t).instrCnt = BitVec.ofNat 64 (retiredAt rf m t).length
  words : ∀ t, (committed rf m t).map (fun c => (c.pc, c.instr)) =
    (retiredAt rf m t).map fun x => (x.pc, x.instr)
  chained : ∀ t, ∃ pc, (committed rf m t).map Commit.pc ++ [pc] =
    resetVector :: (committed rf m t).map Commit.nextPc
  architectural : ∀ t, Executable rf m (memLeft rf m t) →
    committed rf m t = (List.range (retiredAt rf m t).length).map fun i =>
      ⟨(Single.trace rf m i).PC, (Single.trace rf m i).f.instr, (Single.trace rf m (i + 1)).PC⟩
  consumed : ∀ n, ∃ fuel t, StopsAt n (committed rf m t) ∧
    execute fuel n (start rf m) = some (committed rf m t, trace rf m t)

section

variable {rf : RegFile} {m : Mem}

/-- A word in MEM/WB is committed unless it is a `nop` at the reset vector. -/
theorem wbValid_iff (t : Nat) : (trace rf m t).wbValid = true ↔
    ∃ x, (slotsAt rf m t).w = some x ∧ ¬(x.pc = resetVector ∧ x.instr = nop) := by
  have hs := (shows_trace rf m t).w
  have hv : (trace rf m t).wbValid = true ↔
      ¬((trace rf m t).wb.pc = resetVector ∧ (trace rf m t).wb.instr = nop) := by
    rw [State.wbValid, decide_eq_true_eq, not_and_or, or_comm]
    rfl
  rw [hv]
  cases hw : (slotsAt rf m t).w with
  | none =>
      rw [hw] at hs
      exact iff_of_false (fun hn => hn ⟨congrArg Prod.fst hs, congrArg Prod.snd hs⟩) (by simp)
  | some x =>
      rw [hw] at hs
      rw [show (trace rf m t).wb.pc = x.pc from congrArg Prod.fst hs,
        show (trace rf m t).wb.instr = x.instr from congrArg Prod.snd hs]
      simp

theorem mem_retiredAt {t : Nat} {x : Fetched} :
    x ∈ retiredAt rf m t ↔ ∃ i < t, (slotsAt rf m i).w = some x := by
  simp [retiredAt, retired, emitted, slotsAt]

theorem committed_eq_commits (hv : ∀ t, (trace rf m t).wbValid = true ↔ (slotsAt rf m t).w ≠ none)
    (t : Nat) : committed rf m t = commits rf m t := by
  refine emitted_congr fun i _ => ?_
  cases hw : (slotsAt rf m i).w with
  | none => rw [if_neg (fun h => (hv i).mp h hw), Option.map_none]
  | some x => rw [if_pos ((hv i).mpr (by simp [hw])), Option.map_some]

theorem commits_words (t : Nat) : (commits rf m t).map (fun c => (c.pc, c.instr)) =
    (retiredAt rf m t).map fun x => (x.pc, x.instr) := by
  induction t with
  | zero => rfl
  | succ t ih =>
      have hs := (shows_trace rf m t).w
      rw [commits_succ, retiredAt_succ, List.map_append, List.map_append, ih]
      cases hw : (slotsAt rf m t).w with
      | none => rfl
      | some x =>
          rw [hw] at hs
          exact congrArg (fun p => _ ++ [p]) hs

theorem commits_length (t : Nat) : (commits rf m t).length = (retiredAt rf m t).length := by
  have h : ((commits rf m t).map fun c => (c.pc, c.instr)).length =
      ((retiredAt rf m t).map fun x => (x.pc, x.instr)).length := by rw [commits_words]
  rwa [List.length_map, List.length_map] at h

/-- Once every word that retires is reported, all that the port promises follows. -/
theorem commitExact_of_valid
    (hv : ∀ t, (trace rf m t).wbValid = true ↔ (slotsAt rf m t).w ≠ none) : CommitExact rf m where
  valid := hv
  count := fun t => by rw [instrCnt_eq, committed_eq_commits hv, commits_length]
  words := fun t => by rw [committed_eq_commits hv, commits_words]
  chained := fun t => by
    rw [committed_eq_commits hv]
    exact ⟨_, commits_pcs rf m t⟩
  architectural := fun t hx => by
    rw [committed_eq_commits hv]
    exact commits_eq hx t (retiredAt_length_le_memLeft t)
  consumed := fun n => by
    have hlive : ∀ t, ∃ d, (trace rf m (t + d)).wbValid = true := by
      intro t
      obtain ⟨u, hu, hw⟩ := exists_retiredAt rf m t
      exact ⟨u - t, by rw [Nat.add_sub_cancel' hu]; exact (hv u).mpr hw⟩
    obtain ⟨fuel, cs, t, hc, hstop, hex⟩ := execute_committed hlive n 0
    have hcs : committed rf m t = cs := hc
    exact ⟨fuel, t, hcs ▸ hstop, by rw [hcs]; exact hex fuel (Nat.le_refl _)⟩

/-- The commit port is exact over a run if and only if no instruction that retires in it is a `nop`
at the reset vector. -/
theorem commitExact_iff (rf : RegFile) (m : Mem) : CommitExact rf m ↔
    ∀ t, ∀ x ∈ retiredAt rf m t, ¬(x.pc = resetVector ∧ x.instr = nop) := by
  constructor
  · intro h t x hx
    obtain ⟨i, -, hw⟩ := mem_retiredAt.mp hx
    obtain ⟨y, hy, hn⟩ := (wbValid_iff i).mp ((h.valid i).mpr (by simp [hw]))
    rw [hw, Option.some.injEq] at hy
    rwa [hy]
  · intro h
    refine commitExact_of_valid fun t => (wbValid_iff t).trans ⟨?_, fun hw => ?_⟩
    · rintro ⟨x, hx, -⟩
      simp [hx]
    · obtain ⟨x, hx⟩ := Option.ne_none_iff_exists'.mp hw
      exact ⟨x, hx, h (t + 1) x (mem_retiredAt.mpr ⟨t, Nat.lt_succ_self t, hx⟩)⟩

/-- A program that begins with a `nop` retires it without a commit. -/
theorem not_commitExact_nop : ¬CommitExact (fun _ => 0#32) (Mem.ofWords resetVector [nop]) := by
  intro h
  have hw : (slotsAt (fun _ => 0#32) (Mem.ofWords resetVector [nop]) 4).w.isSome = true := by
    decide +kernel
  have hv : (trace (fun _ => 0#32) (Mem.ofWords resetVector [nop]) 4).wbValid = false := by
    decide +kernel
  have := (h.valid 4).mpr (Option.isSome_iff_ne_none.mp hw)
  rw [hv] at this
  contradiction

end

end MyCpu.Rv32.Pipe
