import MyCpu.Y86.Ret
import MyCpu.Y86.SingleCycle

/-!
# `call`

`pc_logic` selects the target of a taken jump and the address a `ret` has read; for a `call` there
is no such case, although the comment at the prediction counts on one and `pc_update` of the
single-cycle Y86 has it. What is stored as the return address comes from the undriven net.

* `follower_of_call` : behind a `call` in M, E holds the word at the address the PC had next;
* `callExact_iff` : that word is executed after the `call`, so that the pipeline is right only about
  a `call` of the address behind itself while the net carries that address.
-/

namespace MyCpu.Y86

open Clocked

/-- The `call` `x`, in M after `t` clocks, does what it should: the address behind it is stored at
the new `%rsp`; the next instruction to retire is the one `pc_update` selects, and anything fetched
between them writes nothing. -/
structure CallExact (p : Setup) (t : Nat) (x : Fetched) : Prop where
  stored : (trace p t).memWrite =
    some (wordAddr (trace p t).M.valE, (pipeStageFetch p.imem x.pc).valP)
  transfer : ∃ z u, t + 1 < u ∧ (slotsAt p u).w = some z ∧
    (∀ v, t + 1 < v → v < u → (slotsAt p v).w = none) ∧
    z.pc = pcUpdate statAok (pipeStageFetch p.imem x.pc).icode (trace p t).M.cnd
      (pipeStageFetch p.imem x.pc).valC 0#64 (pipeStageFetch p.imem x.pc).valP x.pc ∧
    ∀ y : Fetched, x.cycle < y.cycle → y.cycle < z.cycle → ∀ t', ¬Writes p t' y

section

variable {p : Setup} {t : Nat} {x : Fetched}

theorem pcUpdate_call (cnd : Bool) (valC valM valP PC : Word) :
    pcUpdate statAok icCall cnd valC valM valP PC = valC := rfl

theorem memWrite_call {M : EM} (h : M.icode = icCall) :
    memWrite M = if addrValid M.valE then some (wordAddr M.valE, M.valP) else none := by
  simp +decide [memWrite, memControl, h]

/-- While D holds an instruction that is no `ret`, there is none in E or M either. -/
theorem not_retHazard_of_d {v : Nat} (hd : (slotsAt p v).d = some x)
    (hic : (pipeStageFetch p.imem x.pc).icode ≠ icRet) :
    retHazard (trace p v).D.icode (trace p v).E.icode (trace p v).M.icode = false := by
  have hx : x ∈ (slotsAt p v).inFlight := Slots.mem_inFlight.mpr (.inr (.inr (.inr hd)))
  have hs := shows_trace p v
  have hb := bubbles_trace p v
  -- an older `ret` would have kept `x` out of D
  have hno : ∀ r, (slotsAt p v).m = some r ∨ (slotsAt p v).e = some r → r.cycle < x.cycle →
      (pipeStageFetch p.imem r.pc).icode ≠ icRet := by
    intro r hr hlt hret
    have hmem : r ∈ (slotsAt p v).inFlight :=
      Slots.mem_inFlight.mpr (hr.elim (fun h => .inr (.inl h)) fun h => .inr (.inr (.inl h)))
    exact (held_of_retHazard (retHazard_of_mem_younger (mem_younger_of_lt (cycle_fetchedAt p) hmem
      hlt (stamp_lt_of_mem (cycle_fetchedAt p) hx)) hret)).1 (entersD_of_inFlight hx).1
  have hM : (trace p v).M.icode ≠ icRet := by
    cases hm : (slotsAt p v).m with
    | none => rw [(hb.m hm).1]; decide
    | some r =>
        rw [hs.m r hm]
        exact hno r (.inl hm) (stamp_lt_of_older (cycle_fetchedAt p) (.inr hm) (.inr hd))
  have hE : (trace p v).E.icode ≠ icRet := by
    cases he : (slotsAt p v).e with
    | none => rw [hb.e he]; decide
    | some r =>
        rw [hs.e r he]
        exact hno r (.inr he) (stamp_lt_of_e (cycle_fetchedAt p) he hd)
  have hD : (trace p v).D.icode ≠ icRet := by
    rw [hs.d x hd]
    exact hic
  simp [retHazard, hM, hE, hD]

/-- While D holds an instruction in place, nothing enters it and the PC stays. -/
theorem held_of_d {v u : Nat} (hd : (slotsAt p v).d = some x) (hxu : x.cycle < u) (huv : u < v) :
    ¬EntersD p u ∧ (trace p (u + 1)).fPc = (trace p u).fPc := by
  have hd' : (slotsAt p (u + 1)).d = some x :=
    d_of_lt (cycle_fetchedAt p) hd (Nat.lt_succ_of_lt hxu) huv
  obtain ⟨hs, -⟩ := stall_of_d_succ (cycle_fetchedAt p) hd' (Nat.ne_of_lt hxu)
  have hs' : (trace p u).control.dStall = true := hs
  exact ⟨not_entersD_of_held (.inr hs'), fPc_of_fStall (by rw [fStall_eq, hs', Bool.true_or])⟩

theorem fPc_of_d {v : Nat} (hd : (slotsAt p v).d = some x) :
    (trace p v).fPc = (trace p (x.cycle + 1)).fPc :=
  fPc_of_held (stamp_lt_of_mem (cycle_fetchedAt p)
    (Slots.mem_inFlight.mpr (.inr (.inr (.inr hd))))) fun _ hxu huv => (held_of_d hd hxu huv).2

/-- Behind a `call` in M, E holds the word at the address the PC had next, and nothing else has
entered D since. -/
theorem follower_of_call (hm : (slotsAt p t).m = some x) (hc : (trace p t).M.icode = icCall) :
    ∃ v, t = v + 2 ∧ (trace p t).M.valP = p.net (v + 1) ∧
      (slotsAt p t).e = some ⟨v, (trace p (x.cycle + 1)).fPc⟩ ∧
      ∀ u, x.cycle < u → u < v → ¬EntersD p u := by
  have hic : (pipeStageFetch p.imem x.pc).icode = icCall := ((shows_trace p t).m x hm).symm.trans hc
  obtain _ | _ | v := t
  · exact absurd hm.symm (Option.some_ne_none x)
  · exact absurd (e_of_m hm).2.1.symm (Option.some_ne_none x)
  obtain ⟨-, he, hM, he'⟩ := e_of_m hm
  obtain ⟨hb, hd⟩ := d_of_e he
  rw [eBubble_eq, Bool.or_eq_false_iff] at hb
  have hrh := not_retHazard_of_d hd (by rw [hic]; decide)
  have hbub : (trace p v).control.dBubble = false := by
    rw [dBubble_eq, hb.1, hrh, Bool.and_false, Bool.or_false]
  have henter : EntersD p v := (step_d_of_free hbub hb.2).2
  refine ⟨v, rfl, congrArg EM.valP hM, ?_, fun u h1 h2 => (held_of_d hd h1 h2).1⟩
  rw [he', henter, ← fPc_of_d hd]
  rfl

/-- The word in E behind a `call` in M retires right after it, unless it is a load with its user in
D. -/
theorem follower_retires (hc : (trace p t).M.icode = icCall) (hl : ¬(trace p t).LoadUse)
    {y : Fetched} (hy : (slotsAt p t).e = some y) :
    (slotsAt p (t + 2)).w = some y := by
  have hb : (trace p t).control.eBubble = false := by
    rw [← dStall_iff, Bool.not_eq_true] at hl
    rw [eBubble_eq, hl, hc]
    simp +decide [mispredicted]
  exact (step_em_of_free hb).2.2.2.trans hy

end

/-- When the word behind a `call` is not itself lost to a stall, the `call` does what it should if
and only if its destination is the address that was in the PC behind it, the undriven net carries
the address behind it in the clock in which it leaves E, and the new `%rsp` is a valid address. -/
theorem callExact_iff (p : Setup) (t : Nat) (x : Fetched) (hm : (slotsAt p t).m = some x)
    (hc : (trace p t).M.icode = icCall) (hl : ¬(trace p t).LoadUse) :
    CallExact p t x ↔
      (trace p (x.cycle + 1)).fPc = (pipeStageFetch p.imem x.pc).valC ∧
        p.net (t - 1) = (pipeStageFetch p.imem x.pc).valP ∧
        addrValid (trace p t).M.valE = true := by
  have hic : (pipeStageFetch p.imem x.pc).icode = icCall := ((shows_trace p t).m x hm).symm.trans hc
  obtain ⟨v, rfl, hvalP, he, hno⟩ := follower_of_call hm hc
  have hw := follower_retires hc hl he
  have hwr : (trace p (v + 2)).memWrite = if addrValid (trace p (v + 2)).M.valE then
      some (wordAddr (trace p (v + 2)).M.valE, p.net (v + 1)) else none := by
    rw [State.memWrite, memWrite_call hc, hvalP]
  constructor
  · rintro ⟨hst, z, u, htu, hz, hnone, hpc, -⟩
    have hu : u = v + 4 := by
      rcases Nat.lt_or_eq_of_le (show v + 4 ≤ u from htu) with h | h
      · have hno := hnone (v + 4) (by omega) h
        exact absurd (hw.symm.trans hno) (Option.some_ne_none _)
      · exact h.symm
    have hzy : z = ⟨v, (trace p (x.cycle + 1)).fPc⟩ := by
      rw [hu, hw, Option.some.injEq] at hz
      exact hz.symm
    rw [hzy, hic, pcUpdate_call] at hpc
    rw [hwr] at hst
    split at hst
    · next ha =>
        rw [Option.some.injEq, Prod.mk.injEq] at hst
        exact ⟨hpc, hst.2, ha⟩
    · exact absurd hst.symm (Option.some_ne_none _)
  · rintro ⟨hpc, hnet, ha⟩
    refine ⟨by rw [hwr, if_pos ha]; exact congrArg (fun w => some (_, w)) hnet,
      ⟨v, (trace p (x.cycle + 1)).fPc⟩, v + 4, by omega, hw, fun u h1 h2 => by omega, ?_, ?_⟩
    · rw [hic, pcUpdate_call]
      exact hpc
    · intro y h1 h2 t' hwrites
      exact hno y.cycle h1 h2 (entersD_of_inFlight (mem_inFlight_of_writes hwrites)).1

/-- `irmovq $256, %rsp`, `call 19`, where 19 is the address behind the `call` and on the net. -/
def callNext : Setup :=
  { Setup.ofBytes [0x30#8, 0xF4#8, 0x00#8, 0x01#8, 0#8, 0#8, 0#8, 0#8, 0#8, 0#8, 0x80#8, 0x13#8]
    with net := fun _ => 19#64 }

theorem callExact_callNext : CallExact callNext 4 ⟨1, 10#64⟩ :=
  (callExact_iff callNext 4 ⟨1, 10#64⟩ (by decide +kernel) (by decide +kernel)
    (by decide +kernel)).mpr (by decide +kernel)

/-- `irmovq $256, %rsp`, `call 32`. -/
def callOther : Setup := Setup.ofBytes
  [0x30#8, 0xF4#8, 0x00#8, 0x01#8, 0#8, 0#8, 0#8, 0#8, 0#8, 0#8, 0x80#8, 0x20#8]

/-- The instruction that retires behind the `call` is the one at 19, and what has been stored is
what the net carried. -/
theorem not_callExact_callOther : (slotsAt callOther 4).m = some ⟨1, 10#64⟩ ∧
    (trace callOther 4).M.icode = icCall ∧ (slotsAt callOther 6).w = some ⟨2, 19#64⟩ ∧
    ¬CallExact callOther 4 ⟨1, 10#64⟩ := by
  refine ⟨by decide +kernel, by decide +kernel, by decide +kernel, fun h => ?_⟩
  have hst := h.stored
  have hne : (trace callOther 4).memWrite ≠ some (wordAddr (trace callOther 4).M.valE,
      (pipeStageFetch callOther.imem 10#64).valP) := by decide +kernel
  exact hne hst

end MyCpu.Y86
