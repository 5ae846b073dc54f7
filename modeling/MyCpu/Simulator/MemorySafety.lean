import MyCpu.Simulator.Memory

/-!
# The host bytes a guest access touches

All five calls test the first byte of the access only, and `in_pmem` lets the address behind the end
through. So an access that starts inside `pmem` and ends outside touches foreign host bytes.

* `Call`, `Call.exec` : the five calls;
* `touched_exec` : the host bytes a call touches;
* `memorySafe_iff` : they are all in `pmem` exactly when the call does not overrun it.
-/

namespace MyCpu.Simulator

open Rv32 (Word)
open Bytes

/-! ## Calls -/

inductive Call
  | instrMemRead (addr : Word)
  | memRead (addr len : Word)
  | memWrite (addr data len : Word)
  | paddrRead (addr len : Word)
  | paddrWrite (addr len data : Word)

namespace Call

def exec (c : Config) (time : Word) : Call → Sim Unit
  | instrMemRead addr => discard (dpiInstrMemRead c addr)
  | memRead addr len => discard (dpiMemRead c time addr len)
  | memWrite addr data len => dpiMemWrite c addr data len
  | paddrRead addr len => discard (Simulator.paddrRead c addr len)
  | paddrWrite addr len data => Simulator.paddrWrite c addr len data

/-- Where the access starts: an instruction is read at an aligned address. -/
def addr : Call → Word
  | instrMemRead addr => addr &&& ~~~3#32
  | memRead addr _ | memWrite addr _ _ | paddrRead addr _ | paddrWrite addr _ _ => addr

def len : Call → Word
  | instrMemRead _ => 4#32
  | memRead _ len | memWrite _ _ len | paddrRead _ len | paddrWrite _ len _ => len

/-- The whole access is in `pmem`. -/
def Inside (c : Config) (k : Call) : Prop :=
  c.mbase ≤ k.addr.toNat ∧ k.addr.toNat + k.len.toNat ≤ c.mbase + c.msize

instance (c : Config) (k : Call) : Decidable (k.Inside c) := by unfold Inside; infer_instance

/-- The range tests let the call through to `pmem`, and it is for no device. -/
def Reaches (c : Config) : Call → Prop
  | instrMemRead addr => c.Serves addr
  | memRead addr _ =>
      ¬(rtcMmio.toNat ≤ addr.toNat ∧ addr.toNat < (rtcMmio + 4#32).toNat) ∧ c.Serves addr
  | memWrite addr _ _ => addr ≠ serialMmio ∧ c.Serves addr
  | paddrRead addr _ | paddrWrite addr _ _ =>
      c.mbase ≤ addr.toNat ∧ addr.toNat ≤ c.mbase + c.msize ∧ ¬c.Wraps

instance (c : Config) (k : Call) : Decidable (k.Reaches c) := by
  cases k <;> unfold Reaches <;> infer_instance

/-- It is let through and does not fit. -/
def Overruns (c : Config) (k : Call) : Prop := k.Reaches c ∧ ¬k.Inside c

end Call

/-- The host bytes the call touches. -/
def touched (f : Sim Unit) (s : HostState) : List Int :=
  ((f { s with touched := [] }).map fun r => r.2.touched).getD []

/-- Every host byte the call touches is in `pmem`, and an access that does not fit touches no byte
of `pmem`. -/
structure MemorySafe (c : Config) (time : Word) (k : Call) : Prop where
  bounds : ∀ s, ∀ o ∈ touched (k.exec c time) s, 0 ≤ o ∧ o < c.msize
  whole : ¬k.Inside c → ∀ s, ∀ o ∈ touched (k.exec c time) s, ¬(0 ≤ o ∧ o < c.msize)

/-! ## What is touched -/

section

variable {c : Config} {s s' : HostState}

theorem touched_of_run {f : Sim Unit} (h : f { s with touched := [] } = some ((), s')) :
    touched f s = s'.touched := by
  unfold touched
  rw [h]
  rfl

theorem touched_discard {f : Sim Word} {v : Word} (h : f { s with touched := [] } = some (v, s')) :
    touched (discard f) s = s'.touched := by
  apply touched_of_run
  show (f { s with touched := [] }).bind _ = _
  rw [h]
  rfl

theorem touched_pmemRead {len : Word} (h : IsLen len) (addr : Word) :
    touched (discard (pmemRead c addr len)) s = offsets (guestToHost c addr) len.toNat :=
  touched_discard (hostRead_eq h _ _)

theorem touched_pmemWrite {len : Word} (h : IsLen len) (addr data : Word) :
    touched (pmemWrite c addr len data) s = offsets (guestToHost c addr) len.toNat :=
  touched_of_run (hostWrite_eq h _ _ _)

theorem touched_pure (v : Word) : touched (discard (pure v : Sim Word)) s = [] := rfl

/-- A call `f` behind a range test `P` that comes to `Q`. -/
theorem touched_ite {α : Type} {P Q : Prop} [Decidable P] [Decidable Q] (h : P ↔ Q)
    (k : Sim α → Sim Unit) {f g : Sim α} {l : List Int} (hf : touched (k f) s = l)
    (hg : touched (k g) s = []) : touched (k (if P then f else g)) s = if Q then l else [] := by
  by_cases hP : P
  · rw [if_pos hP, if_pos (h.mp hP)]
    exact hf
  · rw [if_neg hP, if_neg (mt h.mpr hP)]
    exact hg

end

/-- A call that is let through touches its bytes, any other one nothing. -/
theorem touched_exec (c : Config) (time : Word) {k : Call} (hlen : IsLen k.len) (s : HostState) :
    touched (k.exec c time) s =
      if k.Reaches c then offsets (guestToHost c k.addr) k.len.toNat else [] := by
  cases k with
  | instrMemRead addr =>
      exact touched_ite Config.serves_iff discard (touched_pmemRead hlen _) (touched_pure _)
  | memRead addr len =>
      show touched (discard (dpiMemRead c time addr len)) s = _
      unfold dpiMemRead
      by_cases hrtc : rtcMmio.toNat ≤ addr.toNat ∧ addr.toNat < (rtcMmio + 4#32).toNat
      · rw [if_pos hrtc]
        exact (touched_pure _).trans (if_neg fun h => h.1 hrtc).symm
      · rw [if_neg hrtc]
        exact touched_ite (Config.serves_iff_cast.trans (and_iff_right hrtc).symm) discard
          (touched_pmemRead hlen _) (touched_pure _)
  | memWrite addr data len =>
      show touched (dpiMemWrite c addr data len) s = _
      unfold dpiMemWrite
      by_cases hser : addr = serialMmio
      · rw [if_pos hser]
        exact Eq.trans rfl (if_neg fun h => h.1 hser).symm
      · rw [if_neg hser]
        exact touched_ite (Config.serves_iff_cast.trans (and_iff_right hser).symm) id
          (touched_pmemWrite hlen _ _) rfl
  | paddrRead addr len =>
      refine touched_ite inPmem_iff discard (touched_pmemRead hlen _) ?_
      cases c.mmioRead <;> rfl
  | paddrWrite addr len data =>
      exact touched_ite inPmem_iff id (touched_pmemWrite hlen _ _) rfl

/-! ## Safety -/

/-- In every configuration and for every address, the host bytes a call of 1, 2 or 4 bytes touches are
as they should be exactly when it does not both start where the range tests let it through and end,
or start after alignment, outside `pmem`. -/
theorem memorySafe_iff (c : Config) (time : Word) (k : Call) (hlen : IsLen k.len) :
    MemorySafe c time k ↔ ¬k.Overruns c := by
  have hpos : 0 < k.len.toNat := by
    rcases hlen with h | h | h <;> rw [h] <;> decide
  have hoff : guestToHost c k.addr = k.addr.toNat - c.mbase := rfl
  constructor
  · rintro h ⟨hr, hin⟩
    have hbounds : ∀ o ∈ offsets (guestToHost c k.addr) k.len.toNat, 0 ≤ o ∧ o < c.msize := by
      intro o ho
      refine h.bounds ⟨fun _ => 0#8, [], []⟩ o ?_
      rwa [touched_exec c time hlen, if_pos hr]
    have hfirst := hbounds (guestToHost c k.addr) (mem_offsets.mpr (by omega))
    have hlast := hbounds (guestToHost c k.addr + (k.len.toNat - 1 : Nat)) (mem_offsets.mpr (by omega))
    refine hin ⟨?_, ?_⟩ <;> omega
  · intro h
    have htouched : ∀ s, ∀ o ∈ touched (k.exec c time) s,
        k.Inside c ∧ guestToHost c k.addr ≤ o ∧ o < guestToHost c k.addr + k.len.toNat := by
      intro s o ho
      rw [touched_exec c time hlen] at ho
      split_ifs at ho with hr
      · exact ⟨not_not.mp fun hin => h ⟨hr, hin⟩, mem_offsets.mp ho⟩
      · exact absurd ho List.not_mem_nil
    constructor
    · intro s o ho
      obtain ⟨⟨h1, h2⟩, h3, h4⟩ := htouched s o ho
      omega
    · intro hin s o ho
      exact absurd (htouched s o ho).1 hin

/-- A word that is read inside `pmem` is safe. -/
theorem memorySafe_dram : MemorySafe dram 0#32 (.memRead 0x80000004#32 4#32) :=
  (memorySafe_iff dram 0#32 (.memRead 0x80000004#32 4#32) (.inr (.inr rfl))).mpr
    fun h => h.2 (by decide)

/-- A word that is read at the last byte reaches three bytes further. -/
theorem not_memorySafe_dram : ¬MemorySafe dram 0#32 (.memRead 0x87ffffff#32 4#32) := by
  intro h
  have hmem : (0x8000000 : Int) ∈
      touched (Call.exec dram 0#32 (.memRead 0x87ffffff#32 4#32)) ⟨fun _ => 0#8, [], []⟩ := by
    decide +kernel
  exact absurd (h.bounds _ _ hmem).2 (by decide)

end MyCpu.Simulator
