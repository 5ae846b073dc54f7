import MyCpu.Simulator.Difftest
import MyCpu.Simulator.Memory

/-!
# Which addresses are devices

The DPI calls know a clock at `CONFIG_RTC_MMIO` and a serial port at `CONFIG_SERIAL_MMIO`. Difftest
takes 0x10000000 to 0x7fffffff for devices, and neither of the two is there.

* `Target`, `target` : what serves a load or a store;
* `dpiMemRead_eq`, `dpiMemWrite_eq` : that it does;
* `deviceAgree_iff` : when difftest agrees.
-/

namespace MyCpu.Simulator

open Rv32 (Word)

inductive Target
  | device | pmem | unmapped
  deriving DecidableEq

/-- An address of the clock. -/
def IsRtc (addr : Word) : Prop := 0xa0000048 ≤ addr.toNat ∧ addr.toNat < 0xa000004c

instance (addr : Word) : Decidable (IsRtc addr) := by unfold IsRtc; infer_instance

/-- What serves `dpi_mem_read`. -/
def readTarget (c : Config) (addr : Word) : Target :=
  if IsRtc addr then .device else if c.Serves addr then .pmem else .unmapped

/-- What serves `dpi_mem_write`. -/
def writeTarget (c : Config) (addr : Word) : Target :=
  if addr = serialMmio then .device else if c.Serves addr then .pmem else .unmapped

/-- What serves the committed load or store. -/
def target (c : Config) (commit : Commit) : Target :=
  if getOpcode commit.instr = opLoad then readTarget c commit.memAddr else writeTarget c commit.memAddr

/-- Difftest takes for a device what a device serves, and not what `pmem` serves. -/
structure DeviceAgree (c : Config) (commit : Commit) : Prop where
  device : target c commit = .device → isSpecialInstr commit = true
  pmem : target c commit = .pmem → isSpecialInstr commit = false

/-! ## Targets -/

section

variable (c : Config) (addr : Word)

theorem dpiMemRead_eq (time len : Word) : dpiMemRead c time addr len =
    match readTarget c addr with
    | .device => pure time
    | .pmem => pmemRead c addr len
    | .unmapped => pure 0#32 := by
  unfold dpiMemRead readTarget
  by_cases hrtc : IsRtc addr
  · rw [if_pos hrtc]
    exact if_pos hrtc
  rw [if_neg hrtc]
  refine (if_neg hrtc).trans ?_
  by_cases h : c.Serves addr
  · rw [if_pos h, if_pos (Config.serves_iff_cast.mpr h)]
  · rw [if_neg h, if_neg (mt Config.serves_iff_cast.mp h)]

theorem dpiMemWrite_eq (data len : Word) : dpiMemWrite c addr data len =
    match writeTarget c addr with
    | .device => modify fun s => { s with serial := s.serial ++ [data.setWidth 8] }
    | .pmem => pmemWrite c addr len data
    | .unmapped => pure () := by
  unfold dpiMemWrite writeTarget
  by_cases hser : addr = serialMmio
  · rw [if_pos hser, if_pos hser]
  rw [if_neg hser, if_neg hser]
  by_cases h : c.Serves addr
  · rw [if_pos h, if_pos (Config.serves_iff_cast.mpr h)]
  · rw [if_neg h, if_neg (mt Config.serves_iff_cast.mp h)]

theorem readTarget_iff : (readTarget c addr = .device ↔ IsRtc addr) ∧
    (readTarget c addr = .pmem ↔ ¬IsRtc addr ∧ c.Serves addr) := by
  unfold readTarget
  split_ifs with hrtc h
  · simp [hrtc]
  · simp [hrtc, h]
  · simp [hrtc, h]

theorem writeTarget_iff : (writeTarget c addr = .device ↔ addr = serialMmio) ∧
    (writeTarget c addr = .pmem ↔ addr ≠ serialMmio ∧ c.Serves addr) := by
  unfold writeTarget
  split_ifs with hser h
  · simp [hser]
  · simp [hser, h]
  · simp [hser, h]

end

/-! ## Difftest -/

/-- The committed instruction is a load from the clock or a store to the serial port. -/
def DeviceAccess (commit : Commit) : Prop :=
  getOpcode commit.instr = opLoad ∧ IsRtc commit.memAddr ∨
    getOpcode commit.instr = opStore ∧ commit.memAddr = serialMmio

theorem isMmioAddress_iff (addr : Word) : isMmioAddress (addr.setWidth 64) = true ↔
    0x10000000 ≤ addr.toNat ∧ addr.toNat < 0x80000000 := by
  have hlt := addr.isLt
  have hmod : addr.toNat % 18446744073709551616 = addr.toNat := Nat.mod_eq_of_lt (by omega)
  unfold isMmioAddress
  simp only [BitVec.ult, Bool.and_eq_true, Bool.not_eq_true', decide_eq_true_iff,
    decide_eq_false_iff_not, BitVec.toNat_setWidth, BitVec.toNat_ofNat, Nat.reducePow, hmod]
  omega

theorem isSpecialInstr_of_access {commit : Commit}
    (h : getOpcode commit.instr = opLoad ∨ getOpcode commit.instr = opStore) :
    isSpecialInstr commit = isMmioAddress (commit.memAddr.setWidth 64) := by
  unfold isSpecialInstr
  dsimp only
  rw [if_neg, if_pos h]
  rintro ⟨hsys, -⟩
  rw [hsys] at h
  exact absurd h (by decide)

theorem target_device_iff {c : Config} {commit : Commit}
    (h : getOpcode commit.instr = opLoad ∨ getOpcode commit.instr = opStore) :
    target c commit = .device ↔ DeviceAccess commit := by
  unfold target DeviceAccess
  rcases h with h | h
  · rw [if_pos h, (readTarget_iff c _).1]
    refine ⟨fun hr => .inl ⟨h, hr⟩, ?_⟩
    rintro (⟨-, hr⟩ | ⟨hst, -⟩)
    · exact hr
    · exact absurd (h.symm.trans hst) (by decide)
  · rw [if_neg (by rw [h]; decide), (writeTarget_iff c _).1]
    refine ⟨fun hr => .inr ⟨h, hr⟩, ?_⟩
    rintro (⟨hld, -⟩ | ⟨-, hr⟩)
    · exact absurd (h.symm.trans hld) (by decide)
    · exact hr

theorem target_pmem_iff {c : Config} {commit : Commit}
    (h : getOpcode commit.instr = opLoad ∨ getOpcode commit.instr = opStore) :
    target c commit = .pmem ↔ ¬DeviceAccess commit ∧ c.Serves commit.memAddr := by
  rw [← target_device_iff (c := c) h]
  unfold target
  rcases h with h | h
  · rw [if_pos h, (readTarget_iff c _).1, (readTarget_iff c _).2]
  · rw [if_neg (by rw [h]; decide), (writeTarget_iff c _).1, (writeTarget_iff c _).2]

/-- No device is where difftest looks for devices. -/
theorem not_mmio_of_device {commit : Commit} (h : DeviceAccess commit) :
    ¬(0x10000000 ≤ commit.memAddr.toNat ∧ commit.memAddr.toNat < 0x80000000) := by
  rcases h with ⟨-, h⟩ | ⟨-, h⟩
  · unfold IsRtc at h
    omega
  · rw [h]
    decide

/-- Difftest and the DPI calls agree about a load or a store exactly when it is for no device, and
`pmem` does not serve it from 0x10000000 to 0x7fffffff. -/
theorem deviceAgree_iff (c : Config) (commit : Commit)
    (h : getOpcode commit.instr = opLoad ∨ getOpcode commit.instr = opStore) :
    DeviceAgree c commit ↔ ¬DeviceAccess commit ∧
      (c.Serves commit.memAddr →
        ¬(0x10000000 ≤ commit.memAddr.toNat ∧ commit.memAddr.toNat < 0x80000000)) := by
  have hspec := isSpecialInstr_of_access h
  constructor
  · rintro ⟨hdev, hpm⟩
    have hno : ¬DeviceAccess commit := by
      intro ha
      have hmmio := hdev ((target_device_iff h).mpr ha)
      rw [hspec, isMmioAddress_iff] at hmmio
      exact not_mmio_of_device ha hmmio
    refine ⟨hno, fun hs hmmio => ?_⟩
    have hfalse := hpm ((target_pmem_iff h).mpr ⟨hno, hs⟩)
    rw [hspec, (isMmioAddress_iff _).mpr hmmio] at hfalse
    exact Bool.false_ne_true hfalse.symm
  · rintro ⟨hno, hpm⟩
    constructor
    · intro ht
      exact absurd ((target_device_iff h).mp ht) hno
    · intro ht
      rw [hspec, ← Bool.not_eq_true, isMmioAddress_iff]
      exact hpm ((target_pmem_iff h).mp ht).2

/-- `sb x0, 0(x1)` at the address. -/
def storeCommit (addr : Word) : Commit :=
  ⟨0x80000000#32, 0x80000004#32, 0x00008023#32, addr, 0#32, 0#32⟩

theorem deviceAgree_dram : DeviceAgree dram (storeCommit 0x80001000#32) :=
  (deviceAgree_iff dram (storeCommit 0x80001000#32) (.inr (by decide))).mpr
    ⟨fun h => h.elim (fun h' => absurd h'.1 (by decide)) fun h' => absurd h'.2 (by decide),
      fun _ => by decide⟩

/-- A store to the serial port prints, and the reference is not synchronised. -/
theorem not_deviceAgree_serial : target dram (storeCommit serialMmio) = .device ∧
    isSpecialInstr (storeCommit serialMmio) = false ∧ ¬DeviceAgree dram (storeCommit serialMmio) := by
  have hdev : target dram (storeCommit serialMmio) = .device := by decide
  have hspec : isSpecialInstr (storeCommit serialMmio) = false := by decide
  refine ⟨hdev, hspec, fun h => ?_⟩
  rw [h.device hdev] at hspec
  contradiction

end MyCpu.Simulator
