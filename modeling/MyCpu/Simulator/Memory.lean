import Mathlib.Algebra.Group.Nat.Defs
import MyCpu.Bytes.LittleEndian
import MyCpu.Rv32.Memory

/-!
# Guest memory in the simulator

`simulator/src/memory/memory.c` and the memory calls of `simulator/src/npc/dpi.c`, down to the host
bytes they touch. A host address is the distance from the start of `pmem`, so that `pmem` is the
addresses from 0 to `CONFIG_MSIZE - 1`; what lies around it is memory as well. `CONFIG_MBASE` and
`CONFIG_MSIZE` come from a generated header and are parameters, as is `mmio_read`, which the source
only names.

* `Sim` : a call, with the host bytes it changes and touches, and whether an assertion ends it;
* `hostRead` to `paddrWrite`, `dpiInstrMemRead`, `dpiMemRead`, `dpiMemWrite` : the calls;
* `hostRead_eq`, `hostWrite_eq` : what an access of 1, 2 or 4 bytes does;
* `Config.serves_iff`, `inPmem_iff` : what the range tests come to.
-/

namespace MyCpu.Simulator

open Rv32 (Word)
open Bytes

/-- `CONFIG_MBASE`, `CONFIG_MSIZE`, and `mmio_read` when `CONFIG_DEVICE` is defined. -/
structure Config where
  mbase : Nat
  msize : Nat
  mmioRead : Option (Word → Word → Word)
  fits : mbase + msize ≤ 2 ^ 32

/-- The constants in `utils/common.h`: 128 MiB at 0x80000000. -/
def dram : Config := ⟨0x80000000, 0x8000000, none, by decide⟩

/-- The host bytes, those touched so far, and what has been printed to the serial port. -/
structure HostState where
  mem : Memory
  touched : List Int
  serial : List Byte

/-- A call that ends early when an assertion fails. -/
abbrev Sim := StateT HostState Option

/-! ## Host bytes -/

def loadByte (a : Int) : Sim Byte := fun s => some (s.mem a, { s with touched := s.touched ++ [a] })

def storeByte (a : Int) (b : Byte) : Sim Unit := fun s =>
  some ((), { s with mem := Function.update s.mem a b, touched := s.touched ++ [a] })

/-- A load of an integer of `n` bytes; the host is little-endian. -/
def load (a : Int) : (n : Nat) → Sim (BitVec (8 * n))
  | 0 => pure 0#0
  | n + 1 => do
      let lo ← loadByte a
      let hi ← load (a + 1) n
      return hi ++ lo

def store (a : Int) : (n : Nat) → BitVec (8 * n) → Sim Unit
  | 0, _ => pure ()
  | n + 1, v => do
      storeByte a (getByte v 0)
      store (a + 1) n (v.extractLsb' 8 (8 * n))

/-! ## `memory.c` -/

def guestToHost (c : Config) (paddr : Word) : Int := paddr.toNat - c.mbase

/-- `reg_t` has 32 bits. -/
def hostRead (addr : Int) (len : Word) : Sim Word :=
  if len = 1#32 then do return (← load addr 1).setWidth 32
  else if len = 2#32 then do return (← load addr 2).setWidth 32
  else if len = 4#32 then do return (← load addr 4).setWidth 32
  else if len = 8#32 then do return (← load addr 8).setWidth 32
  else failure

def hostWrite (addr : Int) (len data : Word) : Sim Unit :=
  if len = 1#32 then store addr 1 (data.setWidth 8)
  else if len = 2#32 then store addr 2 (data.setWidth 16)
  else if len = 4#32 then store addr 4 (data.setWidth 32)
  else if len = 8#32 then store addr 8 (data.setWidth 64)
  else failure

/-- `CONFIG_MBASE + CONFIG_MSIZE`: a sum in 32 bits when both constants have no more. -/
def Config.pmemEnd (c : Config) : Nat :=
  if c.mbase < 2 ^ 32 ∧ c.msize < 2 ^ 32 then (c.mbase + c.msize) % 2 ^ 32 else c.mbase + c.msize

/-- `(uint32_t)CONFIG_MBASE + CONFIG_MSIZE`. -/
def Config.pmemEndCast (c : Config) : Nat :=
  if c.msize < 2 ^ 32 then (c.mbase % 2 ^ 32 + c.msize) % 2 ^ 32 else c.mbase % 2 ^ 32 + c.msize

def inPmem (c : Config) (addr : Word) : Bool := c.mbase ≤ addr.toNat ∧ addr.toNat ≤ c.pmemEnd

def pmemRead (c : Config) (addr len : Word) : Sim Word := hostRead (guestToHost c addr) len

def pmemWrite (c : Config) (addr len data : Word) : Sim Unit := hostWrite (guestToHost c addr) len data

def paddrRead (c : Config) (addr len : Word) : Sim Word :=
  if inPmem c addr then pmemRead c addr len
  else match c.mmioRead with
    | some mmioRead => return mmioRead addr len
    | none => return 0#32

/-- `mmio_write` is left out: it is not part of the source. -/
def paddrWrite (c : Config) (addr len data : Word) : Sim Unit :=
  if inPmem c addr then pmemWrite c addr len data else pure ()

/-! ## `dpi.c` -/

def dpiInstrMemRead (c : Config) (addr : Word) : Sim Word :=
  if c.mbase ≤ addr.toNat ∧ addr.toNat < c.pmemEnd then pmemRead c (addr &&& ~~~3#32) 4#32
  else return 0#32

/-- `CONFIG_RTC_MMIO`. -/
abbrev rtcMmio : Word := 0xa0000048#32

/-- `CONFIG_SERIAL_MMIO`. -/
abbrev serialMmio : Word := 0xa00003f8#32

/-- `time` is what `get_time` returns; `pc` is only printed. -/
def dpiMemRead (c : Config) (time addr len : Word) : Sim Word :=
  if rtcMmio.toNat ≤ addr.toNat ∧ addr.toNat < (rtcMmio + 4#32).toNat then return time
  else if c.mbase ≤ addr.toNat ∧ addr.toNat < c.pmemEndCast then pmemRead c addr len
  else return 0#32

def dpiMemWrite (c : Config) (addr data len : Word) : Sim Unit :=
  if addr = serialMmio then modify fun s => { s with serial := s.serial ++ [data.setWidth 8] }
  else if c.mbase ≤ addr.toNat ∧ addr.toNat < c.pmemEndCast then pmemWrite c addr len data
  else pure ()

/-! ## Accesses -/

/-- The addresses of `n` bytes from `a` on. -/
def offsets (a : Int) : Nat → List Int
  | 0 => []
  | n + 1 => a :: offsets (a + 1) n

theorem mem_offsets {a o : Int} {n : Nat} : o ∈ offsets a n ↔ a ≤ o ∧ o < a + n := by
  induction n generalizing a with
  | zero => exact iff_of_false List.not_mem_nil (by omega)
  | succ n ih =>
      rw [offsets, List.mem_cons, ih]
      omega

section

variable {α β : Type} {s s' : HostState}

theorem bind_run {x : Sim α} {a : α} (h : x s = some (a, s')) (f : α → Sim β) :
    (x >>= f) s = f a s' := by
  show (x s).bind _ = _
  rw [h]
  rfl

theorem load_run (a : Int) (n : Nat) (s : HostState) :
    load a n s = some (read s.mem a n, { s with touched := s.touched ++ offsets a n }) := by
  induction n generalizing a s with
  | zero =>
      rw [offsets, List.append_nil]
      rfl
  | succ n ih =>
      refine (bind_run rfl _).trans ((bind_run (ih (a + 1) _) _).trans ?_)
      rw [offsets, List.append_cons s.touched a (offsets (a + 1) n)]
      rfl

theorem store_run (a : Int) (n : Nat) (v : BitVec (8 * n)) (s : HostState) : store a n v s =
    some ((), { s with mem := write s.mem a v, touched := s.touched ++ offsets a n }) := by
  induction n generalizing a s with
  | zero =>
      have hw : write s.mem a v = s.mem := funext fun x => write_of_not_covered s.mem v (by omega)
      rw [hw, offsets, List.append_nil]
      rfl
  | succ n ih =>
      refine (bind_run rfl _).trans ((ih (a + 1) _ _).trans ?_)
      rw [offsets, List.append_cons s.touched a (offsets (a + 1) n), write_succ]

/-- The lengths the CPUs ask for. -/
def IsLen (len : Word) : Prop := len = 1#32 ∨ len = 2#32 ∨ len = 4#32

theorem hostRead_eq {len : Word} (h : IsLen len) (addr : Int) (s : HostState) : hostRead addr len s =
    some ((read s.mem addr len.toNat).setWidth 32,
      { s with touched := s.touched ++ offsets addr len.toNat }) := by
  rcases h with rfl | rfl | rfl
  · exact bind_run (load_run addr 1 s) _
  · exact bind_run (load_run addr 2 s) _
  · exact bind_run (load_run addr 4 s) _

theorem hostWrite_eq {len : Word} (h : IsLen len) (addr : Int) (data : Word) (s : HostState) :
    hostWrite addr len data s = some ((), { s with
      mem := write s.mem addr (data.setWidth (8 * len.toNat))
      touched := s.touched ++ offsets addr len.toNat }) := by
  rcases h with rfl | rfl | rfl
  · exact store_run addr 1 _ s
  · exact store_run addr 2 _ s
  · exact store_run addr 4 _ s

end

/-! ## Range tests -/

namespace Config

variable (c : Config)

/-- The end of `pmem` is 2^32 and its sum has 32 bits: the tests compare with 0. -/
def Wraps : Prop := c.mbase + c.msize = 2 ^ 32 ∧ c.msize < 2 ^ 32

instance : Decidable c.Wraps := by unfold Wraps; infer_instance

/-- The addresses of `pmem`, unless the tests let none through. -/
def Serves (addr : Word) : Prop :=
  c.mbase ≤ addr.toNat ∧ addr.toNat < c.mbase + c.msize ∧ ¬c.Wraps

instance (addr : Word) : Decidable (c.Serves addr) := by unfold Serves; infer_instance

variable {c} {addr : Word}

theorem serves_iff : c.mbase ≤ addr.toNat ∧ addr.toNat < c.pmemEnd ↔ c.Serves addr := by
  have hfits := c.fits
  have hlt := addr.isLt
  unfold Serves Wraps pmemEnd
  split_ifs <;> omega

theorem serves_iff_cast : c.mbase ≤ addr.toNat ∧ addr.toNat < c.pmemEndCast ↔ c.Serves addr := by
  have hfits := c.fits
  have hlt := addr.isLt
  unfold Serves Wraps pmemEndCast
  split_ifs <;> omega

end Config

/-- The test in `paddr_read` and `paddr_write` lets one address more through. -/
theorem inPmem_iff {c : Config} {addr : Word} :
    inPmem c addr = true ↔ c.mbase ≤ addr.toNat ∧ addr.toNat ≤ c.mbase + c.msize ∧ ¬c.Wraps := by
  have hfits := c.fits
  have hlt := addr.isLt
  unfold inPmem Config.Wraps Config.pmemEnd
  rw [decide_eq_true_iff]
  split_ifs <;> omega

end MyCpu.Simulator
