import Mathlib.Logic.Function.Basic

/-!
# The byte memory behind the DPI calls

The CPUs reach memory through `dpi_instr_mem_read`, `dpi_mem_read` and `dpi_mem_write`
(`simulator/src/npc/dpi.c`), which end in the host accesses of `simulator/src/memory/memory.c`.
Here that memory is a plain array of bytes over the whole 32-bit address space: no devices and no
end of `pmem`.

* `hostRead`, `hostWrite` : little-endian accesses of 1, 2 or 4 bytes;
* `dpiInstrMemRead`, `dpiMemRead`, `dpiMemWrite` : the calls the modules make;
* `WriteCall` : the arguments of one `dpi_mem_write`.
-/

namespace MyCpu.Rv32

abbrev Word := BitVec 32
abbrev Byte := BitVec 8

/-- One byte for every guest address. -/
abbrev Mem := Word → Byte

/-- `host_read`: the bytes from `addr` on, the first one least significant, zero extended. -/
def hostRead (m : Mem) (addr len : Word) : Word :=
  if len = 1#32 then (m addr).setWidth 32
  else if len = 2#32 then (m (addr + 1#32) ++ m addr).setWidth 32
  else m (addr + 3#32) ++ (m (addr + 2#32) ++ (m (addr + 1#32) ++ m addr))

/-- `host_write`: the low `len` bytes of `data`, the least significant one at `addr`. -/
def hostWrite (m : Mem) (addr len data : Word) : Mem :=
  let m1 := Function.update m addr (data.extractLsb' 0 8)
  if len = 1#32 then m1
  else
    let m2 := Function.update m1 (addr + 1#32) (data.extractLsb' 8 8)
    if len = 2#32 then m2
    else
      Function.update (Function.update m2 (addr + 2#32) (data.extractLsb' 16 8)) (addr + 3#32)
        (data.extractLsb' 24 8)

/-- Instructions are read at the address with its two low bits cleared. -/
def dpiInstrMemRead (m : Mem) (addr : Word) : Word := hostRead m (addr &&& ~~~3#32) 4#32

def dpiMemRead (m : Mem) (addr len : Word) : Word := hostRead m addr len

/-- The arguments of one call of `dpi_mem_write`. -/
structure WriteCall where
  addr : Word
  data : Word
  len : Word
  pc : BitVec 64
  deriving DecidableEq

def dpiMemWrite (m : Mem) (c : WriteCall) : Mem := hostWrite m c.addr c.len c.data

/-- The memory after the posedge at which the memory stage makes the call `c`, if it makes one. -/
def Mem.after (m : Mem) : Option WriteCall → Mem
  | none => m
  | some c => dpiMemWrite m c

/-- The memory image that holds the given words from `base` on, and zeros elsewhere. -/
def Mem.ofWords (base : Word) (ws : List Word) : Mem := fun a =>
  (ws.getD ((a - base).toNat / 4) 0#32).extractLsb' (8 * ((a - base).toNat % 4)) 8

end MyCpu.Rv32
