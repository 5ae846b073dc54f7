import MyCpu.Rv32.SingleCycleIsa
import MyCpu.Simulator.InstrTrace
import MyCpu.Klib.Copy
import MyCpu.Klib.Compare
import MyCpu.Klib.PrintfBounds
import MyCpu.Rv32.Commit
import MyCpu.Rv32.CycleAccounting
import MyCpu.Y86.Call
import MyCpu.Y86.Exceptions
import MyCpu.Y86.StraightLine
import MyCpu.Y86.Status
import MyCpu.Y86.Operands
import MyCpu.Y86.Stopped
import MyCpu.Y86.StatusAlike
import MyCpu.Y86.SingleCycleConditions
import MyCpu.Y86.SingleCycleIsa
import MyCpu.Rv32.CsrOps
import MyCpu.Simulator.MemorySafety
import MyCpu.Simulator.LoadStore
import MyCpu.Rv32.Akun.Conformance
import MyCpu.Rv32.Akun.ProgramOrder
import MyCpu.Rv32.Akun.Refinement
import MyCpu.Rv32.Akun.Delivery
import MyCpu.Runtime.Calls
import MyCpu.Simulator.Session
import MyCpu.Runtime.Int64
import MyCpu.Rv32.Akun.Execution
import MyCpu.Klib.Random
import MyCpu.Klib.Atoi
import MyCpu.Klib.Append
import MyCpu.Runtime.AsmTrap
import MyCpu.Y86.Designs
