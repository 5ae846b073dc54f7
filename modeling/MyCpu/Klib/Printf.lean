import MyCpu.Klib.Decimal

/-!
# `vsprintf` and `printf`

`klib/src/stdio.c` on the riscv32 target. The format and the strings that are arguments are in the
caller's memory `m`; the output array and the arrays for numerals are objects of their own, indexed
from 0. The arguments are words, numbered as the calling convention numbers them: each `int`,
`unsigned` or pointer is one word, a 64-bit argument two of which the first has an even number.
`out_index` goes round as the 32-bit addition of the target does.

* `Scan` : the variables of the loop, and the places of the format it has read;
* `conversion`, `vsprintfRound`, `vsprintf`, `sprintf` : the formatter;
* `printf` : the formatter into a local array, and the characters that are put out.
-/

namespace MyCpu.Klib

open Bytes Loop
open Rv32 (Word)

/-- `fmt`, `ap` (the next argument word), `out_index` and `out`. -/
structure Scan where
  fmt : Int
  ap : Nat
  outIndex : Int
  out : Buffer
  seen : List Int

/-- `*fmt` is read. -/
def Scan.look (v : Scan) : Scan := { v with seen := v.seen ++ [v.fmt] }

/-- `fmt++`. -/
def Scan.advance (v : Scan) : Scan := { v with fmt := v.fmt + 1 }

/-- `out[out_index++] = c`. -/
def Scan.putChar (v : Scan) (c : Byte) : Scan :=
  { v with out := v.out.set v.outIndex c, outIndex := toInt32 (v.outIndex + 1) }

/-- `strcpy(out + out_index, s); out_index += strlen(s)`, with `s` in the memory `ms`. -/
def Scan.putStr (v : Scan) (ms : Memory) (s : Ptr) : Fueled Scan := do
  let out ← strcpy v.out v.outIndex ms s
  let len ← strlen ms s
  return { v with out := out, outIndex := toInt32 (v.outIndex + len) }

/-- The pointer that a word is. -/
def ptr (a : Word) : Ptr := if a = 0 then none else some a.toNat

/-- `BUF_SIZE`. -/
def bufSize : Int := 1024

/-- A local array of `BUF_SIZE` bytes that starts as zeros. -/
def localArray : Memory := fun _ => 0

section

variable (m : Memory) (w : Nat → Word)

/-- `va_arg(ap, int)` and `va_arg(ap, char *)`. -/
def Scan.vaArg (v : Scan) : Word × Scan := (w v.ap, { v with ap := v.ap + 1 })

/-- `va_arg(ap, uint64_t)`: the next word with an even number, and the one after it. -/
def Scan.vaArg64 (v : Scan) : BitVec 64 × Scan :=
  let k := v.ap + v.ap % 2
  (w (k + 1) ++ w k, { v with ap := k + 2 })

/-- The `switch (*fmt)` after a `%`. -/
def conversion (v : Scan) : Fueled Scan :=
  let c := m v.fmt
  if c = chr 'd' then do
    let (num, v) := v.vaArg w
    let s ← intToStr localArray (some 0) num
    v.putStr s (some 0)
  else if c = chr 's' then
    let (str, v) := v.vaArg w
    v.putStr m (ptr str)
  else if c = chr 'u' then do
    let (num, v) := v.vaArg64 w
    let s ← uintToStr localArray (some 0) (num.setWidth 32)
    v.putStr s (some 0)
  else return v.putChar c

/-- A round of the loop. A character that is read again is not recorded again. -/
def vsprintfRound (v : Scan) : Fueled (Scan ⊕ Scan) :=
  let v := v.look
  if m v.fmt = 0 then return .inr v
  else if m v.fmt = chr '%' then do
    let v ← conversion m w v.advance.look
    return .inl v.advance
  else return .inl (v.putChar (m v.fmt)).advance

/-- The state at the end, and the result. -/
def vsprintf (out : Buffer) (fmt : Int) (ap : Nat) : Fueled (Scan × Int) := do
  let v ← loop (vsprintfRound m w) ⟨fmt, ap, 0, out, []⟩
  return ({ v with out := v.out.set v.outIndex 0 }, v.outIndex)

/-- `out` and `fmt` are the words 0 and 1. -/
def sprintf (out : Buffer) (fmt : Int) : Fueled (Scan × Int) := vsprintf m w out fmt 2

/-- `putch(out[i])`, on the index and what the console has been given. -/
def printfRound (out : Memory) (num : Int) :
    Int × List Byte → Fueled ((Int × List Byte) ⊕ List Byte)
  | (i, console) =>
      if i < num then do return .inl (← int (i + 1), console ++ [out i]) else return .inr console

/-- `fmt` is the word 0. The state of `vsprintf`, the console and the result. -/
def printf (fmt : Int) (console : List Byte) : Fueled (Scan × List Byte × Int) := do
  let (v, num) ← vsprintf m w ⟨localArray, []⟩ fmt 1
  let console ← loop (printfRound v.out.bytes num) (0, console)
  return (v, console, num)

end

end MyCpu.Klib
