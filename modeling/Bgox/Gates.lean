import Bgox.Interrupts
import Bgox.Lib.Table

/-!
# Descriptor tables

`setup_gate` and `idt_init` of `sys/idt.c`, and `init_gdt` and `set_tss_rsp` of `sys/gdt.c`: the
tables the processor goes by on an interrupt, when it loads a segment, and when a program uses a
port.  An entry is a structure of bit-fields; the processor reads it as a number.

What the processor does is as in its manual for 64-bit mode.
-/

namespace Bgox

open Bits (field pack)

/-! ## The tables -/

/-- `struct gate_str`. -/
structure GateStr where
  offsetLow : ℕ := 0
  selector : ℕ := 0
  ist : ℕ := 0
  reserved0 : ℕ := 0
  typeAttr : ℕ := 0
  zero : ℕ := 0
  dpl : ℕ := 0
  p : ℕ := 0
  offsetMid : ℕ := 0
  offsetHigh : ℕ := 0
  reserved1 : ℕ := 0
  deriving DecidableEq, Repr

def GateStr.bits (g : GateStr) : ℕ :=
  pack [(16, g.offsetLow), (16, g.selector), (3, g.ist), (5, g.reserved0), (4, g.typeAttr),
    (1, g.zero), (2, g.dpl), (1, g.p), (16, g.offsetMid), (32, g.offsetHigh), (32, g.reserved1)]

/-- `struct sys_segment_descriptor`. -/
structure SysSegmentDescriptor where
  loLimit : ℕ
  loBase : ℕ
  type : ℕ
  dpl : ℕ
  p : ℕ
  hiLimit : ℕ
  xx1 : ℕ
  gran : ℕ
  hiBase : ℕ
  xx2 : ℕ
  zero : ℕ
  xx3 : ℕ
  deriving DecidableEq, Repr

namespace SysSegmentDescriptor

def bits (sd : SysSegmentDescriptor) : ℕ :=
  pack [(16, sd.loLimit), (24, sd.loBase), (5, sd.type), (2, sd.dpl), (1, sd.p), (4, sd.hiLimit),
    (3, sd.xx1), (1, sd.gran), (40, sd.hiBase), (8, sd.xx2), (5, sd.zero), (19, sd.xx3)]

def ofBits (x : ℕ) : SysSegmentDescriptor where
  loLimit := field 0 16 x
  loBase := field 16 24 x
  type := field 40 5 x
  dpl := field 45 2 x
  p := field 47 1 x
  hiLimit := field 48 4 x
  xx1 := field 52 3 x
  gran := field 55 1 x
  hiBase := field 56 40 x
  xx2 := field 96 8 x
  zero := field 104 5 x
  xx3 := field 109 19 x

end SysSegmentDescriptor

/-- `struct tss_t`; nothing but `rsp0` is ever stored. -/
structure TssT where
  rsp0 : ℕ := 0
  iomapBase : ℕ := 0
  deriving DecidableEq, Repr

def sizeofTssT : ℕ := 104

def TssT.bits (tss : TssT) : ℕ :=
  pack [(32, 0), (64, tss.rsp0), (64, 0), (64, 0), (64, 0), (448, 0), (64, 0), (16, 0),
    (16, tss.iomapBase)]

structure Tables where
  idt : ℕ → GateStr
  gdt : ℕ → ℕ
  tss : TssT
  /-- The address of `tss`. -/
  tssAt : ℕ

namespace Gdt

def GDT_CS : ℕ := 0x00180000000000
def GDT_DS : ℕ := 0x00100000000000
def DPL0 : ℕ := 0x00000000000000
def DPL3 : ℕ := 0x00600000000000
def P : ℕ := 0x00800000000000
def L : ℕ := 0x20000000000000
def W : ℕ := 0x00020000000000

/-- `gdt` as it is compiled; the last two are for the TSS. -/
def gdt : List ℕ :=
  [0, GDT_CS ||| P ||| DPL0 ||| L, GDT_DS ||| P ||| W ||| DPL0, GDT_CS ||| P ||| DPL3 ||| L,
    GDT_DS ||| P ||| W ||| DPL3, 0, 0]

end Gdt

namespace Tables

/-- The tables before anything has run. -/
def static (tssAt : ℕ) : Tables where
  idt _ := {}
  gdt i := Gdt.gdt.getD i 0
  tss := {}
  tssAt

/-- The two words from `gdt[5]` on are written through a structure. -/
def initGdt (t : Tables) : Tables :=
  let sd := SysSegmentDescriptor.ofBits (t.gdt 5 + 2 ^ 64 * t.gdt 6)
  let sd := { sd with
    loLimit := sizeofTssT - 1
    loBase := t.tssAt % 2 ^ 24
    type := 9
    dpl := 0
    p := 1
    hiLimit := 0
    gran := 0
    hiBase := t.tssAt / 2 ^ 24 }
  let gdt := Function.update t.gdt 5 (sd.bits % 2 ^ 64)
  { t with gdt := Function.update gdt 6 (sd.bits / 2 ^ 64) }

def setTssRsp (rsp : ℕ) (t : Tables) : Tables := { t with tss := { t.tss with rsp0 := rsp } }

def setupGate (num handlerAddr dpl : ℕ) (t : Tables) : Tables :=
  let g := { t.idt num with
    offsetLow := handlerAddr % 2 ^ 16
    offsetMid := handlerAddr / 2 ^ 16 % 2 ^ 16
    offsetHigh := handlerAddr / 2 ^ 32 % 2 ^ 32
    selector := 0x08
    typeAttr := 0x0e
    zero := 0
    ist := 0
    reserved0 := 0
    p := 1
    dpl := dpl }
  { t with idt := Function.update t.idt num g }

/-- The gates of the exceptions and of the two devices, in the order they are set up. -/
def kernelGates : List ℕ :=
  [0, 1, 3, 4, 5, 6, 7, 8, 9, 10, 11, 12, 13, 14, 16, 17, 18, 19, 20, 32, 33]

/-- With the addresses of the routines. -/
def idtInit (isr : ℕ → ℕ) (t : Tables) : Tables :=
  (kernelGates.foldl (fun t n => t.setupGate n (isr n) 0) t).setupGate 128 (isr 128) 3

/-! ## The processor -/

inductive Fault
  /-- General protection, with its error code. -/
  | gp (code : ℕ)
  | notPresent (code : ℕ)
  | tss (code : ℕ)
  /-- The task register does not lead to `tss`. -/
  | lost
  deriving DecidableEq, Repr

structure TaskRegister where
  base : ℕ
  limit : ℕ
  deriving DecidableEq, Repr

/-- `gdtr.size` and `idtr.size`, which the processor takes for the last byte. -/
def gdtLimit : ℕ := 8 * 32
def idtLimit : ℕ := 16 * 256

/-- The descriptor of a segment, if there is one. -/
def segment (t : Tables) (sel : ℕ) : Except Fault ℕ :=
  if sel / 8 = 0 then .error (.gp 0)
  else if gdtLimit < 8 * (sel / 8) + 7 then .error (.gp (sel / 4 * 4))
  else .ok (t.gdt (sel / 8))

/-- `ltr`: the descriptor has to be that of an unused TSS. -/
def ltr (t : Tables) (sel : ℕ) : Except Fault TaskRegister := do
  let low ← t.segment sel
  let high ← t.segment (sel + 8)
  let x := low + 2 ^ 64 * high
  let limit := field 0 16 x + 2 ^ 16 * field 48 4 x
  if field 40 5 x ≠ 9 then .error (.gp (sel / 4 * 4))
  else if field 47 1 x = 0 then .error (.notPresent (sel / 4 * 4))
  else
    .ok {
      base := field 16 24 x + 2 ^ 24 * field 56 40 x
      limit := if field 55 1 x = 1 then 2 ^ 12 * limit + (2 ^ 12 - 1) else limit }

/-- A word of the TSS, at the offset of its first byte. -/
def tssWord (t : Tables) (tr : TaskRegister) (off : ℕ) : Except Fault ℕ :=
  if tr.limit < off + 7 then .error (.tss 0x28)
  else if tr.base = t.tssAt then .ok (field (8 * off) 64 t.tss.bits)
  else .error .lost

/-- Where the processor starts to push, when it goes on at level `level`. -/
def newStack (t : Tables) (tr : TaskRegister) (c : Cpu) (ist level : ℕ) : Except Fault ℕ :=
  if ist ≠ 0 then t.tssWord tr (28 + 8 * ist)
  else if level < c.cs % 4 then t.tssWord tr (4 + 8 * level)
  else .ok c.rsp

/-- The gate of a vector, which `int` has to be allowed to use. -/
def gate (t : Tables) (soft : Bool) (n : ℕ) (c : Cpu) : Except Fault ℕ :=
  let code := 8 * n + 2 + (if soft then 0 else 1)
  let g := (t.idt n).bits
  if idtLimit < 16 * n + 15 then .error (.gp code)
  else if field 40 5 g ≠ 14 ∧ field 40 5 g ≠ 15 then .error (.gp code)
  else if soft = true ∧ field 45 2 g < c.cs % 4 then .error (.gp code)
  else if field 47 1 g = 0 then .error (.notPresent code)
  else .ok g

/-- The privilege level of the code segment of a gate. -/
def level (t : Tables) (sel : ℕ) (c : Cpu) : Except Fault ℕ := do
  let cs ← t.segment sel
  if field 43 2 cs ≠ 3 ∨ c.cs % 4 < field 45 2 cs then .error (.gp (sel / 4 * 4))
  else if field 47 1 cs = 0 then .error (.notPresent (sel / 4 * 4))
  -- not a segment of 64-bit code
  else if field 53 2 cs ≠ 1 then .error (.gp (sel / 4 * 4))
  else .ok (if field 42 1 cs = 1 then c.cs % 4 else field 45 2 cs)

/-- What the processor does on an interrupt or an exception, or with `soft` on the instruction
`int`. -/
def deliver (t : Tables) (tr : TaskRegister) (soft : Bool) (n : ℕ) (err : Option ℕ) (c : Cpu) :
    Except Fault Cpu := do
  let g ← t.gate soft n c
  let level ← t.level (field 16 16 g) c
  let rsp ← t.newStack tr c (field 32 3 g) level
  let frame := [c.ss, c.rsp, c.rflags, c.cs, c.rip] ++ err.toList
  let top := rsp / 16 * 16
  return { c with
    mem := Stack.pushes frame c.mem top
    rsp := top - 8 * frame.length
    rip := field 0 16 g + 2 ^ 16 * field 48 48 g
    cs := field 16 16 g / 4 * 4 + level
    ss := if level < c.cs % 4 then level else c.ss
    -- an interrupt gate clears the interrupt flag
    rflags := c.rflags &&& (2 ^ 64 - 1 - (if field 40 5 g = 14 then 0x34300 else 0x34100)) }

/-- A program may read and write the port: the bits of the map are in the TSS, and have to be before
its limit. -/
def portAllowed (t : Tables) (tr : TaskRegister) (port : ℕ) : Except Fault Bool :=
  let map := field (8 * 102) 16 t.tss.bits
  if tr.base ≠ t.tssAt then .error .lost
  else if tr.limit < 103 ∨ tr.limit < map + port / 8 + 1 then .ok false
  else .ok (field (8 * map + port) 1 t.tss.bits = 0)

end Tables

end Bgox
