import Mathlib.Algebra.Group.Nat.Defs
import Mathlib.Logic.Relation
import Bgox.Lib.Asm

/-!
# Interrupts

The routines of `sys/isr.s` and `sys/gisr.s`, instruction by instruction, and what the processor
does on an interrupt and on `iretq`.  A word of memory is given by its address; only the kernel's
half is meant, which is the same in every address space.  The functions of C that the routines call
are not part of the code here: what they leave to their caller is `Returned`.

The flags that arithmetic sets are left out.
-/

namespace Bgox

inductive Reg
  | rax | rbx | rcx | rdx | rsi | rdi | rbp | r8 | r9 | r10 | r11 | r12 | r13 | r14 | r15
  deriving DecidableEq, Repr

structure Cpu where
  reg : Reg → ℕ
  rip : ℕ
  rsp : ℕ
  rflags : ℕ
  cs : ℕ
  ss : ℕ
  cr3 : ℕ
  mem : ℕ → ℕ

/-- The functions that are called: `irq_<n>_handler` of `sys/gidt.c`, and those of `sys/idt.c`. -/
inductive Handler
  | irq (n : ℕ)
  | irqTimer
  | irqKb
  | generalProtectionFault
  | pageFault
  | syscall
  deriving DecidableEq, Repr

inductive Instr
  | cli
  | sti
  | pushq (r : Reg)
  | popq (r : Reg)
  /-- `movq off(%rsp), r`. -/
  | movq (off : ℕ) (r : Reg)
  | call (h : Handler)
  /-- `addq n, %rsp`. -/
  | addq (n : ℕ)
  | iretq
  deriving DecidableEq, Repr

/-- `r8` and the ones after it take a byte more. -/
def Reg.isNew : Reg → Bool
  | .rax | .rbx | .rcx | .rdx | .rsi | .rdi | .rbp => false
  | _ => true

/-- The number of bytes an instruction is encoded in. -/
def Instr.size : Instr → ℕ
  | .cli | .sti => 1
  | .pushq r | .popq r => if r.isNew then 2 else 1
  | .movq off _ => if off < 128 then 5 else 8
  | .call _ => 5
  | .addq _ => 4
  | .iretq => 2

/-! ## The routines -/

/-- The registers that are saved. -/
def pushed : List Reg :=
  [.rax, .rbx, .rcx, .rdx, .rsi, .rdi, .rbp, .r8, .r9, .r10, .r11, .r12, .r13, .r14, .r15]

/-- What most routines look like. -/
def isrPlain (h : Handler) : List Instr :=
  .cli :: pushed.map .pushq ++ [.call h] ++ pushed.reverse.map .popq ++ [.sti, .iretq]

/-- The routine passes the error code and the address of the fault on, and drops the error code. -/
def isrError (h : Handler) : List Instr :=
  .cli :: pushed.map .pushq ++ [.movq 120 .rdi, .movq 128 .rsi, .call h] ++
    pushed.reverse.map .popq ++ [.addq 8, .sti, .iretq]

/-- `isr0` to `isr12` and `isr16` to `isr20`. -/
def gisr (n : ℕ) : List Instr := isrPlain (.irq n)

def isr13 : List Instr := isrError .generalProtectionFault

def isr14 : List Instr := isrError .pageFault

def isr32 : List Instr := isrPlain .irqTimer

def isr33 : List Instr := isrPlain .irqKb

/-- `rax` is not saved: it is the result of the system call. -/
def isr128 : List Instr :=
  pushed.tail.map .pushq ++ [.call .syscall] ++ pushed.tail.reverse.map .popq ++ [.iretq]

def isrCode (n : ℕ) : List Instr :=
  if n = 13 then isr13
  else if n = 14 then isr14
  else if n = 32 then isr32
  else if n = 33 then isr33
  else if n = 128 then isr128
  else gisr n

/-- The vectors there is a routine for. -/
def vectors : List ℕ :=
  [0, 1, 3, 4, 5, 6, 7, 8, 9, 10, 11, 12, 13, 14, 16, 17, 18, 19, 20, 32, 33, 128]

/-- The routines in memory, where the linker has put them. -/
structure Program where
  fetch : ℕ → Option Instr
  isr : ℕ → ℕ
  handler : Handler → ℕ
  loaded : ∀ n ∈ vectors, Code.At Instr.size fetch (isr n) (isrCode n)

/-! ## The processor -/

namespace Cpu

/-- The privilege level is 3. -/
def user (c : Cpu) : Bool := c.cs % 4 == 3

def push (c : Cpu) (w : ℕ) : Cpu :=
  { c with rsp := c.rsp - 8, mem := Function.update c.mem (c.rsp - 8) w }

/-- What an instruction does when `rip` is behind it. -/
def exec (p : Program) (c : Cpu) : Instr → Cpu
  | .cli => { c with rflags := c.rflags &&& (2 ^ 64 - 1 - 0x200) }
  | .sti => { c with rflags := c.rflags ||| 0x200 }
  | .pushq r => c.push (c.reg r)
  | .popq r => { c with reg := Function.update c.reg r (c.mem c.rsp), rsp := c.rsp + 8 }
  | .movq off r => { c with reg := Function.update c.reg r (c.mem (c.rsp + off)) }
  | .call h => { c.push c.rip with rip := p.handler h }
  | .addq n => { c with rsp := c.rsp + n }
  | .iretq =>
    { c with
      rip := c.mem c.rsp
      cs := c.mem (c.rsp + 8)
      rflags := c.mem (c.rsp + 16)
      rsp := c.mem (c.rsp + 24)
      ss := c.mem (c.rsp + 32) }

def step (p : Program) (c : Cpu) : Option Cpu :=
  (p.fetch c.rip).map fun i => exec p { c with rip := c.rip + i.size } i

/-- The code leads from one state to another. -/
def Reaches (p : Program) : Cpu → Cpu → Prop := Relation.ReflTransGen fun c c' => c.step p = some c'

/-- Where the processor starts to push on an interrupt: on the stack of the TSS if it comes from a
program, else on the stack it is on; at a multiple of 16. -/
def stackTop (rsp0 : ℕ) (c : Cpu) : ℕ := (if c.user then rsp0 else c.rsp) / 16 * 16

/-- Trap, interrupt, nested task, resume and virtual 8086 mode flags are cleared. -/
def gateFlags (rflags : ℕ) : ℕ := rflags &&& (2 ^ 64 - 1 - 0x34300)

/-- The processor's part of an interrupt, with the error code if there is one. -/
def interrupt (rsp0 target : ℕ) (err : Option ℕ) (c : Cpu) : Cpu :=
  let frame := [c.ss, c.rsp, c.rflags, c.cs, c.rip] ++ err.toList
  { c with
    mem := Stack.pushes frame c.mem (c.stackTop rsp0)
    rsp := c.stackTop rsp0 - 8 * frame.length
    rip := target
    cs := 0x08
    ss := if c.user then 0 else c.ss
    rflags := gateFlags c.rflags }

/-- A function that has been called has returned: it is back at the address on the stack, and the
words from the stack pointer up to `top` are as they were. -/
structure Returned (top : ℕ) (c c' : Cpu) : Prop where
  rip : c'.rip = c.mem c.rsp
  rsp : c'.rsp = c.rsp + 8
  cr3 : c'.cr3 = c.cr3
  kept : ∀ a, c.rsp ≤ a → a < top → c'.mem a = c.mem a

end Cpu

/-- The exceptions for which the processor pushes an error code. -/
def pushesError (n : ℕ) : Bool := n ∈ [8, 10, 11, 12, 13, 14, 17]

/-- The function a routine calls. -/
def isrHandler (n : ℕ) : Handler :=
  if n = 13 then .generalProtectionFault
  else if n = 14 then .pageFault
  else if n = 32 then .irqTimer
  else if n = 33 then .irqKb
  else if n = 128 then .syscall
  else .irq n

end Bgox
