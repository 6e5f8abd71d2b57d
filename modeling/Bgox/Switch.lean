import Bgox.Elf
import Bgox.Interrupts
import Bgox.Lib.Run
import Bgox.Strings

/-!
# Context switches

`switch_to` of `sys/process.c`, `set_tss_rsp` of `sys/gdt.c`, and the kernel stacks new tasks start
from: that of `elf_run_bin`, of `sys_fork` (`System.childKstack`), and of the boot task in
`sys/main.c`.  A task is the address of its `task_struct`, and its stack is in there.

A `Machine` is the processor with the tasks there are.  Its steps are those of a program, those of
the processor and of the routines of `sys/isr.s`, and those of the kernel's functions, which may do
anything in the kernel.  What is assumed of them where it matters is `Contained`.
-/

namespace Bgox

/-- The address of `kstack[i]`, after `rsp`. -/
def kstackAt (t i : ℕ) : ℕ := t + 8 + 8 * i

/-- The address of `cr3`, after `kstack`, `ustack`, `pid` and `ppid`. -/
def cr3At (t : ℕ) : ℕ := kstackAt t 4096 + 24

/-! ## The stack of a new task -/

/-- What `elf_run_bin` stores in `kstack`, which has been cleared: the registers, with the arguments
in the first of them, and what `iretq` takes. -/
def elfKstack (argc : ℕ) (argv : ℕ → ℕ) (entry ustack isr32 : ℕ) : ℕ → ℕ :=
  let k := Function.update (fun _ => 0) 506 argc
  let k := (List.range argc).foldl (fun k i => Function.update k (505 - i) (argv i)) k
  -- `j` starts from `argc + 1` and is counted up before it is stored
  let k := (List.range' 1 14).foldl (fun k i => Function.update k (506 - argc - i) (argc + 1 + i)) k
  let k := Function.update k 491 ((isr32 + 29) % 2 ^ 64)
  let k := Function.update k 511 0x23
  let k := Function.update k 510 ((ustack + 8 * 511) % 2 ^ 64)
  let k := Function.update k 509 0x200286
  let k := Function.update k 508 0x1b
  Function.update k 507 entry

/-- What a switch to a new task finds in its `task_struct`, with `rsp` at `kstack[491]`. -/
structure Context where
  kstack : ℕ → ℕ
  cr3 : ℕ

namespace System

/-- The process that has been made last. -/
def newest (s : System) : Proc := s.procs.getLastD ⟨s.ker, 0⟩

/-- `elf_run_bin`, with what it leaves in the new `task_struct`; `entry` is `e_entry`. -/
def elfRunBinContext (s : System) (f : Vm.Elf) (argc : ℕ) (argv : ℕ → ℕ) (isr32 : ℕ) :
    Except Trap (System × Context) := do
  let s' ← s.elfRunBin f
  let entry := Vm.readLe f.image 24 8
  return (s', ⟨elfKstack argc argv entry s'.newest.ustack isr32, s'.newest.pml4 * 4096⟩)

/-- `sys_fork`, with what it leaves in the new `task_struct`. -/
def sysForkContext (s : System) (parent : Proc) (kstack : ℕ → ℕ) (isr32 : ℕ) (vmas : List Vm.Vma)
    (file : ℕ → ℕ) : Except Trap (System × Context) := do
  let (s', ck) ← s.sysForkKstack parent kstack isr32 vmas file
  return (s', ⟨ck, s'.newest.pml4 * 4096⟩)

end System

/-- The stack of the boot task at `t`, which starts with `idle_proc`. -/
def bootKstack (t idleProc isr32 : ℕ) : ℕ → ℕ :=
  let k := Function.update (fun _ => 0) 511 0x10
  let k := Function.update k 508 0x08
  let k := Function.update k 510 (kstackAt t 511)
  let k := Function.update k 509 0x200202
  let k := Function.update k 507 idleProc
  Function.update k 491 ((isr32 + 29) % 2 ^ 64)

/-- `_start` of `crt/crt1.c`: the arguments it passes to `main`. -/
def crtStart (c : Cpu) : ℤ × List ℕ := (int (c.reg .rax), [c.reg .rbx])

/-! ## Switching -/

/-- `switch_to(next, me, first_switch)` from its call to its return, which may be to another place:
the function has no frame of its own. -/
def Cpu.switchTo (c : Cpu) (next me : ℕ) (firstSwitch : Bool) : Cpu :=
  let mem := if firstSwitch then c.mem else Function.update c.mem me c.rsp
  { c with mem, cr3 := mem (cr3At next), rip := mem (mem next), rsp := mem next + 8 }

structure Machine where
  cpu : Cpu
  /-- `tss.rsp0`. -/
  rsp0 : ℕ
  running : ℕ
  tasks : List ℕ

/-- The words of a `task_struct` that a switch goes by: `rsp`, the stack and `cr3`. -/
def InContext (t a : ℕ) : Prop := a = t ∨ (kstackAt t 0 ≤ a ∧ a < kstackAt t 512) ∨ a = cr3At t

/-- The words of a new task are in its `task_struct`. -/
structure Context.Filled (ctx : Context) (mem : ℕ → ℕ) (t : ℕ) : Prop where
  kstack : ∀ i < 512, mem (kstackAt t i) = ctx.kstack i
  cr3 : mem (cr3At t) = ctx.cr3

/-- The contexts of two tasks have no word in common. -/
def Apart (t t' : ℕ) : Prop := ∀ a, InContext t a → ¬ InContext t' a

/-- In the kernel the stack pointer is in the stack of a task. -/
def OnStack (t : ℕ) (c : Cpu) : Prop :=
  c.user = false → kstackAt t 0 ≤ c.rsp ∧ c.rsp ≤ kstackAt t 511

namespace Machine

/-- The part of `schedule` that follows the choice of the next task.  With `first_switch` the
running task has been taken out of the list. -/
def schedule (m : Machine) (next : ℕ) (firstSwitch : Bool) : Machine :=
  { cpu := m.cpu.switchTo next m.running firstSwitch
    rsp0 := kstackAt next 511
    running := next
    tasks := if firstSwitch then m.tasks.filter (· ≠ m.running) else m.tasks }

inductive Event
  | user
  | interrupt (n : ℕ)
  | instr
  | code
  | create (t : ℕ)
  | schedule (next : ℕ) (firstSwitch : Bool)
  deriving DecidableEq, Repr

inductive Step (p : Program) : Machine → Event → Machine → Prop
  /-- A program goes on; it does not get at the kernel's memory. -/
  | user {m : Machine} {c : Cpu} : m.cpu.user = true → c.user = true → c.mem = m.cpu.mem →
      c.cr3 = m.cpu.cr3 → Step p m .user { m with cpu := c }
  | interrupt {m : Machine} {n : ℕ} {err : Option ℕ} : n ∈ vectors →
      Step p m (.interrupt n) { m with cpu := m.cpu.interrupt m.rsp0 (p.isr n) err }
  /-- An instruction of a routine. -/
  | instr {m : Machine} {c : Cpu} : m.cpu.user = false → m.cpu.step p = some c →
      Step p m .instr { m with cpu := c }
  /-- A function of the kernel goes on. -/
  | code {m : Machine} {c : Cpu} : m.cpu.user = false → c.user = false →
      Step p m .code { m with cpu := c }
  /-- A task has been made, and its stack filled. -/
  | create {m : Machine} {t : ℕ} : m.cpu.user = false → (∀ t' ∈ m.tasks, Apart t t') →
      m.cpu.mem t = kstackAt t 491 → Step p m (.create t) { m with tasks := t :: m.tasks }
  /-- The address the call returns to is on the stack. -/
  | schedule {m : Machine} {next : ℕ} {firstSwitch : Bool} : m.cpu.user = false →
      m.cpu.rsp + 8 ≤ kstackAt m.running 511 → next ∈ (m.schedule next firstSwitch).tasks →
      Step p m (.schedule next firstSwitch) (m.schedule next firstSwitch)

/-- What is assumed of the kernel: a stack does not overflow, and the functions that are not
followed here store nothing into the context of a task that is not running. -/
structure Contained (m : Machine) (e : Event) (m' : Machine) : Prop where
  onStack : OnStack m'.running m'.cpu
  frame : e = .code → ∀ t ∈ m.tasks, t ≠ m.running → ∀ a, InContext t a →
    m'.cpu.mem a = m.cpu.mem a

end Machine

end Bgox
