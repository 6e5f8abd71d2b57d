import Mathlib.Algebra.Group.Int.Defs
import Mathlib.Algebra.Group.Nat.Defs
import Bgox.Lib.Chain

/-!
# Tasks, the ready list and the scheduler

`sys/process.c` over explicit state: the `ready_task` nodes are numbered in the order `kmalloc`
hands them out, a pointer is an `Option ℕ` with `none` for `NULL`, and reading through `NULL` or
walking round a cycle is a `Fault`.  Every `task_struct` is put in one node, so the node carries
it.  Of a task the fields the scheduler reads are kept; stacks, page tables and what
`kprintf` prints are not.

`sys/idt.c`'s system calls, its page fault handler and the timer's `dec_sleep_count` are the
actions of `step`; `start` is the part of `sys/main.c`'s `start` that fills the list.
-/

namespace Bgox

open Linked (Fault)

/-- What the scheduler reads of a `task_struct`. -/
structure Task where
  pid : ℕ
  ppid : ℕ
  tname : List UInt8
  isWaiting : ℕ
  sleepTime : ℕ
  isSleeping : ℕ
  isBg : ℕ
  deriving DecidableEq, Repr

/-- `schedule` passes over such a task. -/
def Task.blocked (t : Task) : Bool := t.isSleeping != 0 || decide (0 < t.isWaiting)

theorem Task.blocked_eq_false {t : Task} :
    t.blocked = false ↔ t.isSleeping = 0 ∧ t.isWaiting = 0 := by
  simp [Task.blocked]

/-- The globals of `sys/process.c` with the heap of `ready_task` nodes. -/
structure Sched where
  next : ℕ → Option ℕ
  process : ℕ → Task
  queueHead : Option ℕ
  runningTask : Option ℕ
  previous : Option ℕ
  taskCount : ℤ
  PID : ℕ
  isBg : ℕ
  /-- The node the next `kmalloc(sizeof(ready_task))` returns. -/
  fresh : ℕ

/-- The name of the boot task, `"root"`. -/
def kernel : List UInt8 := [0x72, 0x6f, 0x6f, 0x74]

/-- `"bin/oxterm"`, the shell. -/
def oxterm : List UInt8 := [0x62, 0x69, 0x6e, 0x2f, 0x6f, 0x78, 0x74, 0x65, 0x72, 0x6d]

def deref : Option ℕ → Except Fault ℕ
  | some a => .ok a
  | none => .error .null

namespace Sched

/-- Enough for a walk over every node there is; a longer one goes round a cycle. -/
def fuel (s : Sched) : ℕ := s.fresh + 1

def setNext (s : Sched) (a : ℕ) (p : Option ℕ) : Sched :=
  { s with next := Function.update s.next a p }

def setProcess (s : Sched) (a : ℕ) (t : Task) : Sched :=
  { s with process := Function.update s.process a t }

/-! ## The list -/

/-- `if (del->next) temp->next = del->next; else temp->next = NULL;` -/
def unlink (s : Sched) (temp del : ℕ) : Sched :=
  match s.next del with
  | some n => s.setNext temp (some n)
  | none => s.setNext temp none

def deleteCurrFromTaskList (s : Sched) : Except Fault Sched := do
  let temp ← Linked.pred s.next s.runningTask s.fuel s.queueHead
  let running ← deref s.runningTask
  let s := s.unlink temp running
  return { s with runningTask := none, taskCount := s.taskCount - 1 }

def deleteFromTaskList (s : Sched) (pid : ℕ) : Except Fault Sched := do
  match ← Linked.find s.next (fun n => (s.process n).pid == pid) s.fuel s.queueHead with
  | none => return s
  | some del =>
    if some del = s.previous then
      let temp ← Linked.pred s.next s.previous s.fuel s.queueHead
      return s.unlink temp del
    else if some del = s.queueHead then
      return { s with queueHead := s.next del }
    else
      let temp ← Linked.pred s.next (some del) s.fuel s.queueHead
      return s.unlink temp del

/-- A node with `process` in it and no successor. -/
def newTask (s : Sched) (process : Task) : Sched :=
  { (s.setNext s.fresh none).setProcess s.fresh process with fresh := s.fresh + 1 }

def addToTaskList (s : Sched) (process : Task) : Except Fault Sched := do
  match s.queueHead with
  | none =>
    let node := s.fresh
    return { s.newTask process with
      queueHead := some node, runningTask := some node, taskCount := 1 }
  | some _ =>
    let temp ← Linked.last s.next s.fuel s.queueHead
    let node := s.fresh
    let s := (s.newTask process).setNext temp (some node)
    return { s with taskCount := s.taskCount + 1 }

def isChildDone (s : Sched) (pid : ℕ) : Except Fault Bool := do
  match ← Linked.find s.next (fun n => (s.process n).pid == pid) s.fuel s.queueHead with
  | none => return true
  | some n => return (s.process n).isSleeping == 0

/-! ## schedule -/

/-- The check the scan makes of each task it has passed: a task that waits for a child that is
done waits no longer. -/
def settle (s : Sched) (temp : ℕ) : Except Fault Sched := do
  let t := s.process temp
  if 0 < t.isWaiting then
    if ← s.isChildDone t.isWaiting then
      return s.setProcess temp { t with isWaiting := 0 }
    else return s
  else return s

/-- The `while` loop of `schedule`, up to the last task passed. -/
def scan : ℕ → Sched → ℕ → Except Fault (Sched × ℕ)
  | 0, _, _ => .error .diverges
  | fuel + 1, s, temp =>
    match s.next temp with
    | none => .ok (s, temp)
    | some n =>
      if (s.process n).blocked then do
        let s ← s.settle temp
        scan fuel s n
      else .ok (s, temp)

/-- The task after `temp` if there is one, else the head. -/
def pick (s : Sched) (temp : ℕ) : Option ℕ :=
  match s.next temp with
  | some n => some n
  | none => s.queueHead

/-- `set_tss_rsp(&running_task->process->kstack[511])` and the arguments of `switch_to` read the
two pointers `schedule` leaves. -/
def switchTo (s : Sched) : Except Fault Sched := do
  let _ ← deref s.runningTask
  let _ ← deref s.previous
  return s

def schedule (s : Sched) : Except Fault Sched := do
  match s.runningTask with
  | none =>
    let prev ← deref s.previous
    match s.next prev with
    | none => switchTo { s with runningTask := s.queueHead }
    | some _ =>
      let (s, temp) ← scan s.fuel s prev
      let s ← s.settle temp
      switchTo { s with runningTask := s.pick temp }
  | some running =>
    let (s, temp) ← scan s.fuel s running
    let s ← s.settle temp
    switchTo { s with previous := some running, runningTask := s.pick temp }

/-! ## System calls -/

def getRunningTask (s : Sched) : Except Fault ℕ := deref s.runningTask

/-- What `elf_run_bin` leaves of a new task, `kmalloc` having zeroed the rest. -/
def elfRunBin (s : Sched) (name : List UInt8) : Except Fault (Sched × Task) := do
  let parent ← s.getRunningTask
  let pcb : Task :=
    { pid := s.PID, ppid := (s.process parent).pid, tname := name,
      isWaiting := 0, sleepTime := 0, isSleeping := 0, isBg := 0 }
  return ({ s with PID := s.PID + 1 }, pcb)

def loadSbush (s : Sched) : Except Fault Sched := do
  let (s, pcb) ← s.elfRunBin oxterm
  s.addToTaskList { pcb with pid := 1, ppid := 0 }

def sysFork (s : Sched) : Except Fault Sched := do
  let parent ← s.getRunningTask
  let child : Task :=
    { pid := s.PID, ppid := (s.process parent).pid, tname := (s.process parent).tname,
      isWaiting := 0, sleepTime := 0, isSleeping := 0, isBg := 0 }
  addToTaskList { s with PID := s.PID + 1 } child

def sysExit (s : Sched) : Except Fault Sched := do
  let s ← s.deleteCurrFromTaskList
  s.schedule

/-- The handler of `exec` and `execvp`; `file` is the name in the header of the file `open` found
at `PATH` followed by the command. -/
def sysExec (s : Sched) (file : Option (List UInt8)) : Except Fault Sched := do
  match file with
  | none => s.sysExit
  | some name =>
    let parent ← s.getRunningTask
    let t := s.process parent
    -- elf_parse counts PID up again
    let (s, pcb) ← elfRunBin { s with PID := s.PID - 1 } name
    let s ← s.deleteCurrFromTaskList
    let s ← s.addToTaskList { pcb with pid := t.pid, ppid := t.ppid }
    s.schedule

def sysKill (s : Sched) (pid : ℕ) : Except Fault Sched := do
  let running ← s.getRunningTask
  if (s.process running).ppid = pid then
    let s ← s.deleteFromTaskList pid
    s.schedule
  else
    let stop n := (s.process n).pid == pid && ((s.process n).tname == kernel || n == running)
    match ← Linked.find s.next stop s.fuel s.queueHead with
    | some temp =>
      if (s.process temp).tname = kernel then s.schedule
      else
        let s ← s.deleteCurrFromTaskList
        s.schedule
    | none =>
      let s ← s.deleteFromTaskList pid
      s.schedule

/-- The task `sys_waitpid` waits for: with `pid` 0 the first child of the caller that is not in
the background. -/
def waitChild (s : Sched) (running pid : ℕ) : Except Fault (Option ℕ) :=
  if pid = 0 then
    Linked.find s.next
      (fun n => (s.process n).ppid == (s.process running).pid && (s.process n).isBg != 1)
      s.fuel s.queueHead
  else Linked.find s.next (fun n => (s.process n).pid == pid) s.fuel s.queueHead

def sysWaitpid (s : Sched) (pid isBg : ℕ) : Except Fault (Sched × ℕ) := do
  if isBg = 1 then return (s, 0)
  let current ← s.getRunningTask
  match ← s.waitChild current pid with
  | some n =>
    let child := (s.process n).pid
    let s ← (s.setProcess current { s.process current with isWaiting := child }).schedule
    return (s, child)
  | none => return (s, 0)

/-- `time` is the `int` argument, which is extended to the 64 bits of `sleep_time`. -/
def sysSleep (s : Sched) (time : ℤ) : Except Fault Sched := do
  let current ← s.getRunningTask
  let t := s.process current
  (s.setProcess current
    { t with sleepTime := (time % 2 ^ 64).toNat, isSleeping := 1 }).schedule

/-- The handler of `sleep`; `bg` says whether the argument has an `&` in it. -/
def sleepHandler (s : Sched) (time : ℤ) (bg : Bool) : Except Fault Sched := do
  if bg then
    let current ← s.getRunningTask
    let s := s.setProcess current { s.process current with isBg := 1 }
    sysSleep { s with isBg := 1 } time
  else sysSleep { s with isBg := 0 } time

/-! ## Interrupts -/

/-- One second less to sleep. -/
def tickTask (t : Task) : Task :=
  if t.isSleeping = 1 then
    let left := (t.sleepTime + (2 ^ 64 - 1)) % 2 ^ 64
    { t with sleepTime := left, isSleeping := if left = 0 then 0 else 1 }
  else t

/-- The loop of `dec_sleep_count`. -/
def decSleepLoop : ℕ → Sched → Option ℕ → Except Fault Sched
  | 0, _, _ => .error .diverges
  | _ + 1, s, none => .ok s
  | fuel + 1, s, some temp =>
    decSleepLoop fuel (s.setProcess temp (tickTask (s.process temp))) (s.next temp)

def decSleepCount (s : Sched) : Except Fault Sched := decSleepLoop s.fuel s s.queueHead

/-- What `page_fault_handler` does after the mapping: a new shell replaces the task. -/
def pageFaultHandler (s : Sched) : Except Fault Sched := do
  let s ← s.loadSbush
  let s ← s.deleteCurrFromTaskList
  s.schedule

end Sched

/-- What can happen to the list: the calls the running task makes, its page faults, and the
timer. -/
inductive Op
  | yield
  | fork
  | exec (file : Option (List UInt8))
  | exit
  | sleep (time : ℤ) (bg : Bool)
  | wait
  | waitpid (pid : ℕ)
  | kill (pid : ℕ)
  | tick
  | pageFault
  deriving DecidableEq, Repr

namespace Sched

def step (s : Sched) : Op → Except Fault Sched
  | .yield => s.schedule
  | .fork => s.sysFork
  | .exec file => s.sysExec file
  | .exit => s.sysExit
  | .sleep time bg => s.sleepHandler time bg
  | .wait => Prod.fst <$> s.sysWaitpid 0 0
  | .waitpid pid => Prod.fst <$> s.sysWaitpid pid s.isBg
  | .kill pid => s.sysKill pid
  | .tick => s.decSleepCount
  | .pageFault => s.pageFaultHandler

/-- One step of a run. -/
def Step (s : Sched) (op : Op) (s' : Sched) : Prop := s.step op = .ok s'

/-- A finite sequence of operations, each by the task that runs when its turn comes. -/
def run (s : Sched) (ops : List Op) : Except Fault Sched := ops.foldlM step s

/-- The globals before `start`. -/
def empty : Sched where
  next := fun _ => none
  process := fun _ => ⟨0, 0, [], 0, 0, 0, 0⟩
  queueHead := none
  runningTask := none
  previous := none
  taskCount := 0
  PID := 0
  isBg := 0
  fresh := 0

/-- The boot task, the shell, and the first `schedule(1)`. -/
def start : Except Fault Sched := do
  let pcbBoot : Task :=
    { pid := empty.PID, ppid := 2 ^ 64 - 1, tname := kernel,
      isWaiting := 0, sleepTime := 0, isSleeping := 0, isBg := 0 }
  let s ← addToTaskList { empty with PID := empty.PID + 1 } pcbBoot
  let s ← s.loadSbush
  s.schedule

/-- The state `start` leaves to the first process. -/
def boot : Sched := start.toOption.getD empty

end Sched

/-- The node of the boot task. -/
def bootNode : ℕ := 0

end Bgox
