import Bgox.Process

/-!
# The ready list as a list

What `sys/process.c` is for, without pointers: the tasks that exist stand in a list, the boot task
first; new ones join at the end; one of them runs.  `schedule` goes on from the running task, or
from `previous` if the running task has just left, to the next task behind it that is not blocked,
and round to the head if there is none.  Where the code would follow `NULL` the operation is
undefined.

`Proofs/Refine.lean` shows that `Sched` does this.
-/

namespace Bgox

structure TaskQueue where
  nodes : List ℕ
  process : ℕ → Task
  running : Option ℕ
  previous : Option ℕ
  taskCount : ℤ
  PID : ℕ
  isBg : ℕ
  fresh : ℕ

/-- The operations with which the running task leaves the list. -/
def Op.leaves : Op → Bool
  | .exec _ | .exit | .pageFault => true
  | _ => false

namespace TaskQueue

def setProcess (q : TaskQueue) (n : ℕ) (t : Task) : TaskQueue :=
  { q with process := Function.update q.process n t }

/-- The first task with a pid. -/
def lookup (q : TaskQueue) (pid : ℕ) : Option ℕ :=
  q.nodes.find? fun n => (q.process n).pid == pid

def remove (q : TaskQueue) (n : ℕ) : TaskQueue := { q with nodes := q.nodes.erase n }

/-- The running task leaves.  The head cannot: it has no predecessor to unlink it from. -/
def leave (q : TaskQueue) : Option TaskQueue :=
  match q.running with
  | none => none
  | some r =>
    if r ∈ q.nodes.tail then
      some { q.remove r with running := none, taskCount := q.taskCount - 1 }
    else none

/-- The first task with a pid is taken out of the list, but for `previous` when it is the head. -/
def delete (q : TaskQueue) (pid : ℕ) : Option TaskQueue :=
  match q.lookup pid with
  | none => some q
  | some n =>
    if some n = q.previous ∧ q.nodes.head? = some n then none else some (q.remove n)

def add (q : TaskQueue) (t : Task) : TaskQueue :=
  { q with
    nodes := q.nodes ++ [q.fresh]
    process := Function.update q.process q.fresh t
    running := if q.nodes = [] then some q.fresh else q.running
    taskCount := if q.nodes = [] then 1 else q.taskCount + 1
    fresh := q.fresh + 1 }

/-! ## schedule -/

/-- `is_child_done`: there is no such task, or it is not asleep. -/
def childDone (q : TaskQueue) (pid : ℕ) : Bool :=
  match q.lookup pid with
  | none => true
  | some n => (q.process n).isSleeping == 0

/-- The tasks behind `n`. -/
def after (q : TaskQueue) (n : ℕ) : List ℕ := (q.nodes.dropWhile (· ≠ n)).tail

def blockedAt (q : TaskQueue) (n : ℕ) : Bool := (q.process n).blocked

/-- The tasks a scan from `n` passes: `n` itself and the blocked ones right behind it. -/
def passed (q : TaskQueue) (n : ℕ) : List ℕ := n :: (q.after n).takeWhile q.blockedAt

/-- A task that waits for a child that is done waits no longer. -/
def settled (q : TaskQueue) (n : ℕ) : Task :=
  let t := q.process n
  if 0 < t.isWaiting ∧ q.childDone t.isWaiting = true then { t with isWaiting := 0 } else t

/-- The scan has settled the tasks `ns`. -/
def settleAll (q : TaskQueue) (ns : List ℕ) : TaskQueue :=
  { q with process := fun n => if n ∈ ns then q.settled n else q.process n }

/-- The task a scan from `n` stops at. -/
def pick (q : TaskQueue) (n : ℕ) : Option ℕ :=
  ((q.after n).dropWhile q.blockedAt).head?.or q.nodes.head?

/-- The tasks a call of `schedule` settles. -/
def scanned (q : TaskQueue) : List ℕ :=
  match q.running, q.previous with
  | some r, _ => q.passed r
  | none, some p => if q.after p = [] then [] else q.passed p
  | none, none => []

def schedule (q : TaskQueue) : Option TaskQueue :=
  match q.running with
  | some r =>
    some { q.settleAll (q.passed r) with previous := some r, running := q.pick r }
  | none =>
    match q.previous with
    | none => none
    | some p =>
      -- behind `previous` there is nothing to scan, and it is not settled
      if q.after p = [] then some { q with running := q.nodes.head? }
      else some { q.settleAll (q.passed p) with running := q.pick p }

/-! ## System calls and interrupts -/

def waitChild (q : TaskQueue) (r pid : ℕ) : Option ℕ :=
  if pid = 0 then
    q.nodes.find? fun n => (q.process n).ppid == (q.process r).pid && (q.process n).isBg != 1
  else q.lookup pid

/-- `r` waits for `c`. -/
def await (q : TaskQueue) (r c : ℕ) : TaskQueue :=
  q.setProcess r { q.process r with isWaiting := (q.process c).pid }

/-- The child of `r`. -/
def fork (q : TaskQueue) (r : ℕ) : TaskQueue :=
  add { q with PID := q.PID + 1 } ⟨q.PID, (q.process r).pid, (q.process r).tname, 0, 0, 0, 0⟩

def loadSbush (q : TaskQueue) : TaskQueue :=
  add { q with PID := q.PID + 1 } ⟨1, 0, oxterm, 0, 0, 0, 0⟩

/-- `r` sleeps. -/
def doze (q : TaskQueue) (r : ℕ) (time : ℤ) : TaskQueue :=
  q.setProcess r { q.process r with sleepTime := (time % 2 ^ 64).toNat, isSleeping := 1 }

def tick (q : TaskQueue) : TaskQueue :=
  { q with process := fun n =>
      if n ∈ q.nodes then Sched.tickTask (q.process n) else q.process n }

def editWait (q : TaskQueue) (r pid : ℕ) : TaskQueue × Bool :=
  match q.waitChild r pid with
  | some c => (q.await r c, true)
  | none => (q, false)

def editKill (q : TaskQueue) (r pid : ℕ) : Option TaskQueue :=
  if (q.process r).ppid = pid then q.delete pid
  else
    match q.nodes.find? fun n =>
      (q.process n).pid == pid && ((q.process n).tname == kernel || n == r) with
    | some n => if (q.process n).tname = kernel then some q else q.leave
    | none => q.delete pid

/-- What the running task `r` does up to its call of `schedule`, and whether it makes the
call. -/
def edit (q : TaskQueue) (r : ℕ) : Op → Option (TaskQueue × Bool)
  | .yield => some (q, true)
  | .fork => some (q.fork r, false)
  | .exec none => q.leave.map (·, true)
  | .exec (some name) =>
    (leave { q with PID := q.PID - 1 + 1 }).map fun q' =>
      (q'.add ⟨(q.process r).pid, (q.process r).ppid, name, 0, 0, 0, 0⟩, true)
  | .exit => q.leave.map (·, true)
  | .sleep time true =>
    some (doze { q.setProcess r { q.process r with isBg := 1 } with isBg := 1 } r time, true)
  | .sleep time false => some (doze { q with isBg := 0 } r time, true)
  | .wait => some (q.editWait r 0)
  | .waitpid pid => some (if q.isBg = 1 then (q, false) else q.editWait r pid)
  | .kill pid => (q.editKill r pid).map (·, true)
  | .tick => some (q.tick, false)
  | .pageFault => q.loadSbush.leave.map (·, true)

/-- The task an operation of `r` puts in the list. -/
def born (q : TaskQueue) (r : ℕ) : Op → Option Task
  | .fork => some ⟨q.PID, (q.process r).pid, (q.process r).tname, 0, 0, 0, 0⟩
  | .exec (some name) => some ⟨(q.process r).pid, (q.process r).ppid, name, 0, 0, 0, 0⟩
  | .pageFault => some ⟨1, 0, oxterm, 0, 0, 0, 0⟩
  | _ => none

def step (q : TaskQueue) (op : Op) : Option TaskQueue :=
  q.running.bind fun r => (q.edit r op).bind fun (q', go) => if go then q'.schedule else some q'

end TaskQueue

end Bgox
