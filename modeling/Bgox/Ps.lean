import Bgox.Kprintf
import Bgox.Process

/-!
# The list of the tasks

`print_task_list` of `sys/process.c`, which is what the system call of `ps` comes to.  What is
printed is the list of the strings that `kprintf` passes on; `f` has the arrays of each call of it.
-/

namespace Bgox

open Keyboard (chars)
open Linked (Fault)

/-- The two ways to fail: over the pointers of the list, and in `kprintf`. -/
abbrev Failure := Fault ⊕ Trap

def psHeader : List UInt8 :=
  chars ['P', 'I', 'D', ' ', 'N', 'A', 'M', 'E', ' ', 'S', 'T', 'A', 'T', 'U', 'S', '\n']

def psRow : List UInt8 := chars ['%', 'd', ' ', '%', 's']

def psStatus : List UInt8 := chars [' ', '%', 's', '\n']

def Task.status (t : Task) : List UInt8 :=
  if 0 < t.isWaiting then chars ['W', 'a', 'i', 't', 'i', 'n', 'g']
  else if t.isSleeping = 1 then chars ['S', 'l', 'e', 'e', 'p', 'i', 'n', 'g']
  else chars ['R', 'u', 'n', 'n', 'i', 'n', 'g']

namespace Sched

variable (f : ℕ → Frame)

/-- The loop; the `i`-th turn has the arrays of two calls of `kprintf`. -/
def printTaskLoop (s : Sched) : ℕ → ℕ → Option ℕ → Except Failure (List (List UInt8))
  | 0, _, _ => .error (.inl .diverges)
  | _ + 1, _, none => .ok []
  | fuel + 1, i, some temp => do
    let t := s.process temp
    let row ← (kprintf (f (2 * i + 1)) (psRow ++ [0])
      [.word (.ofNat t.pid), .ptr (t.tname ++ [0])]).mapError .inr
    let status ← (kprintf (f (2 * i + 2)) (psStatus ++ [0]) [.ptr (t.status ++ [0])]).mapError .inr
    return row ++ status ++ (← printTaskLoop s fuel (i + 1) (s.next temp))

def printTaskList (s : Sched) : Except Failure (List (List UInt8)) := do
  let header ← (kprintf (f 0) (psHeader ++ [0]) []).mapError .inr
  return header ++ (← printTaskLoop f s s.fuel 0 s.queueHead)

end Sched

end Bgox
