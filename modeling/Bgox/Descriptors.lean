import Bgox.Files
import Bgox.Mem

/-!
# Descriptors of open files

`open` and `close` of `sys/tarfs.c` with the memory they use: `open` takes a page for the descriptor
before it looks for the file, and `close` clears the descriptor.  A descriptor is its address, and
`files` has what is stored in it.
-/

namespace Bgox

structure Descriptors where
  heap : Heap
  files : Files

namespace Descriptors

/-- The size of a `file`: a name of 100 bytes, an `int` and an address. -/
def sizeofFile : ℕ := 112

/-- `open(filename)`, with the descriptor, or `NULL`. -/
def openFile (fs : Tarfs) (s : Descriptors) (filename : List UInt8) :
    Except Trap (Descriptors × Option ℕ) := do
  let (heap, fd) ← s.heap.kmalloc sizeofFile
  match fs.openFile filename, fd with
  | none, _ => return ({ s with heap }, none)
  | some _, none => .error .wild
  | some f, some fd =>
    return (⟨heap, { s.files with fd := Function.update s.files.fd fd f }⟩, some fd)

def close (s : Descriptors) (fd : ℕ) : Descriptors := { s with files := s.files.close fd }

inductive Call
  | openFile (filename : List UInt8)
  | close (fd : ℕ)
  deriving DecidableEq, Repr

def Call.isOpen : Call → Bool
  | .openFile _ => true
  | .close _ => false

/-- A call, with what it returns. -/
def step (fs : Tarfs) (s : Descriptors) : Call → Except Trap (Descriptors × Option ℕ)
  | .openFile filename => s.openFile fs filename
  | .close fd => .ok (s.close fd, some 1)

def run (fs : Tarfs) : Descriptors → List Call → Except Trap (Descriptors × List (Option ℕ))
  | s, [] => .ok (s, [])
  | s, c :: cs => do
    let (s, ret) ← s.step fs c
    let (s, rets) ← run fs s cs
    return (s, ret :: rets)

end Descriptors

end Bgox
