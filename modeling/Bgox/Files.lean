import Bgox.Tarfs

/-!
# Open files

`read_file`, `readline` and `close` of `sys/tarfs.c`, and the system call 14 of `sys/idt.c` that
prints a file.  The position in a file is not part of its descriptor but a variable of its own,
`bytesdone`, for all of them.  `mem` is the memory the archive is in.
-/

namespace Bgox

structure Files where
  bytesdone : ℤ
  fd : ℕ → File

namespace Files

/-- The value of an `int` as a number of 64 bits. -/
def toU64 (x : ℤ) : ℕ := (x % 2 ^ 64).toNat

/-- How many bytes are read: as many as asked for, or what is left. -/
def bytestoRead (s : Files) (f : File) (bytes : ℕ) : ℤ :=
  let left := toU64 (int (f.size - s.bytesdone))
  int (if max bytes left = left then bytes else left)

/-- Where they are read from. -/
def fileaddr (s : Files) (f : File) : ℕ := toU64 (f.addr + Tarfs.skipSize + s.bytesdone)

/-- `n` bytes of memory. -/
def bytesAt (mem : ℕ → UInt8) (n addr : ℕ) : List UInt8 :=
  (List.range n).map fun k => mem ((addr + k) % 2 ^ 64)

/-- With what is stored in the buffer, and the result. -/
def readFile (mem : ℕ → UInt8) (s : Files) (i bytes : ℕ) :
    Except Trap (Files × List UInt8 × ℕ) :=
  let f := s.fd i
  if f.size = 0 then .ok (s, [], 0)
  else do
    let tempbuf := bytesAt mem (s.bytestoRead f bytes).toNat (s.fileaddr f) ++ [0]
    let len ← strLen tempbuf
    return ({ s with bytesdone := int (s.bytesdone + (len - 1)) }, tempbuf,
      toU64 (s.bytestoRead f bytes))

def close (s : Files) (i : ℕ) : Files := ⟨0, Function.update s.fd i ⟨[], 0, 0⟩⟩

/-! ## `readline` -/

/-- The loop: the bytes it copies, and whether it stops at a newline. -/
def lineLoop : List UInt8 → List UInt8 × Bool
  | [] => ([], false)
  | c :: rest =>
    if c = 10 then ([], true) else (c :: (lineLoop rest).1, (lineLoop rest).2)

/-- What a call of `readline` delivers: what is stored in the buffer, whether a newline has been
passed over, and the result. -/
structure ReadLine where
  buf : List UInt8
  newline : Bool
  ret : ℕ
  deriving DecidableEq, Repr

def readline (mem : ℕ → UInt8) (s : Files) (i bytes : ℕ) : Except Trap (Files × ReadLine) :=
  let f := s.fd i
  if f.size = 0 ∨ int (s.bytesdone - f.size) = 0 then .ok (s, ⟨[], false, 0⟩)
  else do
    let (copied, newline) :=
      lineLoop (bytesAt mem (s.bytestoRead f bytes).toNat (s.fileaddr f))
    let tempbuf := copied ++ [0]
    let bytesdone := if newline then int (s.bytesdone + 1) else s.bytesdone
    let len ← strLen tempbuf
    return ({ s with bytesdone := int (bytesdone + len) }, ⟨tempbuf, newline, len⟩)

/-- One call after the other on the descriptor `i`, with buffers of the sizes given. -/
def readlines (mem : ℕ → UInt8) (i : ℕ) : Files → List ℕ → Except Trap (Files × List ReadLine)
  | s, [] => .ok (s, [])
  | s, n :: ns => do
    let (s, line) ← s.readline mem i n
    let (s, lines) ← readlines mem i s ns
    return (s, line :: lines)

/-! ## `cat` -/

/-- The loop of the system call 14 on the descriptor `i`, with what it prints; `none` if it has not
come to its end after as many turns as `fuel` says. -/
def catLoop (mem : ℕ → UInt8) (i : ℕ) :
    ℕ → Files → ℤ → Except Trap (Option (Files × List (List UInt8)))
  | 0, _, _ => .ok none
  | fuel + 1, s, bread =>
    if 60 ≤ bread then do
      let (s, readbuf, n) ← s.readFile mem i 60
      let rest ← catLoop mem i fuel s (int n)
      return rest.map fun (s, printed) => (s, readbuf :: printed)
    else .ok (some (s, []))

/-- The system call 14; `open` stores the descriptor at `i`. -/
def cat (mem : ℕ → UInt8) (fs : Tarfs) (s : Files) (i fuel : ℕ) (filename : List UInt8) :
    Except Trap (Option (Files × List (List UInt8))) :=
  match fs.openFile filename with
  | none => .ok (some (s, []))
  | some f => do
    let rest ← catLoop mem i fuel { s with fd := Function.update s.fd i f } 2048
    return rest.map fun (s, printed) => (s.close i, printed)

/-! ## Runs -/

inductive Call
  | read (i bytes : ℕ)
  | close (i : ℕ)
  deriving DecidableEq, Repr

/-- The descriptor a call is for. -/
def Call.fd : Call → ℕ
  | .read i _ | .close i => i

/-- What a call of `read_file` delivers. -/
structure Output where
  fd : ℕ
  buf : List UInt8
  ret : ℕ
  deriving DecidableEq, Repr

def step (mem : ℕ → UInt8) (s : Files) : Call → Except Trap (Files × List Output)
  | .read i bytes => do
    let (s, buf, ret) ← s.readFile mem i bytes
    return (s, [⟨i, buf, ret⟩])
  | .close i => .ok (s.close i, [])

def run (mem : ℕ → UInt8) : Files → List Call → Except Trap (Files × List Output)
  | s, [] => .ok (s, [])
  | s, c :: cs => do
    let (s, out) ← s.step mem c
    let (s, outs) ← run mem s cs
    return (s, out ++ outs)

end Files

end Bgox
