import Bgox.Kprintf
import Bgox.Tarfs

/-!
# Directories

`opendir`, `read_dir` and `list_dir` of `sys/tarfs.c`, and `strn_cmp` of `sys/strings.c`; and `open`
with its message.  A directory is known by the address of its header.  What the functions print is
the list of the strings that `kprintf` passes on, and `f` has the arrays of each call of it.
-/

namespace Bgox

open Keyboard (chars)

/-- `strn_cmp`, with the strings up to their ends. -/
def strnCmp : List UInt8 → List UInt8 → ℕ → ℤ
  | _, _, 0 => 0
  | c :: s, d :: t, n + 1 => if c = d then strnCmp s t n else (c.toNat : ℤ) - d.toNat
  | c :: _, [], _ + 1 => c.toNat
  | [], d :: _, _ + 1 => -(d.toNat : ℤ)
  | [], [], _ + 1 => 0

namespace Tarfs

variable (f : ℕ → Frame)

/-- The loop of `opendir`. -/
def findDir (dir : List UInt8) : List TarfsE → Option ℕ
  | [] => none
  | entry :: list =>
    if entry.type = TYPE_DIRECTORY ∧ strCmp entry.name dir = 1 then some entry.addr
    else findDir dir list

def noSuchDirectory : List UInt8 :=
  chars ['O', 'p', 'e', 'n', 'd', 'i', 'r', ' ', '%', 's', ':', ' ', 'N', 'o', ' ', 's', 'u', 'c',
    'h', ' ', 'd', 'i', 'r', 'e', 'c', 't', 'o', 'r', 'y', '\n']

/-- `opendir(dir)`, with what it prints. -/
def opendir (fs : Tarfs) (dir : List UInt8) : Except Trap (ℕ × List (List UInt8)) :=
  match findDir dir (fs.list.take fs.idx) with
  | some addr => .ok (addr, [])
  | none => do
    let out ← kprintf (f 0) (noSuchDirectory ++ [0]) [.ptr (dir ++ [0])]
    return (0, out)

def noSuchFile : List UInt8 :=
  chars ['%', 's', ':', ' ', 'N', 'o', ' ', 's', 'u', 'c', 'h', ' ', 'f', 'i', 'l', 'e', '\n']

/-- `open(filename)`, with what it prints. -/
def openPrints (fs : Tarfs) (filename : List UInt8) :
    Except Trap (Option File × List (List UInt8)) :=
  match openLoop filename (fs.list.take fs.idx) with
  | some fd => .ok (fd, [])
  | none => do
    let out ← kprintf (f 0) (noSuchFile ++ [0]) [.ptr (filename ++ [0])]
    return (none, out)

/-- What `list_dir` passes to `kprintf` for a directory and for a file. -/
def dirFormat : List UInt8 :=
  chars ['%', 's', ' ', ' ', ' ', ' ', '\t', '\t', 'D', 'I', 'R', '\n']
def fileFormat : List UInt8 :=
  chars ['%', 's', ' ', ' ', ' ', ' ', '\t', '\t', 'F', 'I', 'L', 'E', '\n']

def listDirLoop : ℕ → List TarfsE → Except Trap (List (List UInt8))
  | _, [] => .ok []
  | i, entry :: list => do
    let out ←
      if entry.type = TYPE_DIRECTORY then
        kprintf (f i) (dirFormat ++ [0]) [.ptr (entry.name ++ [0])]
      else if entry.type = TYPE_FILE then
        kprintf (f i) (fileFormat ++ [0]) [.ptr (entry.name ++ [0])]
      else pure []
    return out ++ (← listDirLoop (i + 1) list)

def listDir (fs : Tarfs) : Except Trap (List (List UInt8)) := listDirLoop f 0 (fs.list.take fs.idx)

/-- The loop of `read_dir`.  The directory is there when its header has been met, and `name` is that
of the last entry. -/
def readDirLoop (addr : ℕ) :
    ℕ → List UInt8 → Option (List UInt8) → List TarfsE → Except Trap (List (List UInt8))
  | _, _, _, [] => .ok []
  | i, name, dir, entry :: list =>
    if name.length = 0 then .ok []
    else if entry.addr = addr then readDirLoop addr (i + 1) entry.name (some entry.name) list
    else
      match dir with
      | some parent =>
        if strnCmp entry.name parent parent.length = 0 then do
          let out ← kprintf (f i) (chars ['\n', '%', 's'] ++ [0]) [.ptr (entry.name ++ [0])]
          return out ++ (← readDirLoop addr (i + 1) entry.name dir list)
        else readDirLoop addr (i + 1) entry.name dir list
      | none => readDirLoop addr (i + 1) entry.name dir list

/-- `read_dir(addr)`, with what it prints.  The first time, the test of the loop reads `entry.name`
before anything has been stored there. -/
def readDir (fs : Tarfs) (addr : ℕ) (name : List UInt8) : Except Trap (List (List UInt8)) := do
  let out ←
    match fs.list.take fs.idx with
    | [] => pure []
    | list => do
      let name ← strCpy name
      readDirLoop f addr 0 name none list
  return out ++ (← kprintf (f fs.idx) (chars ['\n'] ++ [0]) [])

end Tarfs

end Bgox
