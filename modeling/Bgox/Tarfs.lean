import Bgox.Strings

/-!
# The file system in memory

`init_tarfs` and `open` of `sys/tarfs.c`.  `image` is the memory from `_binary_tarfs_start` on, and
`start` its address.  The address of a descriptor is left out.
-/

namespace Bgox

def TARFS_MAX : ℕ := 1024

def TYPE_DIRECTORY : ℤ := 5

def TYPE_FILE : ℤ := 0

structure TarfsE where
  name : List UInt8
  size : ℤ
  addr : ℕ
  type : ℤ
  deriving DecidableEq, Repr

structure Tarfs where
  list : List TarfsE
  idx : ℕ
  deriving DecidableEq, Repr

structure File where
  name : List UInt8
  size : ℤ
  addr : ℕ
  deriving DecidableEq, Repr

namespace Tarfs

/-- The size of a `posix_header`. -/
def skipSize : ℤ := 512

/-- A header, by the memory it begins at. -/
structure PosixHeader where
  bytes : List UInt8

def PosixHeader.name (h : PosixHeader) : List UInt8 := h.bytes

def PosixHeader.size (h : PosixHeader) : List UInt8 := h.bytes.drop 124

def PosixHeader.typeflag (h : PosixHeader) : List UInt8 := h.bytes.drop 156

def headerAt (image : List UInt8) (tempPtr : ℤ) : Except Trap PosixHeader :=
  if tempPtr < 0 then .error .wild else .ok ⟨image.drop tempPtr.toNat⟩

/-- A string that is copied into an array of `size` bytes. -/
def strCpyTo (size : ℕ) (s : List UInt8) : Except Trap (List UInt8) := do
  let s ← strCpy s
  if s.length < size then return s else .error .wild

def readEntry (start : ℕ) (tempPtr : ℤ) (head : PosixHeader) : Except Trap TarfsE := do
  let entrySize := int (octTodec (← atoi head.size))
  let name ← strCpyTo 100 head.name
  let type ← atoi head.typeflag
  return ⟨name, entrySize, ((start + tempPtr) % 2 ^ 64).toNat, type⟩

/-- How far it is to the next header. -/
def skip (entrySize : ℤ) : ℤ :=
  if entrySize = 0 then skipSize
  else if entrySize.tmod skipSize = 0 then entrySize + skipSize
  else entrySize + (skipSize - entrySize.tmod skipSize) + skipSize

/-- The loop of `init_tarfs`, with the number of places left in `tarfs_list`. -/
def readEntries (start : ℕ) (image : List UInt8) :
    ℕ → ℤ → List TarfsE → Except Trap (List TarfsE)
  | 0, tempPtr, list => do
    let head ← headerAt image tempPtr
    if 0 < (← strLen head.name) then .error .wild else return list
  | left + 1, tempPtr, list => do
    let head ← headerAt image tempPtr
    if 0 < (← strLen head.name) then
      let entry ← readEntry start tempPtr head
      readEntries start image left (int (tempPtr + skip entry.size)) (list ++ [entry])
    else return list

def initTarfs (start : ℕ) (image : List UInt8) : Except Trap Tarfs := do
  let list ← readEntries start image TARFS_MAX 0 []
  return ⟨list, list.length⟩

/-- The loop of `open`: what the call returns, unless the loop comes to its end. -/
def openLoop (filename : List UInt8) : List TarfsE → Option (Option File)
  | [] => none
  | entry :: list =>
    if strCmp filename entry.name = 1 ∧ entry.type = TYPE_FILE then
      some (some ⟨filename, entry.size, entry.addr⟩)
    else if strCmp filename entry.name = 1 ∧ entry.type = TYPE_DIRECTORY then some none
    else openLoop filename list

def lookup (filename : List UInt8) (list : List TarfsE) : Option File :=
  (openLoop filename list).join

/-- What `open(filename)` returns, if it does; `openPrints` has what it prints before. -/
def openFile (fs : Tarfs) (filename : List UInt8) : Option File :=
  lookup filename (fs.list.take fs.idx)

end Tarfs

end Bgox
