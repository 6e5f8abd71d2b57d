import Mathlib.Logic.Function.Basic
import Bgox.Strings

/-!
# The page allocator

`sys/mem.c`: an array of descriptors, one for each page of memory and one more at its end, which
`calculate_free_list` lays out from `physfree` on, the three functions that take blocks of pages
from it, and `free`.  A descriptor is its index in the array.

`kmalloc_init` runs before there are page tables of the kernel's own and uses physical addresses.
`kmalloc` and `kmalloc_stack` add `KERNEL_VADDR` to every address, which leads to physical memory
below 2 GiB; above that the sum is taken modulo 2 ^ 64 and is an address of the other half, where
`init_paging` maps physical memory at its own address.

The array is not part of `mem`: what is stored in a page that has been handed out does not change
a descriptor here.
-/

namespace Bgox

/-- `struct page`. -/
structure Page where
  next : Option ℕ
  used : ℤ
  blockSize : ℤ
  refCount : ℤ
  deriving DecidableEq, Repr

structure Heap where
  /-- The address of the array. -/
  freeList : ℕ
  /-- The number of descriptors, without the one at the end. -/
  length : ℕ
  page : ℕ → Page
  mem : ℕ → ℕ

namespace Heap

/-! ## `calculate_free_list` -/

/-- The first two loops: `n` descriptors from `i` on, with a count that goes down to 1. -/
def markPages (used refCount : ℤ) : ℕ → (ℕ → Page) → ℕ → ℕ → Page
  | 0, page, _ => page
  | n + 1, page, i =>
    markPages used refCount n
      (Function.update page i ⟨some (i + 1), used, int (n + 1 : ℕ), refCount⟩) (i + 1)

/-- The third loop, for the pages of the array.  The reference count it writes is that of the last
descriptor. -/
def reserve (last : ℕ) : ℕ → (ℕ → Page) → Option ℕ → Except Trap (ℕ → Page)
  | 0, page, _ => .ok page
  | _ + 1, _, none => .error .wild
  | n + 1, page, some i =>
    let page := Function.update page i { page i with used := 1, blockSize := int (n + 1 : ℕ) }
    let page := Function.update page last { page last with refCount := 1 }
    reserve last n page (page i).next

/-- The number of pages set aside for the array, an `int`. -/
def usedFlspace (numPages : ℕ) : ℕ := numPages * sizeofPage % 2 ^ 64 / 4096 % 2 ^ 32

def calculateFreeList (page : ℕ → Page) (mem : ℕ → ℕ) (numPages physfree : ℕ) :
    Except Trap Heap := do
  let usedPages := physfree / 0x1000
  let freePages := (numPages + 2 ^ 64 - usedPages) % 2 ^ 64
  let last := usedPages + freePages
  let page := markPages 1 1 usedPages page 0
  let page := markPages 0 0 freePages page usedPages
  let page := Function.update page last { page last with used := -1 }
  let page ← reserve last (usedFlspace numPages) page (some usedPages)
  return ⟨physfree, last, page, mem⟩

/-! ## Allocation -/

/-- How addresses are formed: as they are, or with `KERNEL_VADDR` added. -/
inductive Access
  | phys
  | virt
  deriving DecidableEq, Repr

def Access.addr : Access → ℕ → ℕ
  | .phys, p => p
  | .virt, p => VADDR p

/-- The memory an address leads to. -/
def Access.toPhys : Access → ℕ → ℕ
  | .phys, a => a
  | .virt, a => if KERNEL_VADDR ≤ a then a - KERNEL_VADDR else a

/-- The descriptor `i` can be reached: its address does not wrap around. -/
def reaches (h : Heap) : Access → ℕ → Bool
  | .phys, _ => true
  | .virt, i => h.freeList + sizeofPage * (i + 1) ≤ 2 ^ 64 - KERNEL_VADDR

/-- `n` bytes of zeros from `p` on. -/
def memset (a : Access) : ℕ → (ℕ → ℕ) → ℕ → ℕ → ℕ
  | 0, mem, _ => mem
  | n + 1, mem, p => memset a n (Function.update mem (a.toPhys p) 0) ((p + 1) % 2 ^ 64)

/-- The search for a descriptor, with its place in the list.  `kmalloc` and `kmalloc_stack` do not
find the end: with `KERNEL_VADDR` added a null pointer is none.  A list that does not end in time is
not followed. -/
def scan (h : Heap) (a : Access) (pages : ℤ) : ℕ → Option ℕ → ℕ → Except Trap (Option (ℕ × ℕ))
  | 0, _, _ => .error .wild
  | _ + 1, none, _ => if a = .phys then .ok none else .error .wild
  | fuel + 1, some i, count =>
    if h.reaches a i then
      if (h.page i).used = 0 ∧ pages ≤ (h.page i).blockSize then .ok (some (i, count))
      else scan h a pages fuel (h.page i).next (count + 1)
    else .error .wild

def take (p : Page) (pages : ℤ) : Page := { p with used := 1, blockSize := pages, refCount := 1 }

/-- The `n` descriptors after the first one of a block. -/
def takePages (a : Access) : ℕ → Heap → Option ℕ → Except Trap Heap
  | 0, h, _ => .ok h
  | _ + 1, _, none => .error .wild
  | n + 1, h, some i =>
    if h.reaches a i then
      takePages a n { h with page := Function.update h.page i (take (h.page i) (int (n + 1 : ℕ))) }
        (h.page i).next
    else .error .wild

/-- What the three functions have in common.  The number of pages and the length of the `memset` are
of type `int`; what arrives is the lower 32 bits.  The block is given by the number of its first
page. -/
def alloc (h : Heap) (a : Access) (size : ℕ) : Except Trap (Heap × Option ℕ) := do
  let pages := int (Vm.pagesFor size)
  match ← h.scan a pages (h.length + 2) (some 0) 0 with
  | none => return (h, none)
  | some (i, count) =>
    let ret := count * 4096 % 2 ^ 64
    let page := Function.update h.page i (take (h.page i) pages)
    let mem := memset a (pages * 4096 % 2 ^ 32).toNat h.mem (a.addr ret)
    let h ← takePages a ((pages - 1) % 2 ^ 32).toNat { h with page, mem } (h.page i).next
    return (h, some count)

/-- The three functions. -/
inductive Kind
  | kmallocInit
  | kmalloc
  | kmallocStack
  deriving DecidableEq, Repr

def Kind.access : Kind → Access
  | .kmallocInit => .phys
  | .kmalloc | .kmallocStack => .virt

/-- The address that is returned for a block. -/
def Kind.ret : Kind → ℕ → ℕ
  | .kmallocInit, p | .kmalloc, p => VADDR (p * 4096 % 2 ^ 64)
  | .kmallocStack, p => (Vm.bumpPtr + p * 4096 % 2 ^ 64) % 2 ^ 64

/-- A call, with the address it returns.  The pages `kmalloc_stack` needs for page tables are taken
by calls of `kmalloc` of their own. -/
def call (h : Heap) (k : Kind) (size : ℕ) : Except Trap (Heap × Option ℕ) := do
  let (h, p) ← h.alloc k.access size
  return (h, p.map k.ret)

def kmallocInit (h : Heap) (size : ℕ) := h.call .kmallocInit size

def kmalloc (h : Heap) (size : ℕ) := h.call .kmalloc size

def kmallocStack (h : Heap) (size : ℕ) := h.call .kmallocStack size

/-! ## Release -/

/-- The place in the array of the descriptor for an address.  The number of the page is multiplied
by the size of a descriptor, and then added to a pointer to descriptors. -/
def getPageAtAddress (address : ℕ) : ℕ :=
  let addr := if KERNEL_VADDR < address then Vm.getStartingPage (PADDR address)
    else Vm.getStartingPage address
  addr / 4096 * sizeofPage

def release (p : Page) (pages : ℤ) : Page := { p with used := 0, blockSize := pages, refCount := 0 }

/-- The loop of `free`, over `n` descriptors. -/
def releasePages : ℕ → Heap → Option ℕ → Except Trap Heap
  | 0, h, _ => .ok h
  | _ + 1, _, none => .error .wild
  | n + 1, h, some i =>
    releasePages n
      { h with page := Function.update h.page i (release (h.page i) (int (n + 1 : ℕ))) }
      (h.page i).next

end Heap

/-- What is found past the end of the array is taken for a descriptor as well. -/
def free (h : Heap) (ptr : ℕ) : Except Trap Heap :=
  let i := Heap.getPageAtAddress ptr
  let numPages := (h.page i).blockSize
  let mem := Heap.memset .virt (numPages * 4096 % 2 ^ 32).toNat h.mem ptr
  Heap.releasePages (numPages % 2 ^ 32).toNat { h with mem } (some i)

/-! ## The memory map -/

structure SmapEntry where
  base : UInt64
  length : UInt64
  type : UInt32
  deriving DecidableEq, Repr

/-- The loop of `start` over the memory map: the end of the last entry that is memory. -/
def lastMemPtr (smap : List SmapEntry) : UInt64 :=
  smap.foldl (fun last e => if e.type = 1 ∧ e.length ≠ 0 then e.base + e.length else last) 0

/-- The call `start` makes. -/
def freeListOf (page : ℕ → Page) (mem : ℕ → ℕ) (smap : List SmapEntry) (physfree : UInt64) :
    Except Trap Heap :=
  Heap.calculateFreeList page mem (lastMemPtr smap / 0x1000).toNat physfree.toNat

end Bgox
