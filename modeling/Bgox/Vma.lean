import Bgox.Mem

/-!
# The nodes of memory maps

`vma_malloc` of `sys/mem.c` over the allocator of `Bgox.Mem`, with `kmalloc` and `region_alloc`
called in between.  `vm_next` is read from, and written to, the memory at the address of a node.
What has been returned is recorded: nodes with the `mm_struct` they are for, and blocks.
-/

namespace Bgox

/-- `struct mm_struct`, with the address of its first node. -/
structure MmStruct where
  count : ℕ
  mmap : ℕ
  deriving DecidableEq, Repr

/-- What `vma_malloc` has returned for an `mm_struct`. -/
structure Node where
  mm : ℕ
  addr : ℕ
  deriving DecidableEq, Repr

/-- What `kmalloc` has returned.  If it was `vma_malloc` that called it there is an owner. -/
structure Block where
  owner : Option ℕ
  addr : ℕ
  size : ℕ
  deriving DecidableEq, Repr

structure Mmaps where
  heap : Heap
  mm : ℕ → MmStruct
  nodes : List Node
  blocks : List Block

namespace Mmaps

def sizeofVma : ℕ := 64

/-- Where the field `vm_next` is in a node. -/
def vmNext : ℕ := 56

/-- The word at a physical address. -/
def word (mem : ℕ → ℕ) (p : ℕ) : ℕ :=
  (List.range 8).foldr (fun k w => mem (p + k) % 256 + 256 * w) 0

def setWord (mem : ℕ → ℕ) (p w x : ℕ) : ℕ :=
  if p ≤ x ∧ x < p + 8 then w / 256 ^ (x - p) % 256 else mem x

/-- The physical address of the field `vm_next` of a node. -/
def nextAt (vma : ℕ) : ℕ := Heap.Access.virt.toPhys ((vma + vmNext) % 2 ^ 64)

/-- The last node of a chain.  One that does not end in time is not followed. -/
def lastVma (mem : ℕ → ℕ) : ℕ → ℕ → Except Trap ℕ
  | 0, _ => .error .wild
  | fuel + 1, vma => if word mem (nextAt vma) = 0 then .ok vma
    else lastVma mem fuel (word mem (nextAt vma))

def kmalloc (s : Mmaps) (owner : Option ℕ) (size : ℕ) : Except Trap (Mmaps × ℕ) := do
  let (heap, addr) ← s.heap.kmalloc size
  match addr with
  | none => return ({ s with heap }, 0)
  | some addr =>
    return ({ s with heap, blocks := ⟨owner, addr, Vm.pagesFor size * 4096⟩ :: s.blocks }, addr)

/-- `vma + sizeof(struct vm_area_struct)` counts in nodes. -/
def vmaMalloc (s : Mmaps) (mm : ℕ) : Except Trap Mmaps :=
  let m := s.mm mm
  if m.mmap ≠ 0 then do
    let vma ← lastVma s.heap.mem (m.count + 1) m.mmap
    let node := (vma + sizeofVma * sizeofVma) % 2 ^ 64
    let heap := { s.heap with mem := setWord s.heap.mem (nextAt vma) node }
    let mms := Function.update s.mm mm { m with count := m.count + 1 }
    return { s with heap, mm := mms, nodes := ⟨mm, node⟩ :: s.nodes }
  else do
    let (s, vma) ← s.kmalloc (some mm) sizeofVma
    let mms := Function.update s.mm mm ⟨m.count + 1, vma⟩
    return { s with mm := mms, nodes := ⟨mm, vma⟩ :: s.nodes }

/-- `n` pages, for page tables. -/
def kmallocs : ℕ → Mmaps → Except Trap Mmaps
  | 0, s => .ok s
  | n + 1, s => do
    let (s, _) ← s.kmalloc none 1
    kmallocs n s

/-- The loop of `region_alloc`.  How many tables `init_map_virt_phys_addr` has to make for a page
is left open. -/
def mapPages (tables : ℕ → ℕ) : ℕ → Mmaps → ℕ → Except Trap Mmaps
  | 0, s, _ => .ok s
  | n + 1, s, v => do
    let (s, _) ← s.kmalloc none 1
    let s ← kmallocs (tables v) s
    mapPages tables n s (v + 4096)

/-- The number of pages of a region. -/
def regionPages (va size : ℕ) : ℕ :=
  (Vm.getEndingPage ((va + size) % 2 ^ 64) - Vm.getStartingPage va) / 4096

def regionAlloc (s : Mmaps) (va size : ℕ) (tables : ℕ → ℕ) : Except Trap Mmaps :=
  mapPages tables (regionPages va size) s (Vm.getStartingPage va)

inductive Op
  | vmaMalloc (mm : ℕ)
  | kmalloc (size : ℕ)
  | regionAlloc (va size : ℕ) (tables : ℕ → ℕ)

/-- A call, with the memory as the owners of the blocks have left it. -/
def step (s : Mmaps) (op : Op) (mem : ℕ → ℕ) : Except Trap Mmaps :=
  let s := { s with heap := { s.heap with mem } }
  match op with
  | .vmaMalloc mm => s.vmaMalloc mm
  | .kmalloc size => do
    let (s, _) ← s.kmalloc none size
    return s
  | .regionAlloc va size tables => s.regionAlloc va size tables

end Mmaps

end Bgox
