import Bgox.Paging

/-!
# The kernel's window

The kernel reaches a page of physical memory at `VADDR` of its address, and what it reaches there is
up to the tables below the PML4 in `CR3`.  This is `region_alloc` with every access of the kernel
translated by them: the entries that are read and written, and the `memset` of `kmalloc`.  The
translation is looked up for each access, as if the processor remembered none.

The search through the page descriptors is left as `supply`, so a region over their addresses is not
meant.  `Open.regionAlloc` says when all this is `Vm.regionAlloc`.
-/

namespace Bgox

namespace Window

/-- The page at the kernel's address for page `x`. -/
def page (cr3 : ℕ) (s : Vm) (x : ℕ) : Except Trap ℕ :=
  match translate s.mem cr3 (VADDR (x * 4096)) with
  | none => .error .notMapped
  | some y => .ok y

/-- `memset(VADDR(x), 0, 4096)`.  All of it is in one page; if that is a table the processor needs
to get there, the rest of the way is not followed. -/
def clear (cr3 : ℕ) (s : Vm) (x : ℕ) : Except Trap Vm := do
  let y ← page cr3 s x
  if y ∈ Radix.visits entryChild s.mem cr3 (offsets (VADDR (x * 4096))) then .error .wild
  else
    return { s with
      mem := Radix.clear 0 s.mem y
      clobbered := if y ∈ s.tables then y :: s.clobbered else s.clobbered }

/-- `kmalloc(1)`. -/
def kmalloc (cr3 : ℕ) (s : Vm) : Except Trap (Vm × ℕ) :=
  match s.supply with
  | [] => .error .noMemory
  | x :: rest =>
    if x ∈ s.tables then .error .noMemory
    else do
      let s ← clear cr3 { s with supply := rest } x
      return (s, x)

/-- `table[off]`. -/
def load (cr3 : ℕ) (s : Vm) (table off : ℕ) : Except Trap ℕ := do
  let y ← page cr3 s table
  return s.mem y off

/-- `table[off] = e`. -/
def store (cr3 : ℕ) (s : Vm) (table off e : ℕ) : Except Trap Vm := do
  let y ← page cr3 s table
  return if y = table then s.write table off e else s.poke y off e

/-- `alloc_pdpe`, `alloc_pde` and `alloc_pte`, with access 1. -/
def allocTable (cr3 : ℕ) (s : Vm) (table off : ℕ) : Except Trap (Vm × ℕ) := do
  let (s, t) ← kmalloc cr3 s
  let s ← store cr3 { s with tables := t :: s.tables } table off (t * 4096 ||| Vm.rwFlags 1)
  return (s, t)

/-- `pte_table` of an address. -/
def tableFor (cr3 : ℕ) (s : Vm) (vaddr pml4 : ℕ) : Except Trap (Vm × ℕ) := do
  let e ← load cr3 s pml4 (pml4Off vaddr)
  if isPresentPage e then
    let pdpe := entryPage e
    let e ← load cr3 s pdpe (pdpeOff vaddr)
    if isPresentPage e then
      let pde := entryPage e
      let e ← load cr3 s pde (pdeOff vaddr)
      if isPresentPage e then return (s, entryPage e)
      else allocTable cr3 s pde (pdeOff vaddr)
    else
      let (s, pde) ← allocTable cr3 s pdpe (pdpeOff vaddr)
      allocTable cr3 s pde (pdeOff vaddr)
  else
    let (s, pdpe) ← allocTable cr3 s pml4 (pml4Off vaddr)
    let (s, pde) ← allocTable cr3 s pdpe (pdpeOff vaddr)
    allocTable cr3 s pde (pdeOff vaddr)

/-- `init_map_virt_phys_addr(vaddr, paddr, 1, pml4, 1)`. -/
def initMapVirtPhysAddr (cr3 : ℕ) (s : Vm) (vaddr paddr pml4 : ℕ) : Except Trap Vm := do
  let (s, pte) ← tableFor cr3 s vaddr pml4
  store cr3 s pte (pteOff vaddr) (Vm.leafEntry 1 paddr)

/-- The loop of `region_alloc`. -/
def mapPages (cr3 pml4 : ℕ) : ℕ → Vm → ℕ → Except Trap Vm
  | 0, s, _ => .ok s
  | n + 1, s, v => do
    let (s, addr) ← kmalloc cr3 s
    let s ← initMapVirtPhysAddr cr3 s v (addr * 4096) pml4
    mapPages cr3 pml4 n s (v + 4096)

def regionAlloc (cr3 : ℕ) (s : Vm) (pml4 va size : ℕ) : Except Trap Vm :=
  let start := Vm.getStartingPage va
  let stop := Vm.getEndingPage ((va + size) % 2 ^ 64)
  mapPages cr3 pml4 ((stop - start) / 4096) s start

end Window

end Bgox
