import Mathlib.Algebra.Group.Int.Defs
import Mathlib.Algebra.Group.Nat.Defs
import Bgox.Lib.Radix
import Bgox.Lib.Traced

/-!
# Page tables

`sys/paging.c` over physical memory as pages of 512 words.  The kernel works on a table through its
own mapping of physical memory, at `VADDR` of the table's address; here it reads and writes the
page itself, and a table is its page number.

`kmalloc` and `kmalloc_init` take their pages from `supply`, and give no page that is a page table
already.  `tables` and `clobbered` are there for the proofs: the pages that are page tables, and
those among them that something other than an entry of their own has been stored in.
-/

namespace Bgox

/-- Why the code does not go on: no memory, a page that is not mapped, a pointer the model does
not follow. -/
inductive Trap
  | noMemory
  | notMapped
  | wild
  deriving DecidableEq, Repr

/-- The value that is left of a number in an `int`. -/
def int (x : ℤ) : ℤ := x.bmod (2 ^ 32)

/-- `sizeof(struct page)`, and `sizeof(ready_task)`. -/
def sizeofPage : ℕ := 24

def KERNEL_VADDR : ℕ := 0xffffffff80000000

def VADDR (p : ℕ) : ℕ := (KERNEL_VADDR + p) % 2 ^ 64

def PADDR (v : ℕ) : ℕ := (v + 2 ^ 64 - KERNEL_VADDR) % 2 ^ 64

/-! ## Entries and the hardware's walk -/

def isPresentPage (e : ℕ) : Bool := e &&& 1 != 0

def isPageWritable (e : ℕ) : Bool := e &&& 2 != 0

def isPageUser (e : ℕ) : Bool := e &&& 4 != 0

/-- The page an entry leads to. -/
def entryPage (e : ℕ) : ℕ := e >>> 12

def entryChild (e : ℕ) : Option ℕ := if isPresentPage e then some (entryPage e) else none

def pteOff (vaddr : ℕ) : ℕ := vaddr >>> 12 &&& 0x1FF

def pdeOff (vaddr : ℕ) : ℕ := vaddr >>> 21 &&& 0x1FF

def pdpeOff (vaddr : ℕ) : ℕ := vaddr >>> 30 &&& 0x1FF

def pml4Off (vaddr : ℕ) : ℕ := vaddr >>> 39 &&& 0x1FF

def offsets (vaddr : ℕ) : List ℕ := [pml4Off vaddr, pdpeOff vaddr, pdeOff vaddr, pteOff vaddr]

/-- The four entries the processor meets on its way to the page of an address. -/
def walk (mem : ℕ → ℕ → ℕ) (pml4 vaddr : ℕ) : Option (List ℕ) :=
  Radix.trail entryChild mem pml4 (offsets vaddr)

/-- The page an address is translated to. -/
def translate (mem : ℕ → ℕ → ℕ) (pml4 vaddr : ℕ) : Option ℕ :=
  (walk mem pml4 vaddr).bind fun es => es.getLast?.map entryPage

structure Vm where
  mem : ℕ → ℕ → ℕ
  supply : List ℕ
  tables : List ℕ
  clobbered : List ℕ

namespace Vm

/-! ## Memory -/

/-- The whole pages a request is rounded up to. -/
def pagesFor (size : ℕ) : ℕ := if size % 4096 > 0 then size / 4096 + 1 else size / 4096

/-- `kmalloc(size)` and `kmalloc_init(size)`: the first page of a block.  The number of pages is an
`int` that is counted down to 0, and so is the length of the `memset`. -/
def kmalloc (s : Vm) (size : ℕ) : Except Trap (Vm × ℕ) :=
  match s.supply with
  | [] => .error .noMemory
  | p :: rest =>
    if pagesFor size = 0 ∨ 2 ^ 31 ≤ pagesFor size then .error .wild
    else if ∃ t ∈ s.tables, p ≤ t ∧ t < p + pagesFor size then .error .noMemory
    else
      .ok ({ s with
        supply := rest
        mem := fun t i => if p ≤ t ∧ t < p + pagesFor size % 2 ^ 20 then 0 else s.mem t i }, p)

/-- A page that is a page table from here on. -/
def newTable (s : Vm) : Except Trap (Vm × ℕ) := do
  let (s, t) ← s.kmalloc 1
  return ({ s with tables := t :: s.tables }, t)

/-- `table[off] = e`, which past the end of the page is in one of the next pages. -/
def write (s : Vm) (table off e : ℕ) : Vm :=
  let page := table + off / 512
  { s with
    mem := Radix.set s.mem page (off % 512) e
    clobbered := if 512 ≤ off ∧ page ∈ s.tables then page :: s.clobbered else s.clobbered }

/-- A store that is not meant for a page table. -/
def poke (s : Vm) (page i w : ℕ) : Vm :=
  { s with
    mem := Radix.set s.mem page i w
    clobbered := if page ∈ s.tables then page :: s.clobbered else s.clobbered }

/-! ## Mapping -/

/-- `RW_USER_FLAGS` or `RW_KERNEL_FLAGS`. -/
def rwFlags (access : ℕ) : ℕ := if access = 1 then 7 else 3

/-- A new table in an entry of the table above. -/
def allocTable (s : Vm) (table off access : ℕ) : Except Trap (Vm × ℕ) := do
  let (s, t) ← s.newTable
  return (s.write table off (t * 4096 ||| rwFlags access), t)

def allocPte (s : Vm) (pdeTable off access : ℕ) := s.allocTable pdeTable off access

def allocPde (s : Vm) (pdpeTable off access : ℕ) := s.allocTable pdpeTable off access

def allocPdpe (s : Vm) (pml4Table off access : ℕ) := s.allocTable pml4Table off access

/-- The tables for an address, made where they are missing: `pde_table` and `pte_table`. -/
def tablesFor (s : Vm) (vaddr pml4 access : ℕ) : Except Trap (Vm × ℕ × ℕ) :=
  let e := s.mem pml4 (pml4Off vaddr)
  if isPresentPage e then
    let pdpe := entryPage e
    let e := s.mem pdpe (pdpeOff vaddr)
    if isPresentPage e then
      let pde := entryPage e
      let e := s.mem pde (pdeOff vaddr)
      if isPresentPage e then .ok (s, pde, entryPage e)
      else do
        let (s, pte) ← s.allocPte pde (pdeOff vaddr) access
        return (s, pde, pte)
    else do
      let (s, pde) ← s.allocPde pdpe (pdpeOff vaddr) access
      let (s, pte) ← s.allocPte pde (pdeOff vaddr) access
      return (s, pde, pte)
  else do
    let (s, pdpe) ← s.allocPdpe pml4 (pml4Off vaddr) access
    let (s, pde) ← s.allocPde pdpe (pdpeOff vaddr) access
    let (s, pte) ← s.allocPte pde (pdeOff vaddr) access
    return (s, pde, pte)

/-- `n` entries of a table from `i` on, for the pages from `phys` on; with the address after
them. -/
def fill (entry : ℕ → ℕ) : ℕ → Vm → ℕ → ℕ → ℕ → Vm × ℕ
  | 0, s, _, _, phys => (s, phys)
  | n + 1, s, table, i, phys =>
    fill entry n (s.write table i (entry phys)) table (i + 1) ((phys + 4096) % 2 ^ 64)

/-- The bound of a loop whose counter is unsigned. -/
def toBound (n : ℤ) : ℕ := (n % 2 ^ 64).toNat

/-- The entry for a page when all of them fit in one table. -/
def leafEntry (access phys : ℕ) : ℕ := if access = 1 then phys >>> 12 <<< 12 ||| 7 else phys ||| 3

open Traced (lift tell)

/-- The loop over whole tables: `n` new ones in `pde_table` from `off` on.  The index is passed as
an `int`.  The log has the index of every store in a table. -/
def fillTablesTrace (access : ℕ) : ℕ → Vm → ℕ → ℕ → ℕ → Traced ℕ Trap (Vm × ℕ × ℕ)
  | 0, s, _, off, phys => pure (s, off, phys)
  | n + 1, s, pde, off, phys =>
    if 2 ^ 31 ≤ off then lift (.error .wild)
    else do
      let (s, pte) ← lift (s.allocPte pde off access)
      let r := s.fill (· ||| rwFlags access) 512 pte 0 phys
      tell (off :: List.range' 0 512)
      fillTablesTrace access n r.1 pde (off + 1) r.2

/-- What is left of a mapping after its first table: `n` whole tables from `next` on, and `rest`
entries of one table more. -/
def fillFurtherTrace (access n rest : ℕ) (r : Vm × ℕ) (pde next : ℕ) : Traced ℕ Trap Vm := do
  let (s, last, phys) ← fillTablesTrace access n r.1 pde next r.2
  if 2 ^ 31 ≤ last then lift (.error .wild)
  else
    let (s, pte) ← lift (s.allocPte pde last access)
    tell (last :: List.range' 0 rest)
    return (s.fill (· ||| rwFlags access) rest pte 0 phys).1

/-- `lno_of_pages` after the first table. -/
def lnoOfPages (v n : ℕ) : ℤ := int (int n - (512 - pteOff v))

/-- The number of turns of the loop up to `no_of_pte_t`. -/
def noOfPteT (v n : ℕ) : ℕ := toBound ((lnoOfPages v n).tdiv 512)

/-- The number of turns of the last loop.  The tables that the loop before has filled are not taken
off. -/
def lastEntries (v n : ℕ) : ℕ := toBound (int (lnoOfPages v n - 512 * pteOff v))

/-- With the index of every store in a table, but for those of `tablesFor`: its indices are those of
the address. -/
def initMapTrace (s : Vm) (vaddr paddr noOfPages pml4 access : ℕ) : Traced ℕ Trap Vm := do
  let (s, pde, pte) ← lift (s.tablesFor vaddr pml4 access)
  let off := pteOff vaddr
  if (noOfPages + off) % 2 ^ 64 ≤ 512 then
    let n := (noOfPages + off) % 2 ^ 64 - off
    tell (List.range' off n)
    return (s.fill (leafEntry access) n pte off paddr).1
  else
    tell (List.range' off (512 - off))
    fillFurtherTrace access (noOfPteT vaddr noOfPages) (lastEntries vaddr noOfPages)
      (s.fill (· ||| rwFlags access) (512 - off) pte off paddr) pde (pdeOff vaddr + 1)

def fillTables (access n : ℕ) (s : Vm) (pde off phys : ℕ) : Except Trap (Vm × ℕ × ℕ) :=
  (fillTablesTrace access n s pde off phys).result

def initMapVirtPhysAddr (s : Vm) (vaddr paddr noOfPages pml4 access : ℕ) : Except Trap Vm :=
  (s.initMapTrace vaddr paddr noOfPages pml4 access).result

def initMapLog (s : Vm) (vaddr paddr noOfPages pml4 access : ℕ) : Except Trap (Vm × List ℕ) :=
  (s.initMapTrace vaddr paddr noOfPages pml4 access).logged

theorem fillTables_succ (access n : ℕ) (s : Vm) (pde off phys : ℕ) :
    fillTables access (n + 1) s pde off phys =
      if 2 ^ 31 ≤ off then .error .wild
      else (do
        let (s, pte) ← s.allocPte pde off access
        let r := s.fill (· ||| rwFlags access) 512 pte 0 phys
        fillTables access n r.1 pde (off + 1) r.2) := by
  rw [fillTables, fillTablesTrace]
  split_ifs
  · rfl
  · simp only [Traced.result_lift_bind, Traced.result_tell_bind, fillTables]

theorem result_fillFurtherTrace (access n rest : ℕ) (r : Vm × ℕ) (pde next : ℕ) :
    (fillFurtherTrace access n rest r pde next).result = (do
      let (s, last, phys) ← fillTables access n r.1 pde next r.2
      if 2 ^ 31 ≤ last then .error .wild
      else
        let (s, pte) ← s.allocPte pde last access
        return (s.fill (· ||| rwFlags access) rest pte 0 phys).1) := by
  rw [fillFurtherTrace, Traced.result_bind]
  refine bind_congr fun ⟨s, last, phys⟩ => ?_
  simp only [Traced.result_ite, Traced.result_lift_bind, Traced.result_tell_bind,
    Traced.result_lift, Traced.result_pure]

theorem initMap_eq (s : Vm) (vaddr paddr noOfPages pml4 access : ℕ) :
    s.initMapVirtPhysAddr vaddr paddr noOfPages pml4 access = (do
      let (s, pde, pte) ← s.tablesFor vaddr pml4 access
      if (noOfPages + pteOff vaddr) % 2 ^ 64 ≤ 512 then
        return (s.fill (leafEntry access) ((noOfPages + pteOff vaddr) % 2 ^ 64 - pteOff vaddr) pte
          (pteOff vaddr) paddr).1
      else
        (fillFurtherTrace access (noOfPteT vaddr noOfPages) (lastEntries vaddr noOfPages)
          (s.fill (· ||| rwFlags access) (512 - pteOff vaddr) pte (pteOff vaddr) paddr) pde
          (pdeOff vaddr + 1)).result) := by
  simp only [initMapVirtPhysAddr, initMapTrace, Traced.result_lift_bind, Traced.result_ite,
    Traced.result_tell_bind, Traced.result_pure]

def physbase : ℕ := 0x200000

/-- `init_paging(KERNEL_VADDR + physbase, physbase, num_pages)`, with the page of `ker_pml4_t`. -/
def initPaging (s : Vm) (numPages : ℕ) : Except Trap (Vm × ℕ) := do
  let (s, ker) ← s.newTable
  let s ← s.initMapVirtPhysAddr 0 0 numPages ker 0
  let s ← s.initMapVirtPhysAddr (VADDR physbase) physbase
    ((numPages + 2 ^ 64 - physbase / 4096 + 1) % 2 ^ 64) ker 0
  let s ← s.initMapVirtPhysAddr 0xFFFFFFFF800B8000 0xB8000 1 ker 0
  return (s, ker)

def getStartingPage (addr : ℕ) : ℕ := addr - addr % 0x1000

def getEndingPage (addr : ℕ) : ℕ := getStartingPage ((addr + 0x1000 - 1) % 2 ^ 64)

/-- What is noted of what the loader does.  Segments are counted by their program headers. -/
inductive Event
  | print (text : String)
  | kmalloc
  | pid
  /-- A virtual page is mapped by `region_alloc`. -/
  | map (segment vpage : ℕ)
  | store (segment addr : ℕ)
  deriving DecidableEq

/-- The loop of `region_alloc`, for `n` pages from `v` on. -/
def mapPagesTrace (segment pml4 : ℕ) : ℕ → Vm → ℕ → Traced Event Trap Vm
  | 0, s, _ => pure s
  | n + 1, s, v => do
    let (s, addr) ← lift (s.kmalloc 1)
    tell [.kmalloc]
    let s ← lift (s.initMapVirtPhysAddr v (addr * 4096) 1 pml4 1)
    tell [.map segment (v / 4096)]
    mapPagesTrace segment pml4 n s (v + 4096)

def regionAllocTrace (segment : ℕ) (s : Vm) (pml4 va size : ℕ) : Traced Event Trap Vm :=
  let start := getStartingPage va
  let stop := getEndingPage ((va + size) % 2 ^ 64)
  mapPagesTrace segment pml4 ((stop - start) / 4096) s start

def mapPages (pml4 n : ℕ) (s : Vm) (v : ℕ) : Except Trap Vm :=
  (mapPagesTrace 0 pml4 n s v).result

def regionAlloc (s : Vm) (pml4 va size : ℕ) : Except Trap Vm :=
  (regionAllocTrace 0 s pml4 va size).result

theorem mapPages_succ (pml4 n : ℕ) (s : Vm) (v : ℕ) : mapPages pml4 (n + 1) s v = (do
    let (s, addr) ← s.kmalloc 1
    let s ← s.initMapVirtPhysAddr v (addr * 4096) 1 pml4 1
    mapPages pml4 n s (v + 4096)) := by
  simp only [mapPages, mapPagesTrace, Traced.result_lift_bind, Traced.result_tell_bind]

theorem result_mapPagesTrace (segment pml4 : ℕ) : ∀ (n : ℕ) (s : Vm) (v : ℕ),
    (mapPagesTrace segment pml4 n s v).result = mapPages pml4 n s v
  | 0, _, _ => rfl
  | n + 1, s, v => by
    simp only [mapPages_succ, mapPagesTrace, Traced.result_lift_bind, Traced.result_tell_bind,
      result_mapPagesTrace segment pml4 n]

theorem result_regionAllocTrace (segment : ℕ) (s : Vm) (pml4 va size : ℕ) :
    (regionAllocTrace segment s pml4 va size).result = s.regionAlloc pml4 va size := by
  simp only [regionAllocTrace, regionAlloc, result_mapPagesTrace]

theorem regionAlloc_eq_mapPages (s : Vm) (pml4 va size : ℕ) : s.regionAlloc pml4 va size =
    mapPages pml4 ((getEndingPage ((va + size) % 2 ^ 64) - getStartingPage va) / 4096) s
      (getStartingPage va) := rfl

def bumpPtr : ℕ := 0xFFFFF0F080700000

/-- The block is mapped at `bumpPtr` and its physical address, but for its first page only. -/
def kmallocStack (s : Vm) (size pml4 : ℕ) : Except Trap (Vm × ℕ) := do
  let (s, ret) ← s.kmalloc size
  let v := (bumpPtr + ret * 4096) % 2 ^ 64
  let s ← s.initMapVirtPhysAddr v (ret * 4096) 1 pml4 1
  return (s, v)

end Vm

end Bgox
