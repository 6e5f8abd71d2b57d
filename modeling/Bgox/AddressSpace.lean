import Bgox.Paging

/-!
# Address spaces

How the kernel makes and changes address spaces: `elf_run_bin` of `sys/elf64.c`, `sys_fork` of
`sys/process.c`, the mapping `page_fault_handler` of `sys/idt.c` makes, and `vma_malloc` of
`sys/mem.c`, over the memory of `Bgox.Paging`.

Segments, stacks and VMA nodes are stored where they really go: through the page tables that are
loaded, or at the address of the node, whatever that page is used for.  A store to a page that is
not mapped is a page fault, and the call does not go on.  The fields of a `task_struct` and its
kernel stack are in a block of their own and are left out.

Loader and `sys_fork` keep a log.  That of the loader has the blocks it takes from `kmalloc`, the
number it takes from `PID`, the pages `region_alloc` maps for each program header and the bytes that
are stored for it; the blocks `init_map_virt_phys_addr` takes for tables are not in it.  That of
`sys_fork` has the addresses in the child's address space that are stored to.  A log goes up to the
end of the call, or up to the page fault or the `kmalloc` without memory that the call does not come
back from.
-/

namespace Bgox

namespace Vm

/-! ## Stores through the page tables -/

/-- A word with its byte `k` replaced. -/
def setByte (w k b : ℕ) : ℕ := w - w / 256 ^ k % 256 * 256 ^ k + b % 256 * 256 ^ k

def pokeByte (s : Vm) (page off b : ℕ) : Vm :=
  s.poke page (off / 8) (setByte (s.mem page (off / 8)) (off % 8) b)

open Traced (lift tell)

/-- Bytes stored one after the other from a virtual address on. -/
def storeTrace (pml4 : ℕ) : List ℕ → Vm → ℕ → Traced ℕ Trap Vm
  | [], s, _ => pure s
  | b :: bs, s, va =>
    match translate s.mem pml4 va with
    | none => lift (.error .notMapped)
    | some page => do
      tell [va % 2 ^ 64]
      storeTrace pml4 bs (s.pokeByte page (va % 4096) b) ((va + 1) % 2 ^ 64)

def store (pml4 : ℕ) (bs : List ℕ) (s : Vm) (va : ℕ) : Except Trap Vm :=
  (storeTrace pml4 bs s va).result

theorem store_cons (pml4 b : ℕ) (bs : List ℕ) (s : Vm) (va : ℕ) :
    store pml4 (b :: bs) s va =
      match translate s.mem pml4 va with
      | none => .error .notMapped
      | some page => store pml4 bs (s.pokeByte page (va % 4096) b) ((va + 1) % 2 ^ 64) := by
  rw [store, storeTrace]
  split
  · rfl
  · rw [Traced.result_tell_bind, store]

/-- The words of the page at a virtual address. -/
def loadPage (s : Vm) (pml4 va : ℕ) : Except Trap (List ℕ) :=
  match translate s.mem pml4 va with
  | none => .error .notMapped
  | some page => .ok ((List.range 512).map (s.mem page))

def bytesOf (w : ℕ) : List ℕ := (List.range 8).map fun k => w / 256 ^ k % 256

/-! ## VMA nodes -/

structure Vma where
  vmStart : ℕ
  vmEnd : ℕ
  vmFile : ℕ
  vmPgoff : ℕ
  vmFlags : ℕ
  vmMmsz : ℕ

structure Mm where
  count : ℕ
  mmap : Option ℕ

/-- The last node of the chain from the one at the start of a page; `vm_next` is word 7. -/
def lastVma : ℕ → Vm → ℕ → Except Trap ℕ
  | 0, _, _ => .error .wild
  | fuel + 1, s, page =>
    let next := s.mem page 7
    if next = 0 then .ok page
    else if PADDR next % 4096 = 0 then lastVma fuel s (PADDR next / 4096)
    else .error .wild

/-- With the page the new node is at.  `vma + sizeof(struct vm_area_struct)` counts nodes of 64
bytes, so it is a page further on. -/
def vmaMalloc (s : Vm) (mm : Mm) : Except Trap (Vm × Mm × ℕ) :=
  match mm.mmap with
  | some vma => do
    let vma ← lastVma (mm.count + 1) s vma
    return (s.poke vma 7 (VADDR ((vma + 1) * 4096)), { mm with count := mm.count + 1 }, vma + 1)
  | none => do
    let (s, vma) ← s.kmalloc 64
    return (s, ⟨mm.count + 1, some vma⟩, vma)

def setVma (s : Vm) (node : ℕ) (v : Vma) : Vm :=
  [(1, v.vmStart), (2, v.vmEnd), (6, v.vmMmsz), (7, 0), (3, v.vmFile), (5, v.vmFlags),
    (4, v.vmPgoff)].foldl (fun s f => s.poke node f.1 f.2) s

/-! ## Loading a program -/

structure Phdr where
  pType : ℕ
  pFlags : ℕ
  pOffset : ℕ
  pVaddr : ℕ
  pFilesz : ℕ
  pMemsz : ℕ

/-- A file: the address of its image, the bytes of the image, and the program headers in it. -/
structure Elf where
  addr : ℕ
  image : ℕ → ℕ
  phdrs : List Phdr

def Elf.bytes (f : Elf) (off n : ℕ) : List ℕ := (List.range n).map fun i => f.image (off + i)

/-- The number of bytes that are cleared behind those of the file. -/
def Phdr.zeros (ph : Phdr) : ℕ :=
  if ph.pFilesz < ph.pMemsz then (ph.pMemsz - ph.pFilesz) % 2 ^ 32 else 0

/-- The VMA of a segment. -/
def Elf.vma (f : Elf) (ph : Phdr) : Vma :=
  ⟨ph.pVaddr, (ph.pVaddr + ph.pMemsz) % 2 ^ 64, f.addr, ph.pOffset, ph.pFlags, ph.pMemsz⟩

/-- The steps for a segment, up to its VMA.  A `p_filesz` above `p_memsz` is reported and nothing
more; `memcpy` and `memset` take their length as an `int`. -/
def fillSegmentTrace (segment : ℕ) (s : Vm) (f : Elf) (pml4 : ℕ) (ph : Phdr) :
    Traced Event Trap Vm := do
  tell (if ph.pFilesz > ph.pMemsz then [.print "Wrong size in elf binary\n"] else [])
  let s ← regionAllocTrace segment s pml4 ph.pVaddr ph.pMemsz
  let bytes := f.bytes ph.pOffset (ph.pFilesz % 2 ^ 32)
  let s ← (storeTrace pml4 bytes s ph.pVaddr).mapLog (.store segment)
  (storeTrace pml4 (List.replicate ph.zeros 0) s
    ((ph.pVaddr + ph.pFilesz) % 2 ^ 64)).mapLog (.store segment)

/-- One turn of the loop over the program headers. -/
def loadSegmentTrace (segment : ℕ) (s : Vm) (f : Elf) (pml4 : ℕ) (mm : Mm) (ph : Phdr) :
    Traced Event Trap (Vm × Mm) :=
  if ph.pType = 1 then do
    let s ← fillSegmentTrace segment s f pml4 ph
    let (s, mm, vm) ← lift (s.vmaMalloc mm)
    return (s.setVma vm (f.vma ph), mm)
  else pure (s, mm)

/-- With the list of VMAs it makes, which the rest of `elf_run_bin` does not look at. -/
def loadSegmentsTrace (f : Elf) (pml4 : ℕ) :
    ℕ → List Phdr → Vm → Mm → Traced Event Trap (Vm × Mm)
  | _, [], s, mm => pure (s, mm)
  | segment, ph :: phs, s, mm => do
    let (s, mm) ← loadSegmentTrace segment s f pml4 mm ph
    loadSegmentsTrace f pml4 (segment + 1) phs s mm

def fillSegment (s : Vm) (f : Elf) (pml4 : ℕ) (ph : Phdr) : Except Trap Vm :=
  (fillSegmentTrace 0 s f pml4 ph).result

def loadSegment (s : Vm) (f : Elf) (pml4 : ℕ) (mm : Mm) (ph : Phdr) : Except Trap (Vm × Mm) :=
  (loadSegmentTrace 0 s f pml4 mm ph).result

def loadSegmentsMm (f : Elf) (pml4 : ℕ) (phs : List Phdr) (s : Vm) (mm : Mm) :
    Except Trap (Vm × Mm) :=
  (loadSegmentsTrace f pml4 0 phs s mm).result

def loadSegments (f : Elf) (pml4 : ℕ) (phs : List Phdr) (s : Vm) (mm : Mm) : Except Trap Vm :=
  Prod.fst <$> loadSegmentsMm f pml4 phs s mm

section Segments

variable (segment : ℕ) (s : Vm) (f : Elf) (pml4 : ℕ) (mm : Mm) (ph : Phdr)

theorem result_fillSegmentTrace : (fillSegmentTrace segment s f pml4 ph).result = (do
    let s ← s.regionAlloc pml4 ph.pVaddr ph.pMemsz
    let s ← store pml4 (f.bytes ph.pOffset (ph.pFilesz % 2 ^ 32)) s ph.pVaddr
    store pml4 (List.replicate ph.zeros 0) s ((ph.pVaddr + ph.pFilesz) % 2 ^ 64)) := by
  rw [fillSegmentTrace, Traced.result_tell_bind]
  simp only [Traced.result_bind, Traced.result_mapLog, result_regionAllocTrace, store]

theorem fillSegment_eq : s.fillSegment f pml4 ph = (do
    let s ← s.regionAlloc pml4 ph.pVaddr ph.pMemsz
    let s ← store pml4 (f.bytes ph.pOffset (ph.pFilesz % 2 ^ 32)) s ph.pVaddr
    store pml4 (List.replicate ph.zeros 0) s ((ph.pVaddr + ph.pFilesz) % 2 ^ 64)) :=
  result_fillSegmentTrace 0 s f pml4 ph

variable {ph}

theorem loadSegment_eq (hload : ph.pType = 1) : s.loadSegment f pml4 mm ph = (do
    let s ← s.fillSegment f pml4 ph
    let (s, mm, node) ← s.vmaMalloc mm
    return (s.setVma node (f.vma ph), mm)) := by
  rw [loadSegment, loadSegmentTrace, if_pos hload]
  simp only [Traced.result_bind, Traced.result_lift, Traced.result_pure, fillSegment]

theorem loadSegment_of_ne (hload : ph.pType ≠ 1) : s.loadSegment f pml4 mm ph = .ok (s, mm) := by
  rw [loadSegment, loadSegmentTrace, if_neg hload]
  rfl

variable (ph)

theorem result_loadSegmentTrace :
    (loadSegmentTrace segment s f pml4 mm ph).result = s.loadSegment f pml4 mm ph := by
  by_cases hload : ph.pType = 1
  · rw [loadSegment_eq _ _ _ _ hload, loadSegmentTrace, if_pos hload]
    simp only [Traced.result_bind, Traced.result_lift, Traced.result_pure, fillSegment_eq,
      result_fillSegmentTrace]
  · rw [loadSegment_of_ne _ _ _ _ hload, loadSegmentTrace, if_neg hload]
    rfl

end Segments

theorem result_loadSegmentsTrace (f : Elf) (pml4 : ℕ) : ∀ (k : ℕ) (phs : List Phdr) (s : Vm)
    (mm : Mm), (loadSegmentsTrace f pml4 k phs s mm).result = loadSegmentsMm f pml4 phs s mm
  | _, [], _, _ => rfl
  | k, ph :: phs, s, mm => by
    rw [loadSegmentsMm, loadSegmentsTrace, loadSegmentsTrace, Traced.result_bind,
      Traced.result_bind, result_loadSegmentTrace, result_loadSegmentTrace]
    refine bind_congr fun r => ?_
    rw [result_loadSegmentsTrace f pml4 (k + 1) phs, result_loadSegmentsTrace f pml4 (0 + 1) phs]

theorem loadSegmentsMm_cons (f : Elf) (pml4 : ℕ) (ph : Phdr) (phs : List Phdr) (s : Vm) (mm : Mm) :
    loadSegmentsMm f pml4 (ph :: phs) s mm = (do
      let (s, mm) ← s.loadSegment f pml4 mm ph
      loadSegmentsMm f pml4 phs s mm) := by
  rw [loadSegmentsMm, loadSegmentsTrace, Traced.result_bind, result_loadSegmentTrace]
  simp only [result_loadSegmentsTrace]

theorem loadSegments_cons (f : Elf) (pml4 : ℕ) (ph : Phdr) (phs : List Phdr) (s : Vm) (mm : Mm) :
    loadSegments f pml4 (ph :: phs) s mm = (do
      let (s, mm) ← s.loadSegment f pml4 mm ph
      loadSegments f pml4 phs s mm) := by
  simp only [loadSegments, loadSegmentsMm_cons, map_bind]

/-- A page is filled with entries and is a PML4 from here on. -/
def addRoot (s : Vm) (page : ℕ) (entries : ℕ → ℕ) : Vm :=
  { s with mem := Function.update s.mem page entries, tables := page :: s.tables }

/-! ## Copying the memory of a parent -/

/-- `n` words of `file` from `src` on, each stored one byte further on than the one before. -/
def copyWordsTrace (file : ℕ → ℕ) (pml4 : ℕ) : ℕ → Vm → ℕ → ℕ → Traced ℕ Trap Vm
  | 0, s, _, _ => pure s
  | n + 1, s, dst, src => do
    let s ← storeTrace pml4 ((List.range 8).map fun k => file ((src + k) % 2 ^ 64)) s dst
    copyWordsTrace file pml4 n s ((dst + 1) % 2 ^ 64) ((src + 1) % 2 ^ 64)

/-- The loop of `sys_fork` over the parent's VMAs. -/
def copyVmasTrace (file : ℕ → ℕ) (pml4 : ℕ) : List Vma → Vm → Mm → Traced ℕ Trap Vm
  | [], s, _ => pure s
  | v :: vs, s, mm => do
    let (s, mm, node) ← lift (s.vmaMalloc mm)
    let s ← lift ((s.setVma node v).regionAlloc pml4 v.vmStart v.vmMmsz)
    let s ← copyWordsTrace file pml4 v.vmMmsz s v.vmStart ((v.vmFile + v.vmPgoff) % 2 ^ 64)
    copyVmasTrace file pml4 vs s mm

def copyWords (file : ℕ → ℕ) (pml4 n : ℕ) (s : Vm) (dst src : ℕ) : Except Trap Vm :=
  (copyWordsTrace file pml4 n s dst src).result

def copyVmas (file : ℕ → ℕ) (pml4 : ℕ) (vs : List Vma) (s : Vm) (mm : Mm) : Except Trap Vm :=
  (copyVmasTrace file pml4 vs s mm).result

theorem copyWords_succ (file : ℕ → ℕ) (pml4 n : ℕ) (s : Vm) (dst src : ℕ) :
    copyWords file pml4 (n + 1) s dst src = (do
      let s ← store pml4 ((List.range 8).map fun k => file ((src + k) % 2 ^ 64)) s dst
      copyWords file pml4 n s ((dst + 1) % 2 ^ 64) ((src + 1) % 2 ^ 64)) := by
  simp only [copyWords, copyWordsTrace, Traced.result_bind, store]

theorem copyVmas_cons (file : ℕ → ℕ) (pml4 : ℕ) (v : Vma) (vs : List Vma) (s : Vm) (mm : Mm) :
    copyVmas file pml4 (v :: vs) s mm = (do
      let (s, mm, node) ← s.vmaMalloc mm
      let s ← (s.setVma node v).regionAlloc pml4 v.vmStart v.vmMmsz
      let s ← copyWords file pml4 v.vmMmsz s v.vmStart ((v.vmFile + v.vmPgoff) % 2 ^ 64)
      copyVmas file pml4 vs s mm) := by
  simp only [copyVmas, copyVmasTrace, Traced.result_bind, Traced.result_lift, copyWords]

end Vm

/-! ## The system -/

/-- What matters here of a process. -/
structure Proc where
  pml4 : ℕ
  ustack : ℕ
  deriving DecidableEq, Repr

structure System where
  vm : Vm
  /-- The page of `ker_pml4_t`. -/
  ker : ℕ
  procs : List Proc

namespace System

/-- The size of a `task_struct`. -/
def sizeofTaskStruct : ℕ := 32976

open Traced (lift tell)

/-- `elf_run_bin` up to the segments: memory, PML4 and stack of the new process. -/
def newProcessTrace (s : System) : Traced Vm.Event Trap (Vm × ℕ × ℕ) := do
  let (vm, pml4a) ← lift (s.vm.kmalloc sizeofPage)
  tell [.kmalloc]
  let (vm, _) ← lift (vm.kmalloc sizeofTaskStruct)
  tell [.kmalloc, .pid]
  let vm := vm.addRoot pml4a (Function.update (fun _ => 0) 511 (vm.mem s.ker 511))
  let (vm, ustack) ← lift (vm.kmallocStack 1 pml4a)
  tell [.kmalloc]
  let vm ← lift (Vm.store pml4a (List.replicate 4096 0) vm ustack)
  return (vm, pml4a, ustack)

/-- With the `mm_struct` of the new process. -/
def elfRunBinTrace (s : System) (f : Vm.Elf) : Traced Vm.Event Trap (System × Vm.Mm) := do
  let (vm, pml4a, ustack) ← s.newProcessTrace
  let (vm, mm) ← Vm.loadSegmentsTrace f pml4a 0 f.phdrs vm ⟨0, none⟩
  return ({ s with vm, procs := s.procs ++ [⟨pml4a, ustack⟩] }, mm)

def newProcess (s : System) : Except Trap (Vm × ℕ × ℕ) := s.newProcessTrace.result

def elfRunBinMm (s : System) (f : Vm.Elf) : Except Trap (System × Vm.Mm) :=
  (s.elfRunBinTrace f).result

def elfRunBin (s : System) (f : Vm.Elf) : Except Trap System := Prod.fst <$> s.elfRunBinMm f

theorem newProcess_eq (s : System) : s.newProcess = (do
    let (vm, pml4a) ← s.vm.kmalloc sizeofPage
    let (vm, _) ← vm.kmalloc sizeofTaskStruct
    let vm := vm.addRoot pml4a (Function.update (fun _ => 0) 511 (vm.mem s.ker 511))
    let (vm, ustack) ← vm.kmallocStack 1 pml4a
    let vm ← Vm.store pml4a (List.replicate 4096 0) vm ustack
    return (vm, pml4a, ustack)) := by
  simp only [newProcess, newProcessTrace, Traced.result_lift_bind, Traced.result_tell_bind,
    Traced.result_pure]

theorem elfRunBinMm_eq (s : System) (f : Vm.Elf) : s.elfRunBinMm f = (do
    let (vm, pml4a, ustack) ← s.newProcess
    let (vm, mm) ← vm.loadSegmentsMm f pml4a f.phdrs ⟨0, none⟩
    return ({ s with vm, procs := s.procs ++ [⟨pml4a, ustack⟩] }, mm)) := by
  simp only [elfRunBinMm, elfRunBinTrace, Traced.result_bind, Vm.result_loadSegmentsTrace,
    newProcess, Traced.result_pure]

theorem elfRunBin_eq (s : System) (f : Vm.Elf) : s.elfRunBin f = (do
    let (vm, pml4a, ustack) ← s.newProcess
    let vm ← vm.loadSegments f pml4a f.phdrs ⟨0, none⟩
    return { s with vm, procs := s.procs ++ [⟨pml4a, ustack⟩] }) := by
  simp only [elfRunBin, elfRunBinMm_eq, Vm.loadSegments, map_bind, bind_map_left, map_pure]

/-- The blocks `sys_fork` starts with: `pcb` and its node in the list of tasks, the PML4, and
`temp_kstack` and `temp_ustack`; with the PML4 and the last of them. -/
def forkBlocks (s : System) : Except Trap (Vm × ℕ × ℕ) := do
  let (vm, _) ← s.vm.kmalloc sizeofTaskStruct
  -- add_to_task_list
  let (vm, _) ← vm.kmalloc sizeofPage
  let (vm, pml4a) ← vm.kmalloc sizeofPage
  let (vm, _) ← vm.kmalloc 1
  let (vm, temp) ← vm.kmalloc 1
  return (vm, pml4a, temp)

/-- `sys_fork` up to the VMAs: memory, PML4 and stack of the child, and the words that were read
from the parent's stack.  The new PML4 is cleared and given `ker_pml4_t[511]` before the parent's
entries are copied over all of it. -/
def newChildTrace (s : System) (parent : Proc) : Traced ℕ Trap (Vm × ℕ × ℕ × List ℕ) := do
  let (vm, pml4a, temp) ← lift s.forkBlocks
  let stack ← lift (vm.loadPage parent.pml4 parent.ustack)
  let vm := { vm with mem := Function.update vm.mem temp fun j => stack.getD j 0 }
  let vm := vm.addRoot pml4a (vm.mem parent.pml4)
  let (vm, ustack) ← lift (vm.kmallocStack 1 pml4a)
  let vm ← Vm.storeTrace pml4a (stack.flatMap Vm.bytesOf) vm ustack
  return (vm, pml4a, ustack, stack)

/-- `vmas` is what the nodes of the parent say, and `file` what is in the kernel's memory at the
addresses they name.  With the child's stack, and what was read from the parent's. -/
def sysForkTrace (s : System) (parent : Proc) (vmas : List Vm.Vma) (file : ℕ → ℕ) :
    Traced ℕ Trap (System × ℕ × List ℕ) := do
  let (vm, pml4a, ustack, stack) ← s.newChildTrace parent
  let vm ← Vm.copyVmasTrace file pml4a vmas vm ⟨0, none⟩
  return ({ s with vm, procs := s.procs ++ [⟨pml4a, ustack⟩] }, ustack, stack)

def newChild (s : System) (parent : Proc) : Except Trap (Vm × ℕ × ℕ × List ℕ) :=
  (s.newChildTrace parent).result

def sysFork (s : System) (parent : Proc) (vmas : List Vm.Vma) (file : ℕ → ℕ) :
    Except Trap System :=
  Prod.fst <$> (s.sysForkTrace parent vmas file).result

/-- With the addresses that are stored to in the child's address space. -/
def sysForkLog (s : System) (parent : Proc) (vmas : List Vm.Vma) (file : ℕ → ℕ) :
    Except Trap (System × List ℕ) :=
  (fun r => (r.1.1, r.2)) <$> (s.sysForkTrace parent vmas file).logged

theorem newChild_eq (s : System) (parent : Proc) : s.newChild parent = (do
    let (vm, pml4a, temp) ← s.forkBlocks
    let stack ← vm.loadPage parent.pml4 parent.ustack
    let vm := { vm with mem := Function.update vm.mem temp fun j => stack.getD j 0 }
    let vm := vm.addRoot pml4a (vm.mem parent.pml4)
    let (vm, ustack) ← vm.kmallocStack 1 pml4a
    let vm ← Vm.store pml4a (stack.flatMap Vm.bytesOf) vm ustack
    return (vm, pml4a, ustack, stack)) := by
  simp only [newChild, newChildTrace, Traced.result_bind, Traced.result_lift, Traced.result_pure,
    Vm.store]

theorem result_sysForkTrace (s : System) (parent : Proc) (vmas : List Vm.Vma) (file : ℕ → ℕ) :
    (s.sysForkTrace parent vmas file).result = (do
      let (vm, pml4a, ustack, stack) ← s.newChild parent
      let vm ← vm.copyVmas file pml4a vmas ⟨0, none⟩
      return ({ s with vm, procs := s.procs ++ [⟨pml4a, ustack⟩] }, ustack, stack)) := by
  simp only [sysForkTrace, Traced.result_bind, newChild, Vm.copyVmas, Traced.result_pure]

theorem sysFork_eq (s : System) (parent : Proc) (vmas : List Vm.Vma) (file : ℕ → ℕ) :
    s.sysFork parent vmas file = (do
      let (vm, pml4a, ustack, _) ← s.newChild parent
      let vm ← vm.copyVmas file pml4a vmas ⟨0, none⟩
      return { s with vm, procs := s.procs ++ [⟨pml4a, ustack⟩] }) := by
  simp only [sysFork, result_sysForkTrace, map_bind, map_pure]

/-- The child's `kstack`: the 512 words that are copied, and over them a frame for `iretq` and the
address in `isr32` at which the child starts.  The stack pointer in the frame depends on the first
word of the user stack that is not zero. -/
def childKstack (kstack : ℕ → ℕ) (stack : List ℕ) (ustack isr32 : ℕ) : ℕ → ℕ :=
  let i := stack.findIdx fun w => w != 0
  let offset := (2 ^ 64 + 511 - i - 1) % 2 ^ 64
  let k := fun j => if j < 512 then kstack j else 0
  let k := Function.update k 511 0x23
  let k := Function.update k 510 ((ustack + 8 * ((2 ^ 64 + 511 - offset) % 2 ^ 64)) % 2 ^ 64)
  let k := Function.update k 509 0x200286
  let k := Function.update k 508 0x1b
  let k := Function.update k 507 (kstack 506)
  let k := Function.update k 506 0
  Function.update k 491 ((isr32 + 29) % 2 ^ 64)

/-- With the parent's `kstack`, and that of the child. -/
def sysForkKstack (s : System) (parent : Proc) (kstack : ℕ → ℕ) (isr32 : ℕ) (vmas : List Vm.Vma)
    (file : ℕ → ℕ) : Except Trap (System × (ℕ → ℕ)) :=
  (fun r => (r.1, childKstack kstack r.2.2 r.2.1 isr32)) <$>
    (s.sysForkTrace parent vmas file).result

/-- The mapping `page_fault_handler` makes before it starts a new shell. -/
def pageFaultHandler (s : System) (p : Proc) (pfAddr errCode : ℕ) : Except Trap System :=
  if errCode = 5 ∨ errCode = 7 ∨ errCode = 1 ∨ errCode = 3 then do
    let vm ← s.vm.initMapVirtPhysAddr pfAddr (PADDR pfAddr) 1 p.pml4 1
    return { s with vm }
  else do
    let (vm, pp) ← s.vm.kmalloc 1
    let vm ← vm.initMapVirtPhysAddr pfAddr (pp * 4096) 1 p.pml4 1
    return { s with vm }

/-- The calls that make and change address spaces. -/
inductive Op
  | elfRunBin (f : Vm.Elf)
  | sysFork (parent : Proc) (vmas : List Vm.Vma) (file : ℕ → ℕ)
  | kmallocStack (p : Proc) (size : ℕ)
  | regionAlloc (p : Proc) (va size : ℕ)
  | pageFault (p : Proc) (pfAddr errCode : ℕ)

/-- The processes a call is made for. -/
def Op.on : Op → List Proc
  | .elfRunBin _ => []
  | .sysFork p _ _ | .kmallocStack p _ | .regionAlloc p _ _ | .pageFault p _ _ => [p]

/-- A call, with the pages `kmalloc` returns in it. -/
def step (s : System) (op : Op) (supply : List ℕ) : Except Trap System :=
  let s := { s with vm := { s.vm with supply } }
  match op with
  | .elfRunBin f => s.elfRunBin f
  | .sysFork parent vmas file => s.sysFork parent vmas file
  | .kmallocStack p size => do
    let (vm, _) ← s.vm.kmallocStack size p.pml4
    return { s with vm }
  | .regionAlloc p va size => do
    let vm ← s.vm.regionAlloc p.pml4 va size
    return { s with vm }
  | .pageFault p pfAddr errCode => s.pageFaultHandler p pfAddr errCode

/-- A call for processes there are, with physical memory that ends below 2 ^ 39. -/
def Step (s : System) (call : Op × List ℕ) (s' : System) : Prop :=
  (∀ p ∈ call.1.on, p ∈ s.procs) ∧ (∀ f ∈ call.2, f < 2 ^ 27) ∧ s.step call.1 call.2 = .ok s'

/-- The boot task on the tables of `init_paging`. -/
def start (mem : ℕ → ℕ → ℕ) (supply : List ℕ) (numPages : ℕ) : Except Trap System := do
  let (vm, ker) ← Vm.initPaging ⟨mem, supply, [], []⟩ numPages
  let (vm, _) ← vm.kmalloc sizeofTaskStruct
  return ⟨vm, ker, [⟨ker, 0⟩]⟩

end System

end Bgox
