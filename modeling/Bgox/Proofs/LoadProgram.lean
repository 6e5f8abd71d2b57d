import Mathlib.Algebra.Order.BigOperators.Group.List
import Mathlib.Algebra.Order.Group.Nat
import Mathlib.Data.List.Perm.Subperm
import Bgox.Proofs.LoadImage

/-!
# `elf_run_bin`

A program is loaded to a new PML4 that has the kernel's half and a stack.  With enough memory that
always works, and what the program sees is its segments, loaded one after the other
(`Inv.exists_image`).  That is the image the file describes if and only if no segment has anything
in a page of a later one (`image_loaded_iff`): `region_alloc` maps a new page wherever a segment is,
also where there is one already.
-/

namespace Bgox

open Run (bind_eq_ok Reach)

namespace System

variable {s s' : System} {lab : ℕ → Option (List ℕ)} {t u : ℕ} {vm : Vm} {f : Vm.Elf} {mm : Vm.Mm}

/-! ## The address space the segments are loaded to -/

theorem elfRunBin_of_mm (h : s.elfRunBinMm f = .ok (s', mm)) : s.elfRunBin f = .ok s' := by
  rw [elfRunBin, h]
  rfl

/-- Below a new PML4 there is nothing but the kernel's half. -/
theorem Inv.space_addRoot (h : Inv { s with vm } lab) (hc : vm.clobbered = [])
    (ht : t ∉ vm.tables) (hnodup : vm.supply.Nodup)
    (hnew : ∀ x ∈ vm.supply, x ≠ t ∧ x ∉ vm.tables) :
    (vm.addRoot t (Function.update (fun _ => 0) 511 (vm.mem s.ker 511))).Space t [] ∧
      ∀ v, pml4Off v ≠ 511 → translate (vm.addRoot t
        (Function.update (fun _ => 0) 511 (vm.mem s.ker 511))).mem t v = none := by
  have hnone : ∀ v, pml4Off v ≠ 511 → translate (vm.addRoot t
      (Function.update (fun _ => 0) 511 (vm.mem s.ker 511))).mem t v = none := by
    intro v hv
    rw [translate, walk, offsets, Radix.trail_cons_none]
    · rfl
    · simp [Vm.addRoot, hv, entryChild_zero]
  obtain ⟨-, hwf⟩ := Vm.addRoot_labels h.wf ht (row_of_ker h.ker vm.mem)
  refine ⟨⟨hc, ⟨hnodup, fun x hx => ?_⟩, ⟨_, hwf, by simp⟩, fun v page hv hp => ?_,
    fun v w page hv _ hp _ => ?_, by simp⟩, hnone⟩
  · obtain ⟨hne, htab⟩ := hnew x hx
    exact List.not_mem_cons_of_ne_of_not_mem hne htab
  · rw [hnone v hv] at hp
    cases hp
  · rw [hnone v hv] at hp
    cases hp

theorem pml4Off_stackAt {ret i : ℕ} (hret : ret < 2 ^ 27) (hi : i < 4096) :
    pml4Off (stackAt ret + i) ≠ 511 := by
  have hlt := pml4Off_stack hret
  have halign := stackAt_aligned ret
  have hsame : pml4Off (stackAt ret + i) = pml4Off (stackAt ret) := by
    rw [pml4Off, pml4Off, off_eq, off_eq]
    omega
  rw [hsame]
  exact Nat.ne_of_lt hlt

theorem newProcess_ok (h : s.newProcess = .ok (vm, t, u)) :
    ∃ vma vmb vmc vmd pcb ret, s.vm.kmalloc sizeofPage = .ok (vma, t) ∧
      vma.kmalloc sizeofTaskStruct = .ok (vmb, pcb) ∧
      (vmb.addRoot t (Function.update (fun _ => 0) 511 (vmb.mem s.ker 511))).kmalloc 1
        = .ok (vmc, ret) ∧
      vmc.initMapVirtPhysAddr (stackAt ret) (ret * 4096) 1 t 1 = .ok vmd ∧
      Vm.store t (List.replicate 4096 0) vmd (stackAt ret) = .ok vm ∧ u = stackAt ret := by
  obtain ⟨vma, vmb, vmd, pcb, ha, hb, hstack, hzero⟩ := newProcess_course h
  obtain ⟨vmc, ret, hk, rfl, hm⟩ := Vm.kmallocStack_ok hstack
  exact ⟨vma, vmb, vmc, vmd, pcb, ret, ha, hb, hk, hm, hzero, rfl⟩

/-- The PML4 of a new process and its `task_struct` have been taken from the supply. -/
theorem Inv.newRoot {vma vmb : Vm} {pcb : ℕ} (h : s.Inv lab) (hc : s.vm.clobbered = [])
    (hnodup : s.vm.supply.Nodup) (hnew : ∀ x ∈ s.vm.supply, x ∉ s.vm.tables)
    (ha : s.vm.kmalloc sizeofPage = .ok (vma, t))
    (hb : vma.kmalloc sizeofTaskStruct = .ok (vmb, pcb)) :
    vmb.tables = s.vm.tables ∧ s.vm.supply = t :: pcb :: vmb.supply ∧
      (vmb.addRoot t (Function.update (fun _ => 0) 511 (vmb.mem s.ker 511))).Space t [] ∧
      ∀ v, pml4Off v ≠ 511 → translate (vmb.addRoot t
        (Function.update (fun _ => 0) 511 (vmb.mem s.ker 511))).mem t v = none := by
  have hdata := (Vm.kmalloc_data ha).trans (Vm.kmalloc_data hb)
  have hcb : vmb.clobbered = [] := by
    rw [(Vm.kmalloc_clobbered hb).1, (Vm.kmalloc_clobbered ha).1, hc]
  have htab : vmb.tables = s.vm.tables := (hdata hcb).2.1
  have hsup : s.vm.supply = t :: pcb :: vmb.supply := by
    rw [Vm.kmalloc_supply ha, Vm.kmalloc_supply hb]
  rw [hsup, List.nodup_cons, List.nodup_cons] at hnodup
  have ht : t ∉ vmb.tables := by
    rw [htab]
    exact Vm.kmalloc_notMem ha
  refine ⟨htab, hsup, (h.data hdata hcb).space_addRoot hcb ht hnodup.2.2 fun x hx => ⟨?_, ?_⟩⟩
  · rintro rfl
    exact hnodup.1 (List.mem_cons_of_mem _ hx)
  · rw [htab]
    exact hnew x (by simp [hsup, hx])

theorem Inv.newProcess (h : s.Inv lab) (hc : s.vm.clobbered = [])
    (hnodup : s.vm.supply.Nodup) (hnew : ∀ x ∈ s.vm.supply, x ∉ s.vm.tables)
    (hlow : ∀ x ∈ s.vm.supply, x < 2 ^ 27) (hok : s.newProcess = .ok (vm, t, u)) :
    Vm.Loading s.vm.tables s.vm.supply vm t ⟨0, none⟩ [] := by
  obtain ⟨vma, vmb, vmc, vmd, pcb, ret, ha, hb, hk, hm, hzero, rfl⟩ := newProcess_ok hok
  obtain ⟨htab, hsup, hspace, hnone⟩ := h.newRoot hc hnodup hnew ha hb
  have hsuffix : vmb.supply <:+ s.vm.supply := ⟨[t, pcb], hsup.symm⟩
  -- its stack
  obtain ⟨hspace', hmap⟩ := hspace.mapPage hk hm
  have hret : ret ∈ s.vm.supply := hsuffix.subset hmap.mem_supply
  obtain ⟨hspace₁, htab₁, hsup₁, -, hwalk, -⟩ := hspace'.store (fun i hi => by
    rw [List.length_replicate] at hi
    exact pml4Off_stackAt (hlow ret hret) hi) hzero
  refine ⟨hspace₁, fun x hx => ?_, ?_, fun v page hv hp => ?_, rfl, fun _ => rfl, by simp⟩
  · rw [htab₁] at hx
    rcases hmap.tables x hx with hx | hx
    · rcases List.mem_cons.1 hx with rfl | hx
      · exact Or.inr (by rw [hsup]; exact List.mem_cons_self)
      · exact Or.inl (htab ▸ hx)
    · exact Or.inr (hsuffix.subset hx)
  · obtain ⟨used, hnext⟩ := hmap.next
    rw [hsup₁]
    exact .trans ⟨ret :: used, hnext.symm⟩ hsuffix
  · rw [hwalk] at hp
    rcases hmap.cases hp with ⟨-, rfl⟩ | ⟨-, hp⟩
    · exact hret
    · rw [hnone v hv] at hp
      cases hp

/-! ## The image is the one the file describes -/

/-- A segment below the user's stacks, at addresses the processor has. -/
structure BelowStack (ph : Vm.Phdr) : Prop where
  file : ph.pFilesz ≤ ph.pMemsz
  space : ph.pVaddr + ph.pMemsz ≤ 2 ^ 47 ∨
    2 ^ 64 - 2 ^ 47 ≤ ph.pVaddr ∧ ph.pVaddr + ph.pMemsz ≤ Vm.bumpPtr

theorem BelowStack.outside {ph : Vm.Phdr} (h : BelowStack ph) : ph.Outside := by
  obtain ⟨hfile, hspace⟩ := h
  intro i hi
  have hi' : i < ph.pMemsz := by omega
  unfold Vm.bumpPtr at hspace
  rw [pml4Off, off_eq]
  omega

theorem BelowStack.fits {ph : Vm.Phdr} (h : BelowStack ph) (hpages : ph.pages < 2 ^ 19) :
    ph.Fits := by
  obtain ⟨hfile, hspace⟩ := h
  unfold Vm.bumpPtr at hspace
  have htop : ph.pVaddr + ph.pMemsz + 4096 ≤ 2 ^ 64 := by omega
  rw [Vm.Phdr.pages_eq htop] at hpages
  exact ⟨hfile, by omega, by omega, htop⟩

/-- At its own address of a page, the kernel has this page. -/
def Sees (s : System) (x : ℕ) : Prop := translate s.vm.mem s.ker (VADDR (x * 4096)) = some x

/-- The pages `kmalloc` returns in a call for a program of `n` segments: all different, no tables,
and seen by the kernel.  The VMAs go to the first one of them and those after it. -/
structure Supplies (s : System) (pages : List ℕ) (n : ℕ) : Prop where
  nodup : pages.Nodup
  new : ∀ x ∈ pages, x ∉ s.vm.tables
  low : ∀ x ∈ pages, x + n < 2 ^ 19
  seen : ∀ x ∈ pages, ∀ k ≤ n, s.Sees (x + k)
  /-- The `task_struct` is a block of nine pages. -/
  task : ∀ pcb, pages[1]? = some pcb → ∀ x ∈ s.vm.tables, ¬ (pcb ≤ x ∧ x < pcb + 9)
  taskSeen : ∀ pcb, pages[1]? = some pcb → ∀ k < 9, s.Sees (pcb + k)

theorem Supplies.mono {pages : List ℕ} {m n : ℕ} (h : Supplies s pages n) (hle : m ≤ n) :
    Supplies s pages m :=
  ⟨h.nodup, h.new, fun x hx => Nat.lt_of_le_of_lt (Nat.add_le_add_left hle x) (h.low x hx),
    fun x hx k hk => h.seen x hx k (hk.trans hle), h.task, h.taskSeen⟩

theorem Supplies.length_le {pages : List ℕ} {n : ℕ} (h : Supplies s pages n) :
    pages.length ≤ 2 ^ 19 := by
  have hsub : pages ⊆ List.range (2 ^ 19) := fun x hx =>
    List.mem_range.2 (Nat.lt_of_le_of_lt (Nat.le_add_right x n) (h.low x hx))
  have hle := (h.nodup.subperm hsub).length_le
  rwa [List.length_range] at hle

theorem Supplies.lt {pages : List ℕ} {n : ℕ} (h : Supplies s pages n) :
    ∀ x ∈ pages, x < 2 ^ 27 := fun x hx =>
  Nat.lt_of_le_of_lt (Nat.le_add_right x n) (Nat.lt_trans (h.low x hx) (by decide))

/-- Memory, PML4 and stack of a process in these pages. -/
theorem Supplies.exists_newProcess {pcb ret n : ℕ} {rest : List ℕ}
    (hpages : Supplies s (t :: pcb :: ret :: rest) n) (h : s.Inv lab) (hc : s.vm.clobbered = [])
    (hlen : 3 ≤ rest.length) :
    ∃ vm lab₁,
      newProcess { s with vm := { s.vm with supply := t :: pcb :: ret :: rest } }
        = .ok (vm, t, stackAt ret) ∧
      Inv { s with vm, procs := s.procs ++ [⟨t, stackAt ret⟩] } lab₁ ∧
      Vm.Loading s.vm.tables (t :: pcb :: ret :: rest) vm t ⟨0, none⟩ [] ∧
      vm.Stable t (stackAt ret) ret ∧ rest.length ≤ vm.supply.length + 3 := by
  have hsub : t :: ret :: rest ⊆ t :: pcb :: ret :: rest :=
    List.cons_subset_cons t (List.subset_cons_self pcb _)
  have hnodup : (t :: ret :: rest).Nodup :=
    hpages.nodup.sublist ((List.sublist_cons_self pcb _).cons_cons t)
  have hinv := h.supply (t :: pcb :: ret :: rest)
  obtain ⟨vm, lab₁, hnew, h₁, htakes, hstable, -⟩ := hinv.exists_newProcess hc rfl hnodup
    (fun x hx => hpages.new x (hsub hx)) (hpages.task pcb rfl) hlen
    fun x hx => hpages.lt x (List.mem_cons_of_mem _ (List.mem_cons_of_mem _ hx))
  exact ⟨vm, lab₁, hnew, h₁, hinv.newProcess hc hpages.nodup hpages.new hpages.lt hnew, hstable,
    htakes.length_le⟩

/-- With enough memory a program is loaded, one segment over the other if they share a page. -/
theorem Inv.exists_image (hinv : s.Inv lab) (hclean : s.vm.clobbered = [])
    {pages : List ℕ} (hpages : Supplies s pages f.loads.length)
    (hlen : 6 + Vm.need f.loads ≤ pages.length) (hbelow : ∀ ph ∈ f.loads, BelowStack ph)
    (hnodes : Vm.NodesApart s.vm.tables pages f.loads.length) :
    ∃ s' p mm img, elfRunBinMm { s with vm := { s.vm with supply := pages } } f = .ok (s', mm) ∧
      Step s (.elfRunBin f, pages) s' ∧ s'.procs = s.procs ++ [p] ∧
      mm.vmas s'.vm.mem = f.loads.map f.vma ∧ (∀ ph ∈ f.loads, ph.Fits) ∧
      ∀ w, pml4Off w ≠ 511 →
        Vm.Gap s.vm.tables pages f.loads.length ∨ Vm.Spared f.loads w →
        loadByte s'.vm.mem p.pml4 w = f.loads.foldl (Vm.Phdr.load f) img (w % 2 ^ 48) := by
  obtain ⟨t, pcb, ret, rest, rfl⟩ : ∃ t pcb ret rest, pages = t :: pcb :: ret :: rest := by
    rcases pages with _ | ⟨t, _ | ⟨pcb, _ | ⟨ret, rest⟩⟩⟩ <;>
      first
      | exact ⟨_, _, _, _, rfl⟩
      | (simp only [List.length_cons, List.length_nil] at hlen; omega)
  simp only [List.length_cons] at hlen
  obtain ⟨vm, -, hnew, -, hload, -, hleft⟩ := hpages.exists_newProcess hinv hclean (by omega)
  have hfits : ∀ ph ∈ f.loads, ph.Fits := fun ph hph => by
    refine (hbelow ph hph).fits ?_
    have hsum : 4 * ph.pages + 1 ≤ Vm.need f.loads := List.le_sum_of_mem (List.mem_map_of_mem hph)
    have hcard := hpages.length_le
    simp only [List.length_cons] at hcard
    omega
  have hphs : ∀ ph ∈ f.loads, ph.pType = 1 ∧ ph.Outside ∧ ph.Fits := fun ph hph =>
    ⟨Vm.mem_loads hph, (hbelow ph hph).outside, hfits ph hph⟩
  have hlow' : ∀ x ∈ t :: pcb :: ret :: rest, x + f.loads.length ≤ 2 ^ 19 := fun x hx =>
    Nat.le_of_lt (hpages.low x hx)
  obtain ⟨vm₁, mm, hrun⟩ := hload.exists_run (f := f) hphs hlow' hnodes (by omega)
  obtain ⟨-, hlist, hbytes⟩ :=
    hload.run (fun ph hph => ⟨(hphs ph hph).1, (hphs ph hph).2.1⟩) hlow' hnodes hrun
  have hok : elfRunBinMm { s with vm := { s.vm with supply := t :: pcb :: ret :: rest } } f
      = .ok ({ s with vm := vm₁, procs := s.procs ++ [⟨t, stackAt ret⟩] }, mm) := by
    rw [elfRunBinMm_eq]
    refine bind_eq_ok.2 ⟨_, hnew, bind_eq_ok.2 ⟨(vm₁, mm), ?_, rfl⟩⟩
    rw [← Vm.loadSegmentsMm_filter]
    exact hrun
  exact ⟨_, ⟨t, stackAt ret⟩, mm, _, hok, ⟨by simp [Op.on], hpages.lt, elfRunBin_of_mm hok⟩, rfl,
    hlist, hfits, hbytes _ hfits (Vm.shows_self vm.mem t)⟩

/-- What is to be seen of the segments of a file, and what its VMAs are to say. -/
def Loaded (f : Vm.Elf) (s : System) (p : Proc) (mm : Vm.Mm) : Prop :=
  (∀ ph ∈ f.loads, ∀ i < ph.pMemsz, loadByte s.vm.mem p.pml4 (ph.pVaddr + i) = some (ph.byte f i)) ∧
  mm.vmas s.vm.mem = f.loads.map f.vma

/-- Nobody else has the pages the VMAs go to, or it is two segments and the second VMA is in the
first page of the second one, beside all their bytes. -/
def VmasApart (f : Vm.Elf) (old pages : List ℕ) : Prop :=
  Vm.Gap old pages f.loads.length ∨ f.loads.length = 2 ∧ (∀ x ∈ pages, x + 1 ∉ old) ∧
    Vm.Adjacent pages ∧ ∀ ph ∈ f.loads, ∀ i < ph.pMemsz, Vm.Spared f.loads (ph.pVaddr + i)

theorem VmasApart.nodesApart {old pages : List ℕ} (h : VmasApart f old pages) :
    Vm.NodesApart old pages f.loads.length := by
  rcases h with h | ⟨hlen, hold, hadj, -⟩
  · exact Or.inl h
  · exact Or.inr ⟨hlen, hold, hadj⟩

/-- The segments have no byte in common. -/
def BytesDisjoint (f : Vm.Elf) : Prop :=
  f.loads.Pairwise fun a b =>
    ∀ i < a.pMemsz, ∀ j < b.pMemsz, a.pVaddr + i ≠ b.pVaddr + j

theorem BelowStack.misses {a b : Vm.Phdr} (ha : BelowStack a) (hb : BelowStack b)
    (h : ∀ i < a.pMemsz, ∀ j < b.pMemsz, a.pVaddr + i ≠ b.pVaddr + j) {i : ℕ}
    (hi : i < a.pMemsz) : b.Misses (a.pVaddr + i) := by
  intro j hj he
  have hne := h i hi j hj
  have ha' := ha.space
  have hb' := hb.space
  unfold Vm.bumpPtr at ha' hb'
  omega

/-- In every sound state, with enough memory and the VMAs out of the way, a program is loaded: it is
the image its file describes if and only if no segment has a byte other than zero in a page of a
later one. -/
theorem image_loaded_iff {mem : ℕ → ℕ → ℕ} {supply : List ℕ} {numPages : ℕ} {s₀ s : System}
    (h₀ : start mem supply numPages = .ok s₀) (h : Reach SoundStep s₀ s) (hs : s.Sound)
    {f : Vm.Elf} {pages : List ℕ} (hpages : Supplies s pages f.loads.length)
    (hlen : 6 + Vm.need f.loads ≤ pages.length) (hbelow : ∀ ph ∈ f.loads, BelowStack ph)
    (hdisj : BytesDisjoint f) (hvmas : VmasApart f s.vm.tables pages) :
    ∃ s' p mm, elfRunBinMm { s with vm := { s.vm with supply := pages } } f = .ok (s', mm) ∧
      Step s (.elfRunBin f, pages) s' ∧ s'.procs = s.procs ++ [p] ∧
      (Loaded f s' p mm ↔ f.loads.Pairwise (Vm.Phdr.Spares f)) := by
  obtain ⟨lab, hinv⟩ := reach_inv h₀ h hs
  obtain ⟨s', p, mm, img, hok, hstep, hprocs, hlist, hfits, hbytes⟩ :=
    hinv.exists_image hs.clean hpages hlen hbelow hvmas.nodesApart
  refine ⟨s', p, mm, hok, hstep, hprocs, ?_⟩
  have hseen : ∀ ph ∈ f.loads, ∀ i < ph.pMemsz, loadByte s'.vm.mem p.pml4 (ph.pVaddr + i)
      = f.loads.foldl (Vm.Phdr.load f) img ((ph.pVaddr + i) % 2 ^ 48) := fun ph hph i hi =>
    hbytes _ ((hbelow ph hph).outside i (Or.inr hi))
      (hvmas.imp_right fun hvmas => hvmas.2.2.2 ph hph i hi)
  rw [← Vm.foldl_load_iff img hfits (hdisj.imp_of_mem fun ha hb h i hi =>
    (hbelow _ ha).misses (hbelow _ hb) h hi), Loaded]
  refine ⟨fun h ph hph i hi => ?_, fun h => ⟨fun ph hph i hi => ?_, hlist⟩⟩
  · rw [← hseen ph hph i hi]
    exact h.1 ph hph i hi
  · rw [hseen ph hph i hi]
    exact h ph hph i hi

/-- A file with two segments of a byte each, 64 bytes apart or more. -/
def twoSegments (second : ℕ) : Vm.Elf :=
  ⟨0, fun _ => 7, [⟨1, 5, 0x1000, 0x400000, 1, 1⟩, ⟨1, 6, 0x1001, second, 1, 1⟩]⟩

/-- The pages there are on the small machine. -/
def smallPages : List ℕ := 578 :: 579 :: List.range' 588 14

theorem Small.supplies (h : s.Small 569) : Supplies s smallPages 2 where
  nodup := by decide
  new := fun x hx => h.notMem ((by decide : ∀ x ∈ smallPages, 569 ≤ x) x hx)
  low := by decide
  seen := fun x hx k hk => by
    obtain ⟨hlo, hhi⟩ := (by decide : ∀ x ∈ smallPages, 560 ≤ x ∧ x < 638) x hx
    exact h.view _ (by omega) (by omega)
  task := fun pcb hpcb => by
    obtain rfl : 579 = pcb := Option.some.inj hpcb
    exact h.task (by decide)
  taskSeen := fun pcb hpcb k hk => by
    obtain rfl : 579 = pcb := Option.some.inj hpcb
    exact h.view _ (by omega) (by omega)

theorem Small.notMem_succ (h : s.Small 569) : ∀ x ∈ smallPages, x + 1 ∉ s.vm.tables :=
  fun x hx => h.notMem ((by decide : ∀ x ∈ smallPages, 569 ≤ x + 1) x hx)

theorem adjacent_smallPages : Vm.Adjacent smallPages := by
  unfold Vm.Adjacent
  decide

theorem twoSegments_below (second : ℕ) (h : second < 2 ^ 47) :
    ∀ ph ∈ (twoSegments second).loads, BelowStack ph := by
  intro ph hph
  rcases List.mem_cons.1 hph with rfl | hph
  · exact ⟨Nat.le_refl 1, Or.inl (by decide)⟩
  · obtain rfl := List.mem_singleton.1 hph
    exact ⟨Nat.le_refl 1, Or.inl h⟩

/-- In two pages they are both loaded. -/
theorem image_loaded_two :
    ∃ s₀ s p mm, start (fun _ _ => 0) (List.range' 560 10) 640 = .ok s₀ ∧
      elfRunBinMm { s₀ with vm := { s₀.vm with supply := smallPages } } (twoSegments 0x401040)
        = .ok (s, mm) ∧
      s.procs = s₀.procs ++ [p] ∧ Loaded (twoSegments 0x401040) s p mm := by
  obtain ⟨s₀, h₀, -, hsmall⟩ := start_small
  have hs := hsmall.sound (by decide)
  have hspared : ∀ ph ∈ (twoSegments 0x401040).loads, ∀ i < ph.pMemsz,
      Vm.Spared (twoSegments 0x401040).loads (ph.pVaddr + i) := by
    intro ph hph i hi ph₂ hph₂ hpage
    obtain rfl := Option.some.inj hph₂
    rcases List.mem_cons.1 hph with rfl | hph
    · obtain rfl := Nat.lt_one_iff.1 hi
      exact absurd hpage (by decide)
    · obtain rfl := List.mem_singleton.1 hph
      exact Or.inr (by obtain rfl := Nat.lt_one_iff.1 hi; decide)
  obtain ⟨s, p, mm, hok, -, hprocs, hloaded⟩ := image_loaded_iff h₀ Reach.start hs
    (f := twoSegments 0x401040) hsmall.supplies (by decide) (twoSegments_below _ (by decide))
    (by unfold BytesDisjoint; decide)
    (Or.inr ⟨rfl, hsmall.notMem_succ, adjacent_smallPages, hspared⟩)
  exact ⟨s₀, s, p, mm, h₀, hok, hprocs, hloaded.2 (by unfold Vm.Phdr.Spares; decide)⟩

/-- In one page, the first of them is lost. -/
theorem image_lost :
    ∃ s₀ s p mm, start (fun _ _ => 0) (List.range' 560 10) 640 = .ok s₀ ∧
      elfRunBinMm { s₀ with vm := { s₀.vm with supply := smallPages } } (twoSegments 0x400040)
        = .ok (s, mm) ∧
      s.procs = s₀.procs ++ [p] ∧ loadByte s.vm.mem p.pml4 0x400000 = some 0 ∧
      (twoSegments 0x400040).image 0x1000 = 7 := by
  obtain ⟨s₀, h₀, -, hsmall⟩ := start_small
  obtain ⟨lab, hinv⟩ := start_inv h₀ hsmall.clean
  obtain ⟨s, p, mm, img, hok, -, hprocs, -, -, hbytes⟩ := hinv.exists_image
    (f := twoSegments 0x400040) hsmall.clean hsmall.supplies (by decide)
    (twoSegments_below _ (by decide)) (Or.inr ⟨rfl, hsmall.notMem_succ, adjacent_smallPages⟩)
  refine ⟨s₀, s, p, mm, h₀, hok, hprocs, ?_, rfl⟩
  rw [hbytes 0x400000 (by decide) (Or.inr fun ph hph _ => Or.inl (by decide))]
  show Vm.Phdr.load _ _ ⟨1, 6, 0x1001, 0x400040, 1, 1⟩ (0x400000 % 2 ^ 48) = some 0
  rw [Vm.Phdr.load, Image.put_of_notMem (Or.inl (by decide)),
    Image.put_of_notMem (Or.inl (by decide)), Image.clear_of_mem (by decide)]

end System

end Bgox
