import Bgox.Proofs.Stores

/-!
# What holds of every address space

Every PML4 has the entry 511 of `ker_pml4_t`, with the user bit clear, and tables for some address
in the rest (`Inv`).  The calls that make address spaces or change them keep this: no mapping
changes a present entry of a PML4.

Runs are looked at as long as the kernel still works on its own tables (`Sound`).  The code does not
see to that.
-/

namespace Bgox

open Run (bind_eq_ok Reach)

namespace System

variable {s s' : System} {lab lab₁ : ℕ → Option (List ℕ)} {t u : ℕ} {vm vm₁ : Vm}

/-! ## The invariant -/

/-- Every PML4 has the entry of the kernel's half. -/
structure Inv (s : System) (lab : ℕ → Option (List ℕ)) : Prop where
  wf : s.vm.Labels lab
  ker : lab s.ker = some []
  procs : ∀ p ∈ s.procs, lab p.pml4 = some []
  upper : ∃ c, entryChild (s.vm.mem s.ker 511) = some c
  hidden : isPageUser (s.vm.mem s.ker 511) = false
  shared : ∀ r, lab r = some [] → s.vm.mem r 511 = s.vm.mem s.ker 511
  /-- Each of them has tables outside that half, too. -/
  lower : ∀ r, lab r = some [] → ∃ v, pml4Off v < 511 ∧ Vm.Prepared s.vm.mem r v

theorem Inv.entry_kept (h : s.Inv lab) (hg : Vm.Grows (fun _ => True) 2 s.vm lab vm lab₁) {r : ℕ}
    (hr : lab r = some []) : vm.mem r 511 = s.vm.mem r 511 := by
  obtain ⟨c, hc⟩ := h.upper
  exact hg.ext.keep r [] 511 c hr (by simp) (by simp) (by rw [h.shared r hr, hc])

theorem Inv.grows (h : s.Inv lab) (hg : Vm.Grows (fun _ => True) 2 s.vm lab vm lab₁) :
    Inv { s with vm } lab₁ where
  wf := hg.wf
  ker := hg.ext.mono _ _ h.ker
  procs := fun p hp => hg.ext.mono _ _ (h.procs p hp)
  upper := by
    simp only [h.entry_kept hg h.ker]
    exact h.upper
  hidden := by
    simp only [h.entry_kept hg h.ker]
    exact h.hidden
  shared := fun r hr => by
    have hr₀ := hg.roots r hr
    simp only [h.entry_kept hg h.ker, h.entry_kept hg hr₀]
    exact h.shared r hr₀
  lower := fun r hr => by
    obtain ⟨v, hv, hprep⟩ := h.lower r (hg.roots r hr)
    exact ⟨v, hv, hprep.ext h.wf (hg.roots r hr) hg.ext⟩

theorem Inv.data (h : s.Inv lab) (hd : Vm.Data s.vm vm) (hc : vm.clobbered = []) :
    Inv { s with vm } lab := h.grows (hd.grows hc h.wf)

theorem Inv.extends (h : s.Inv lab) (ht : lab t = some []) (he : Vm.Extends t s.vm vm)
    (hc : vm.clobbered = []) : ∃ lab₁, Inv { s with vm } lab₁ ∧ ∀ r, lab r = some [] →
      lab₁ r = some [] := by
  obtain ⟨lab₁, hg⟩ := (he hc).2 lab h.wf ht
  exact ⟨lab₁, h.grows hg, fun r hr => hg.ext.mono r [] hr⟩

/-! ## New address spaces -/

/-- The index of the stack's pages in a PML4. -/
theorem pml4Off_stack {ret : ℕ} (h : ret < 2 ^ 27) :
    pml4Off ((Vm.bumpPtr + ret * 4096) % 2 ^ 64) < 511 := by
  rw [pml4Off, off_eq]
  unfold Vm.bumpPtr
  omega

/-- A page filled with entries of other PML4s becomes one, and gets its stack. -/
theorem Inv.newSpace (h : s.Inv lab) (ht : t ∉ s.vm.tables) {row : ℕ → ℕ}
    (hrow : ∀ i c, entryChild (row i) = some c → ∃ r, lab r = some [] ∧ row i = s.vm.mem r i)
    (htop : row 511 = s.vm.mem s.ker 511) (hsup : ∀ p ∈ s.vm.supply, p < 2 ^ 27)
    (hs : (s.vm.addRoot t row).kmallocStack 1 t = .ok (vm, u)) (hc : vm.clobbered = []) :
    ∃ lab₁, Inv { s with vm, procs := s.procs ++ [⟨t, u⟩] } lab₁ ∧
      Radix.Ext entryChild 4 2 s.vm.mem lab vm.mem lab₁ ∧
      ∀ i c, entryChild (row i) = some c → vm.mem t i = row i := by
  obtain ⟨hext, hwf⟩ := Vm.addRoot_labels h.wf ht hrow
  have hlt : Function.update lab t (some []) t = some [] := by simp
  obtain ⟨vm', ret, hk, rfl, hm⟩ := Vm.kmallocStack_ok hs
  have hg₁ := (Vm.kmalloc_data hk).grows (Vm.clobbered_of_initMap hm hc) hwf
  obtain ⟨lab₁, hg₂, hprep⟩ := Vm.initMap_grows (fun _ => trivial) hg₁.wf hlt hm hc
  have hg := hg₁.trans hg₂
  have hall := hext.trans hg.ext
  obtain ⟨c, hker⟩ := h.upper
  have hold : ∀ r, lab r = some [] → vm.mem r 511 = s.vm.mem s.ker 511 := by
    intro r hr
    rw [hall.keep r [] 511 c hr (by simp) (by simp) (by rw [h.shared r hr, hker]), h.shared r hr]
  have hnew : ∀ i c, entryChild (row i) = some c → vm.mem t i = row i := by
    intro i c hi
    have hfill : (s.vm.addRoot t row).mem t i = row i := by simp [Vm.addRoot]
    rw [hg.ext.keep t [] i c hlt (by simp) (by simp) (by rw [hfill, hi]), hfill]
  have hroots : ∀ r, lab₁ r = some [] → r = t ∨ lab r = some [] := by
    intro r hr
    by_cases hrt : r = t
    · exact Or.inl hrt
    · exact Or.inr (by simpa [hrt] using hg.roots r hr)
  refine ⟨lab₁, ⟨hg.wf, hall.mono _ _ h.ker, fun p hp => ?_, ⟨c, ?_⟩, ?_, fun r hr => ?_,
    fun r hr => ?_⟩, hall, hnew⟩
  · rcases List.mem_append.1 hp with hp | hp
    · exact hall.mono _ _ (h.procs p hp)
    · obtain rfl := List.mem_singleton.1 hp
      exact hg.ext.mono _ _ hlt
  · rw [← hker, ← hold _ h.ker]
  · simp only [hold _ h.ker]
    exact h.hidden
  · simp only [hold _ h.ker]
    rcases hroots r hr with rfl | hr₀
    · rw [hnew 511 c (by rw [htop, hker]), htop]
    · exact hold r hr₀
  · rcases hroots r hr with rfl | hr₀
    · refine ⟨_, pml4Off_stack (hsup ret ?_), hprep⟩
      have hsupply : (s.vm.addRoot r row).supply = ret :: vm'.supply := Vm.kmalloc_supply hk
      rw [show s.vm.supply = ret :: vm'.supply from hsupply]
      exact List.mem_cons_self
    · obtain ⟨v, hv, hp⟩ := h.lower r hr₀
      exact ⟨v, hv, hp.ext h.wf hr₀ hall⟩

/-! ## The calls -/

/-- The first entries of a program's PML4. -/
theorem row_of_ker {ker : ℕ} (hker : lab ker = some []) (mem : ℕ → ℕ → ℕ) (i c : ℕ)
    (hi : entryChild (Function.update (fun _ => 0) 511 (mem ker 511) i) = some c) :
    ∃ r, lab r = some [] ∧ Function.update (fun _ => 0) 511 (mem ker 511) i = mem r i := by
  by_cases h5 : i = 511
  · exact ⟨ker, hker, by simp [h5]⟩
  · simp [h5, entryChild_zero] at hi

theorem Inv.mem_tables (h : s.Inv lab) {r : ℕ} (hr : lab r = some []) : r ∈ s.vm.tables :=
  (h.wf.tables r).2 ⟨[], hr⟩

/-- The course of `elf_run_bin` up to the segments. -/
theorem newProcess_course {vm : Vm} {t u : ℕ} (h : s.newProcess = .ok (vm, t, u)) :
    ∃ vma vmb vmc pcb, s.vm.kmalloc sizeofPage = .ok (vma, t) ∧
      vma.kmalloc sizeofTaskStruct = .ok (vmb, pcb) ∧
      (vmb.addRoot t (Function.update (fun _ => 0) 511 (vmb.mem s.ker 511))).kmallocStack 1 t
        = .ok (vmc, u) ∧
      Vm.store t (List.replicate 4096 0) vmc u = .ok vm := by
  rw [newProcess_eq] at h
  obtain ⟨⟨vma, t'⟩, ha, h⟩ := bind_eq_ok.1 h
  obtain ⟨⟨vmb, pcb⟩, hb, h⟩ := bind_eq_ok.1 h
  obtain ⟨⟨vmc, u'⟩, hstack, h⟩ := bind_eq_ok.1 h
  obtain ⟨vm', hzero, h⟩ := bind_eq_ok.1 h
  obtain ⟨rfl, hpair⟩ := Prod.mk.inj (Except.ok.inj h)
  obtain ⟨rfl, rfl⟩ := Prod.mk.inj hpair
  exact ⟨vma, vmb, vmc, pcb, ha, hb, hstack, hzero⟩

theorem elfRunBin_ok {f : Vm.Elf} : s.elfRunBin f = .ok s' ↔ ∃ vm t u vm',
    s.newProcess = .ok (vm, t, u) ∧ vm.loadSegments f t f.phdrs ⟨0, none⟩ = .ok vm' ∧
      s' = { s with vm := vm', procs := s.procs ++ [⟨t, u⟩] } := by
  rw [elfRunBin_eq, bind_eq_ok]
  constructor
  · rintro ⟨⟨vm, t, u⟩, hnew, h⟩
    obtain ⟨vm', hload, h⟩ := bind_eq_ok.1 h
    exact ⟨vm, t, u, vm', hnew, hload, (Except.ok.inj h).symm⟩
  · rintro ⟨vm, t, u, vm', hnew, hload, rfl⟩
    exact ⟨(vm, t, u), hnew, bind_eq_ok.2 ⟨vm', hload, rfl⟩⟩

theorem Inv.elfRunBin {f : Vm.Elf} (h : s.Inv lab) (hsup : ∀ p ∈ s.vm.supply, p < 2 ^ 27)
    (hs : s.elfRunBin f = .ok s') (hc : s'.vm.clobbered = []) : ∃ lab₁, Inv s' lab₁ := by
  obtain ⟨vmd, t, u, vme, hnew, hload, rfl⟩ := elfRunBin_ok.1 hs
  obtain ⟨vma, vmb, vmc, pcb, ha, hb, hstack, hzero⟩ := newProcess_course hnew
  have hrest : Vm.Extends t vmc vme :=
    (Vm.store_data hzero).extends.trans (Vm.loadSegments_extends hload)
  have hcc := (hrest hc).1
  have hcb : vmb.clobbered = [] := (Vm.kmallocStack_extends hstack hcc).1
  have hdata := (Vm.kmalloc_data ha).trans (Vm.kmalloc_data hb)
  have ht : t ∉ vmb.tables := by
    rw [(hdata hcb).2.1]
    exact Vm.kmalloc_notMem ha
  have hsup' : ∀ p ∈ vmb.supply, p < 2 ^ 27 := fun p hp =>
    hsup p (Vm.mem_supply_of_kmalloc ha (Vm.mem_supply_of_kmalloc hb hp))
  obtain ⟨lab₁, h₁, -⟩ := (h.data hdata hcb).newSpace ht (row_of_ker h.ker _) (by simp) hsup'
    hstack hcc
  obtain ⟨lab₂, h₂, -⟩ := h₁.extends (h₁.procs ⟨t, u⟩ (by simp)) hrest hc
  exact ⟨lab₂, h₂⟩

theorem forkBlocks_ok {vm : Vm} {t temp : ℕ} (h : s.forkBlocks = .ok (vm, t, temp)) :
    ∃ vma vmb vmc vmd pcb node kstack,
      s.vm.kmalloc sizeofTaskStruct = .ok (vma, pcb) ∧ vma.kmalloc sizeofPage = .ok (vmb, node) ∧
      vmb.kmalloc sizeofPage = .ok (vmc, t) ∧ vmc.kmalloc 1 = .ok (vmd, kstack) ∧
      vmd.kmalloc 1 = .ok (vm, temp) := by
  obtain ⟨⟨vma, pcb⟩, ha, h⟩ := bind_eq_ok.1 h
  obtain ⟨⟨vmb, node⟩, hb, h⟩ := bind_eq_ok.1 h
  obtain ⟨⟨vmc, t'⟩, ht, h⟩ := bind_eq_ok.1 h
  obtain ⟨⟨vmd, kstack⟩, hd, h⟩ := bind_eq_ok.1 h
  obtain ⟨⟨vme, temp'⟩, he, h⟩ := bind_eq_ok.1 h
  obtain ⟨rfl, hpair⟩ := Prod.mk.inj (Except.ok.inj h)
  obtain ⟨rfl, rfl⟩ := Prod.mk.inj hpair
  exact ⟨vma, vmb, vmc, vmd, pcb, node, kstack, ha, hb, ht, hd, he⟩

/-- The course of `sys_fork` up to the VMAs. -/
theorem newChild_ok {parent : Proc} {vm : Vm} {t u : ℕ} {stack : List ℕ}
    (h : s.newChild parent = .ok (vm, t, u, stack)) :
    ∃ vma vmb temp, s.forkBlocks = .ok (vma, t, temp) ∧
      vma.loadPage parent.pml4 parent.ustack = .ok stack ∧
      (Vm.addRoot { vma with mem := Function.update vma.mem temp fun j => stack.getD j 0 } t
        (Function.update vma.mem temp (fun j => stack.getD j 0) parent.pml4)).kmallocStack 1 t
          = .ok (vmb, u) ∧
      Vm.store t (stack.flatMap Vm.bytesOf) vmb u = .ok vm := by
  rw [newChild_eq] at h
  obtain ⟨⟨vma, t', temp⟩, ha, h⟩ := bind_eq_ok.1 h
  obtain ⟨stack', hstack, h⟩ := bind_eq_ok.1 h
  obtain ⟨⟨vmb, u'⟩, hb, h⟩ := bind_eq_ok.1 h
  obtain ⟨vm', hstore, h⟩ := bind_eq_ok.1 h
  obtain ⟨rfl, rfl, rfl, rfl⟩ : vm' = vm ∧ t' = t ∧ u' = u ∧ stack' = stack := by
    simpa using Except.ok.inj h
  exact ⟨vma, vmb, temp, ha, hstack, hb, hstore⟩

/-- The course of a `sys_fork` that returns. -/
theorem sysFork_ok {parent : Proc} {vmas : List Vm.Vma} {file : ℕ → ℕ}
    (hs : s.sysFork parent vmas file = .ok s') :
    ∃ vm vm' t u stack, s.newChild parent = .ok (vm, t, u, stack) ∧
      vm.copyVmas file t vmas ⟨0, none⟩ = .ok vm' ∧
      s' = { s with vm := vm', procs := s.procs ++ [⟨t, u⟩] } := by
  rw [sysFork_eq] at hs
  obtain ⟨⟨vm, t, u, stack⟩, hnew, hs⟩ := bind_eq_ok.1 hs
  obtain ⟨vm', hcopy, hs⟩ := bind_eq_ok.1 hs
  exact ⟨vm, vm', t, u, stack, hnew, hcopy, (Except.ok.inj hs).symm⟩

/-- The child's PML4 has the parent's entries. -/
theorem Inv.sysFork {parent : Proc} {vmas : List Vm.Vma} {file : ℕ → ℕ} (h : s.Inv lab)
    (hparent : lab parent.pml4 = some []) (hsup : ∀ p ∈ s.vm.supply, p < 2 ^ 27)
    (hs : s.sysFork parent vmas file = .ok s') (hc : s'.vm.clobbered = []) :
    ∃ lab₁ child, Inv s' lab₁ ∧ s'.procs = s.procs ++ [child] ∧
      Radix.Ext entryChild 4 2 s.vm.mem lab s'.vm.mem lab₁ ∧
      ∀ i c, entryChild (s.vm.mem parent.pml4 i) = some c →
        s'.vm.mem child.pml4 i = s.vm.mem parent.pml4 i := by
  obtain ⟨vmg, vmh, t, u, stack, hnew, hcopy, rfl⟩ := sysFork_ok hs
  obtain ⟨vme, vmf, temp, hblocks, -, hf, hstore⟩ := newChild_ok hnew
  obtain ⟨vma, vmb, vmc, vmd, pcb, node, kstack, ha, hb, ht, hd, he⟩ := forkBlocks_ok hblocks
  have hrest : Vm.Extends t vmf vmh :=
    (Vm.store_data hstore).extends.trans (Vm.copyVmas_extends hcopy)
  have hcf := (hrest hc).1
  have hce : vme.clobbered = [] := (Vm.kmallocStack_extends hf hcf).1
  have hte := (Vm.kmalloc_data ht).trans ((Vm.kmalloc_data hd).trans (Vm.kmalloc_data he))
  have hae := ((Vm.kmalloc_data ha).trans (Vm.kmalloc_data hb)).trans hte
  have hnew : t ∉ vme.tables := by
    rw [(hte hce).2.1]
    exact Vm.kmalloc_notMem ht
  have htemp : temp ∉ vme.tables := by
    rw [(Vm.kmalloc_data he hce).2.1]
    exact Vm.kmalloc_notMem he
  have hdata := hae.trans (Vm.row_data htemp fun j => stack.getD j 0)
  have hsup' : ∀ p ∈ vme.supply, p < 2 ^ 27 := fun p hp =>
    hsup p (Vm.mem_supply_of_kmalloc ha (Vm.mem_supply_of_kmalloc hb
      (Vm.mem_supply_of_kmalloc ht (Vm.mem_supply_of_kmalloc hd (Vm.mem_supply_of_kmalloc he hp)))))
  have h₀ := h.data hdata hce
  obtain ⟨lab₁, h₁, hext, hchild⟩ := h₀.newSpace hnew
    (fun i _ _ => ⟨parent.pml4, hparent, rfl⟩) (h₀.shared _ hparent) hsup' hf hcf
  have ht₁ := h₁.procs ⟨t, u⟩ (by simp)
  obtain ⟨lab₂, hg₂⟩ := (hrest hc).2 lab₁ h₁.wf ht₁
  refine ⟨lab₂, ⟨t, u⟩, h₁.grows hg₂, rfl,
    ((hdata.grows hce h.wf).ext.trans hext).trans hg₂.ext, fun i c hi => ?_⟩
  have hrow := congrFun ((hdata hce).2.2 _ (h.mem_tables hparent)) i
  rw [← hrow] at hi ⊢
  exact (hg₂.ext.keep t [] i c ht₁ (by simp) (by simp) (by rw [hchild i c hi, hi])).trans
    (hchild i c hi)

theorem Inv.supply (h : s.Inv lab) (supply : List ℕ) :
    Inv { s with vm := { s.vm with supply } } lab :=
  ⟨⟨h.wf.tree, h.wf.tables, h.wf.marks⟩, h.ker, h.procs, h.upper, h.hidden, h.shared, h.lower⟩

theorem Inv.step {call : Op × List ℕ} (h : s.Inv lab) (hs : Step s call s')
    (hc : s'.vm.clobbered = []) : ∃ lab₁, Inv s' lab₁ := by
  obtain ⟨op, supply⟩ := call
  obtain ⟨hon, hsup, hs⟩ := hs
  have h₀ := h.supply supply
  have hroot : ∀ p ∈ op.on, lab p.pml4 = some [] := fun p hp => h.procs p (hon p hp)
  -- a mapping for one process
  have hmap : ∀ {p : Proc} {vm}, lab p.pml4 = some [] →
      Vm.Extends p.pml4 { s.vm with supply } vm → vm.clobbered = [] →
      ∃ lab₁, Inv { s with vm } lab₁ := fun hp he hc => by
    obtain ⟨lab₁, h₁, -⟩ := h₀.extends hp he hc
    exact ⟨lab₁, h₁⟩
  cases op with
  | elfRunBin f => exact h₀.elfRunBin hsup hs hc
  | sysFork parent vmas file =>
    obtain ⟨lab₁, -, h₁, -⟩ := h₀.sysFork (hroot parent List.mem_cons_self) hsup hs hc
    exact ⟨lab₁, h₁⟩
  | kmallocStack p size =>
    obtain ⟨⟨vm, u⟩, hk, hs⟩ := bind_eq_ok.1 hs
    obtain rfl := Except.ok.inj hs
    exact hmap (hroot p List.mem_cons_self) (Vm.kmallocStack_extends hk) hc
  | regionAlloc p va size =>
    obtain ⟨vm, hr, hs⟩ := bind_eq_ok.1 hs
    obtain rfl := Except.ok.inj hs
    exact hmap (hroot p List.mem_cons_self) (Vm.regionAlloc_extends hr) hc
  | pageFault p pfAddr errCode =>
    have hs : System.pageFaultHandler _ p pfAddr errCode = .ok s' := hs
    unfold pageFaultHandler at hs
    split_ifs at hs
    · obtain ⟨vm, hm, hs⟩ := bind_eq_ok.1 hs
      obtain rfl := Except.ok.inj hs
      exact hmap (hroot p List.mem_cons_self) (Vm.initMap_extends hm) hc
    · obtain ⟨⟨vm, pp⟩, hk, hs⟩ := bind_eq_ok.1 hs
      obtain ⟨vm', hm, hs⟩ := bind_eq_ok.1 hs
      obtain rfl := Except.ok.inj hs
      exact hmap (hroot p List.mem_cons_self)
        ((Vm.kmalloc_data hk).extends.trans (Vm.initMap_extends hm)) hc

/-! ## The tables of the kernel -/

theorem isPageUser_kernel (t : ℕ) : isPageUser (t * 4096 ||| Vm.rwFlags 0) = false := by
  rw [page_or t (rwFlags_lt 0), isPageUser_eq, decide_eq_false_iff_not,
    show Vm.rwFlags 0 = 3 from rfl]
  omega

theorem initPaging_tables {numPages ker : ℕ} {mem : ℕ → ℕ → ℕ} {supply : List ℕ}
    (h : Vm.initPaging ⟨mem, supply, [], []⟩ numPages = .ok (vm, ker)) (hc : vm.clobbered = []) :
    ∃ lab, vm.Wf (isPageUser · = false) lab ∧ (∀ r, lab r = some [] ↔ r = ker) ∧
      Vm.Prepared vm.mem ker 0 ∧ Vm.Prepared vm.mem ker (VADDR Vm.physbase) := by
  obtain ⟨⟨vma, ker'⟩, ha, h⟩ := bind_eq_ok.1 h
  obtain ⟨vmb, hb, h⟩ := bind_eq_ok.1 h
  obtain ⟨vmc, hm, h⟩ := bind_eq_ok.1 h
  obtain ⟨vmd, hd, h⟩ := bind_eq_ok.1 h
  obtain ⟨rfl, rfl⟩ := Prod.mk.inj (Except.ok.inj h)
  have hcc := Vm.clobbered_of_initMap hd hc
  have hcb := Vm.clobbered_of_initMap hm hcc
  obtain ⟨rest, -, -, rfl⟩ := Vm.newTable_ok ha
  -- the first table is empty
  have hempty : ∀ i, Radix.clear 0 mem ker' ker' i = 0 := fun i => by simp [Radix.clear]
  have hnone : Vm.Wf (isPageUser · = false) ⟨Radix.clear 0 mem ker', rest, [], []⟩ fun _ => none :=
    ⟨fun n l i c hn => absurd hn (by simp), by simp, fun n l i c hn => absurd hn (by simp)⟩
  obtain ⟨-, hw⟩ := hnone.label (k := 2) (t := ker') (l := []) (by simp) fun i c hi => by
    simp only [hempty, entryChild_zero] at hi
    cases hi
  have hroot : Function.update (fun _ => none) ker' (some ([] : List ℕ)) ker' = some [] := by simp
  obtain ⟨labb, hgb, hpb⟩ := Vm.initMap_grows isPageUser_kernel hw hroot hb hcb
  have hrb := hgb.ext.mono _ _ hroot
  obtain ⟨labc, hgc, hpc⟩ := Vm.initMap_grows isPageUser_kernel hgb.wf hrb hm hcc
  have hrc := hgc.ext.mono _ _ hrb
  obtain ⟨labd, hgd, -⟩ := Vm.initMap_grows isPageUser_kernel hgc.wf hrc hd hc
  refine ⟨labd, hgd.wf, fun r => ⟨fun hr => ?_, ?_⟩, (hpb.ext hgb.wf hrb (hgc.trans hgd).ext),
    hpc.ext hgc.wf hrc hgd.ext⟩
  · by_contra hne
    have hr₀ := hgb.roots r (hgc.roots r (hgd.roots r hr))
    simp [hne] at hr₀
  · rintro rfl
    exact hgd.ext.mono _ _ hrc

theorem start_inv {mem : ℕ → ℕ → ℕ} {supply : List ℕ} {numPages : ℕ}
    (h : start mem supply numPages = .ok s) (hc : s.vm.clobbered = []) : ∃ lab, Inv s lab := by
  obtain ⟨⟨vm, ker⟩, hp, h⟩ := bind_eq_ok.1 h
  obtain ⟨⟨vm', pcb⟩, hk, h⟩ := bind_eq_ok.1 h
  obtain rfl := Except.ok.inj h
  have hdata := Vm.kmalloc_data hk
  obtain ⟨lab, hw, hroots, hlow, hhigh⟩ := initPaging_tables hp (hdata hc).1
  have hker := (hroots ker).2 rfl
  obtain ⟨pdpe, -, -, htop, -, -⟩ := hhigh
  rw [show pml4Off (VADDR Vm.physbase) = 511 from rfl] at htop
  have hinv : Inv ⟨vm, ker, [⟨ker, 0⟩]⟩ lab := {
    wf := ⟨hw.tree, hw.tables, fun _ _ _ _ _ _ _ => trivial⟩
    ker := hker
    procs := fun p hp => by
      obtain rfl := List.mem_singleton.1 hp
      exact hker
    upper := ⟨pdpe, htop⟩
    hidden := hw.marks ker [] 511 pdpe hker (by simp) htop
    shared := fun r hr => by rw [(hroots r).1 hr]
    lower := fun r hr => ⟨0, by decide, (hroots r).1 hr ▸ hlow⟩ }
  exact ⟨lab, hinv.data hdata hc⟩

/-! ## Whole runs -/

/-- The kernel still works on its tables: nothing but entries has been stored in one, and the
kernel's address of each leads to it. -/
structure Sound (s : System) : Prop where
  clean : s.vm.clobbered = []
  view : ∀ t ∈ s.vm.tables, translate s.vm.mem s.ker (VADDR (t * 4096)) = some t

/-- A call in a state that is sound. -/
def SoundStep (s : System) (call : Op × List ℕ) (s' : System) : Prop := s.Sound ∧ Step s call s'

theorem reach_inv {mem : ℕ → ℕ → ℕ} {supply : List ℕ} {numPages : ℕ} {s₀ : System}
    (h₀ : start mem supply numPages = .ok s₀) (h : Reach SoundStep s₀ s) (hs : s.Sound) :
    ∃ lab, Inv s lab := by
  refine Reach.invariant (P := fun s => s.vm.clobbered = [] → ∃ lab, Inv s lab) (start_inv h₀) ?_ h
    hs.clean
  intro s call s' ih hstep hc
  obtain ⟨lab, hinv⟩ := ih hstep.1.clean
  exact hinv.step hstep.2 hc

end System

end Bgox
