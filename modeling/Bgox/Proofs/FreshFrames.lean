import Bgox.Proofs.KernelHalf
import Bgox.Proofs.LoadFrame

/-!
# The frames of a new process

What the user may access of a new address space are frames that were free, each at one page and
none of them a table or another user's (`load_owns_frames`).  All of them come from `kmalloc`, for
the stack, the segments and the tables in turn, and the kernel's half is hidden.

That is lost with the third segment.  Its VMA may go to a page that is one of its own tables by
then, where the fields of the VMA are entries: an address that the file has chosen leads the user to
a table (`load_maps_table`).
-/

namespace Bgox

open Run (bind_eq_ok Reach)

/-- The user may access a frame at an address. -/
def UserFrame (mem : ℕ → ℕ → ℕ) (pml4 v frame : ℕ) : Prop :=
  UserAccessible mem pml4 v ∧ translate mem pml4 v = some frame

theorem UserFrame.congr {mem mem₁ : ℕ → ℕ → ℕ} {r v frame : ℕ}
    (h : walk mem₁ r v = walk mem r v) :
    UserFrame mem₁ r v frame ↔ UserFrame mem r v frame := by
  rw [UserFrame, UserFrame, UserAccessible, UserAccessible, translate, translate, h]

/-- A segment below the stacks of the user, which have the index 481 in the PML4. -/
def Vm.Phdr.Below (ph : Vm.Phdr) : Prop :=
  pml4Off ph.pVaddr < 481 ∧
    ∀ i, i < ph.pFilesz ∨ i < ph.pMemsz → pml4Off (ph.pVaddr + i) < 481

theorem Vm.Phdr.Below.outside {ph : Vm.Phdr} (h : ph.Below) : ph.Outside := fun i hi => by
  have hlt := h.2 i hi
  omega

/-- Its pages are those of its bytes, and that of its address. -/
theorem Vm.Phdr.Below.pagesOutside {ph : Vm.Phdr} (h : ph.Below) : ph.PagesOutside := by
  intro i hi
  obtain ⟨hva, hbytes⟩ := h
  rw [pml4Off, off_eq] at hva
  have hend : ph.pVaddr % 2 ^ 48 + ph.pMemsz ≤ 481 * 2 ^ 39 := by
    by_contra hlt
    have hstack := hbytes (481 * 2 ^ 39 - ph.pVaddr % 2 ^ 48) (Or.inr (by omega))
    rw [pml4Off, off_eq] at hstack
    omega
  unfold Phdr.pages getEndingPage getStartingPage at hi
  unfold getStartingPage
  rw [pml4Off, off_eq]
  omega

namespace System

variable {s s' : System} {lab : ℕ → Option (List ℕ)} {f : Vm.Elf} {pages : List ℕ}

/-- The frames users may access and the tables are not among the pages to be handed out. -/
structure Guarded (s : System) (pages : List ℕ) : Prop where
  frames : ∀ p ∈ s.procs, ∀ v frame, UserFrame s.vm.mem p.pml4 v frame → frame ∉ pages
  tables : ∀ x ∈ s.vm.tables, x ∉ pages

/-- A new process `p`, with frames from `pages` that it shares with nobody. -/
structure OwnsFrames (s : System) (pages : List ℕ) (s' : System) (p : Proc) : Prop where
  free : ∀ v frame, UserFrame s'.vm.mem p.pml4 v frame → frame ∈ pages
  once : ∀ v w frame, UserFrame s'.vm.mem p.pml4 v frame → UserFrame s'.vm.mem p.pml4 w frame →
    vpage v = vpage w
  noTable : ∀ v frame, UserFrame s'.vm.mem p.pml4 v frame → frame ∉ s'.vm.tables
  alone : ∀ v frame, UserFrame s'.vm.mem p.pml4 v frame →
    ∀ q ∈ s.procs, ∀ w, ¬ UserFrame s'.vm.mem q.pml4 w frame

/-- The kernel's half is hidden from every process. -/
theorem Inv.off_ne (h : s.Inv lab) {p : Proc} (hp : p ∈ s.procs) {v frame : ℕ}
    (hv : UserFrame s.vm.mem p.pml4 v frame) : pml4Off v ≠ 511 := fun h511 =>
  not_userAccessible (by rw [h511, h.shared _ (h.procs p hp), h.hidden]) hv.1

/-- In every sound state with its tables in order, a program below the stacks whose VMAs are out of
the way gets frames of its own, and what is in use is not handed out again. -/
theorem load_owns_frames (hinv : s.Inv lab) (hs : s.Sound)
    (hpages : Supplies s pages f.loads.length) (hguard : s.Guarded pages)
    (hbelow : ∀ ph ∈ f.loads, ph.Below)
    (hnodes : Vm.NodesApart s.vm.tables pages f.loads.length) :
    ((∀ ph ∈ f.loads, BelowStack ph) → 6 + Vm.need f.loads ≤ pages.length →
        ∃ s', Step s (.elfRunBin f, pages) s') ∧
      ∀ s', Step s (.elfRunBin f, pages) s' → ∃ p, s'.procs = s.procs ++ [p] ∧
        OwnsFrames s pages s' p ∧ s'.Guarded s'.vm.supply := by
  refine ⟨fun hstack hlen => ?_, fun s' hstep => ?_⟩
  · obtain ⟨s', -, -, -, -, hstep, -⟩ := hinv.exists_image hs.clean hpages hlen hstack hnodes
    exact ⟨s', hstep⟩
  have hout : ∀ ph ∈ f.loads, ph.Outside ∧ ph.PagesOutside := fun ph hph =>
    ⟨(hbelow ph hph).outside, (hbelow ph hph).pagesOutside⟩
  obtain ⟨p, hprocs, hsettled, hwalk⟩ :=
    hinv.elfRunBin_settled hs.clean hstep hpages hout hnodes
  obtain ⟨nodes, hspace⟩ := hsettled.space
  obtain ⟨lab₁, hinv₁⟩ := hinv.step hstep hsettled.clean
  have hp : p ∈ s'.procs := by simp [hprocs]
  have hold : ∀ q ∈ s.procs, ∀ v frame, UserFrame s'.vm.mem q.pml4 v frame → frame ∉ pages :=
    fun q hq v frame hv =>
      hguard.frames q hq v frame ((UserFrame.congr (hwalk _ v (hinv.procs q hq))).1 hv)
  have hfree : ∀ v frame, UserFrame s'.vm.mem p.pml4 v frame → frame ∈ pages :=
    fun v frame hv => hsettled.frames v frame (hinv₁.off_ne hp hv) hv.2
  have htaken : ∀ v frame, UserFrame s'.vm.mem p.pml4 v frame → s'.vm.Taken frame :=
    fun v frame hv => (hspace.frame v frame (hinv₁.off_ne hp hv) hv.2).1
  refine ⟨p, hprocs, ⟨hfree, fun v w frame hv hw => ?_, fun v frame hv => (htaken v frame hv).1,
    fun v frame hv q hq w hw => hold q hq w frame hw (hfree v frame hv)⟩,
    fun q hq v frame hv => ?_, fun x hx hsup => hspace.fresh.2 x hsup hx⟩
  · exact hspace.inj v w frame (hinv₁.off_ne hp hv) (hinv₁.off_ne hp hw) hv.2 hw.2
  · rw [hprocs, List.mem_append, List.mem_singleton] at hq
    rcases hq with hq | rfl
    · exact fun hsup => hold q hq v frame hv (hsettled.supply.subset hsup)
    · exact (htaken v frame hv).2

/-- From the start on, no user can access anything. -/
theorem start_hidden {mem : ℕ → ℕ → ℕ} {supply : List ℕ} {numPages : ℕ}
    (h : start mem supply numPages = .ok s) (hc : s.vm.clobbered = []) {p : Proc}
    (hp : p ∈ s.procs) (v : ℕ) : ¬ UserAccessible s.vm.mem p.pml4 v := by
  obtain ⟨⟨vm, ker⟩, hpaging, h⟩ := bind_eq_ok.1 h
  obtain ⟨⟨vm', pcb⟩, hk, h⟩ := bind_eq_ok.1 h
  obtain rfl := Except.ok.inj h
  obtain rfl := List.mem_singleton.1 hp
  obtain ⟨hc', -, hmem⟩ := Vm.kmalloc_data hk hc
  obtain ⟨lab, hw, hroots, -, -⟩ := initPaging_tables hpaging hc'
  have hker := (hroots ker).2 rfl
  have hrow : vm'.mem ker = vm.mem ker := hmem ker ((hw.tables ker).2 ⟨[], hker⟩)
  intro hacc
  rcases hchild : entryChild (vm.mem ker (pml4Off v)) with _ | c
  · obtain ⟨es, hes, -⟩ := hacc
    rw [walk, offsets, Radix.trail_cons_none (by rw [hrow, hchild])] at hes
    cases hes
  · refine not_userAccessible ?_ hacc
    rw [hrow]
    exact hw.marks ker [] _ c hker (by simp) hchild

theorem start_guarded (h : start (fun _ _ => 0) (List.range' 560 10) 640 = .ok s)
    (hsmall : s.Small 569) : s.Guarded smallPages :=
  ⟨fun _ hp v _ hv => absurd hv.1 (start_hidden h hsmall.clean hp v),
    fun x hx hmem => hsmall.supplies.new x hmem hx⟩

theorem below_of_lt {ph : Vm.Phdr} (hfile : ph.pFilesz ≤ ph.pMemsz)
    (h : ph.pVaddr + ph.pMemsz < 2 ^ 47) : ph.Below := by
  refine ⟨?_, fun i hi => ?_⟩
  · rw [pml4Off, off_eq]
    omega
  · rw [pml4Off, off_eq]
    omega

/-- Two segments on the small machine. -/
theorem load_owns_frames_two :
    ∃ s₀ s p, start (fun _ _ => 0) (List.range' 560 10) 640 = .ok s₀ ∧
      Step s₀ (.elfRunBin (twoSegments 0x401040), smallPages) s ∧
      OwnsFrames s₀ smallPages s p ∧ s.Guarded s.vm.supply := by
  obtain ⟨s₀, h₀, -, hsmall⟩ := start_small
  obtain ⟨lab, hinv⟩ := start_inv h₀ hsmall.clean
  have hbelow : ∀ ph ∈ (twoSegments 0x401040).loads, ph.Below := fun ph hph =>
    below_of_lt ((by decide : ∀ ph ∈ (twoSegments 0x401040).loads, ph.pFilesz ≤ ph.pMemsz) ph hph)
      ((by decide : ∀ ph ∈ (twoSegments 0x401040).loads, ph.pVaddr + ph.pMemsz < 2 ^ 47) ph hph)
  obtain ⟨hexists, howns⟩ := load_owns_frames hinv (hsmall.sound (by decide)) hsmall.supplies
    (start_guarded h₀ hsmall) hbelow (Or.inr ⟨rfl, hsmall.notMem_succ, adjacent_smallPages⟩)
  obtain ⟨s, hstep⟩ := hexists (twoSegments_below _ (by decide)) (by decide)
  obtain ⟨p, -, hown, hguard⟩ := howns s hstep
  exact ⟨s₀, s, p, h₀, hstep, hown, hguard⟩

/-! ## A VMA in a table -/

end System

namespace Vm

variable {s s₁ : Vm} {t : ℕ}

/-- Nothing is mapped for a segment without bytes at the start of a page. -/
theorem loadSegments_empty {f : Elf} {ph : Phdr} {phs : List Phdr} {mm mm₁ : Mm} {node : ℕ}
    (hload : ph.pType = 1) (hpages : ph.pages = 0) (hfile : ph.pFilesz = 0) (hmem : ph.pMemsz = 0)
    (h : s.vmaMalloc mm = .ok (s₁, mm₁, node)) :
    s.loadSegments f t (ph :: phs) mm = (s₁.setVma node (f.vma ph)).loadSegments f t phs mm₁ := by
  have hregion : s.regionAlloc t ph.pVaddr ph.pMemsz = .ok s := by
    show mapPages t ph.pages s _ = _
    rw [hpages]
    rfl
  have hfill : s.fillSegment f t ph = .ok s := by
    have hzeros : ph.zeros = 0 := by rw [Phdr.zeros, hmem, if_neg (Nat.not_lt_zero _)]
    rw [fillSegment_eq, hregion, hfile, hzeros]
    rfl
  have hsegment : s.loadSegment f t mm ph = .ok (s₁.setVma node (f.vma ph), mm₁) := by
    rw [loadSegment_eq _ _ _ _ hload]
    exact bind_eq_ok.2 ⟨s, hfill, bind_eq_ok.2 ⟨_, h, rfl⟩⟩
  rw [loadSegments_cons, hsegment]
  rfl

end Vm

namespace System

variable {s : System} {lab : ℕ → Option (List ℕ)} {vm : Vm} {t u : ℕ}

/-- Six pages are taken for a new process, and below its stacks the PML4 is empty. -/
theorem Inv.newProcess_root (h : s.Inv lab) (hc : s.vm.clobbered = [])
    (hnodup : s.vm.supply.Nodup) (hnew : ∀ x ∈ s.vm.supply, x ∉ s.vm.tables)
    (hlow : ∀ x ∈ s.vm.supply, x < 2 ^ 27) (hok : s.newProcess = .ok (vm, t, u)) :
    (∃ used, used.length = 6 ∧ s.vm.supply = used ++ vm.supply) ∧
      ∀ i, i < 481 → vm.mem t i = 0 := by
  have hloading := h.newProcess hc hnodup hnew hlow hok
  obtain ⟨vma, vmb, vmc, vmd, pcb, ret, ha, hb, hk, hm, hzero, rfl⟩ := newProcess_ok hok
  obtain ⟨hsup, htab, -, -, hother⟩ := Vm.kmalloc_page rfl hk
  have hsupply : s.vm.supply = t :: pcb :: ret :: vmc.supply := by
    rw [Vm.kmalloc_supply ha, Vm.kmalloc_supply hb]
    exact congrArg _ (congrArg _ hsup)
  have hret : ret < 2 ^ 27 := hlow ret (by simp [hsupply])
  have htret : t ≠ ret := by
    rintro rfl
    simp [hsupply] at hnodup
  have hrow : ∀ i, i ≠ 511 → vmc.mem t i = 0 := fun i hi => by
    rw [hother t htret]
    simp [Vm.addRoot, hi]
  have ht : t ∈ vmc.tables := by
    rw [htab]
    exact List.mem_cons_self
  obtain ⟨hge, hlt⟩ : 481 ≤ pml4Off (stackAt ret) ∧ pml4Off (stackAt ret) < 511 := by
    rw [pml4Off, off_eq]
    unfold stackAt Vm.bumpPtr
    omega
  obtain ⟨c, d, e, hsup', htab', -, -, -, hkept⟩ :=
    Vm.initMap_new ht (by rw [hrow _ (Nat.ne_of_lt hlt)]; decide) hm
  obtain ⟨-, -, hmem⟩ := Vm.store_data hzero hloading.space.clean
  refine ⟨⟨[t, pcb, ret, c, d, e], rfl, ?_⟩, fun i hi => ?_⟩
  · rw [hsupply, hsup', Vm.store_supply hzero]
    rfl
  · rw [hmem t (by simp [htab', ht]), hkept i (by omega), hrow i (by omega)]

/-- A segment without bytes. -/
def emptyPhdr (va : ℕ) : Vm.Phdr := ⟨1, 6, 0, va, 0, 0⟩

/-- A file whose third address is an entry of a table. -/
def graft : Vm.Elf := ⟨0, fun _ => 0, [emptyPhdr 0, emptyPhdr 0, emptyPhdr (594 * 4096 + 7)]⟩

/-- What an address leads to by way of the third VMA. -/
theorem userFrame_graft {mem : ℕ → ℕ → ℕ} {c d e : ℕ} (h₄ : mem t 0 = c * 4096 ||| 7)
    (h₃ : mem c 1 = c * 4096 + 7) (h₂ : mem c 0 = d * 4096 ||| 7) (h₁ : mem d 1 = e * 4096 ||| 7) :
    UserFrame mem t (2 ^ 30 + 4096) e := by
  have hchild : ∀ x, entryChild (x * 4096 ||| 7) = some x := fun x =>
    entryChild_page_or x (by decide) (by decide)
  rw [← page_or c (by decide)] at h₃
  have hwalk : walk mem t (2 ^ 30 + 4096)
      = some [c * 4096 ||| 7, c * 4096 ||| 7, d * 4096 ||| 7, e * 4096 ||| 7] := by
    show Radix.trail entryChild mem t [0, 1, 0, 1] = _
    rw [Radix.trail_cons_some (by rw [h₄, hchild]), Radix.trail_cons_some (by rw [h₃, hchild]),
      Radix.trail_cons_some (by rw [h₂, hchild]), Radix.trail_cons_some (by rw [h₁, hchild]),
      h₄, h₃, h₂, h₁]
    rfl
  refine ⟨⟨_, hwalk, ?_⟩, ?_⟩
  · simp [(open_page_or _).2.2]
  · rw [translate, hwalk]
    exact congrArg some (Vm.isPresentPage_of_entryChild (hchild e)).2

/-- The first VMA is in a page of its own, the second one in the page after it, which is free. -/
theorem exists_emptySegments {old pool rest : List ℕ} (h : Vm.Loading old pool vm t ⟨0, none⟩ [])
    (hsup : vm.supply = 592 :: 593 :: rest) (phs : List Vm.Phdr) :
    ∃ vm₁ : Vm, vm.loadSegments graft t (emptyPhdr 0 :: emptyPhdr 0 :: phs) ⟨0, none⟩
        = vm₁.loadSegments graft t phs ⟨2, some 592⟩ ∧
      vm₁.Space t [592] ∧ vm₁.mem 592 7 = VADDR (593 * 4096) ∧ vm₁.supply = 593 :: rest ∧
      t ∈ vm₁.tables ∧ vm₁.mem t = vm.mem t := by
  obtain ⟨lab, hw, hroot⟩ := h.space.tree
  have ht : t ∈ vm.tables := (hw.tables t).2 ⟨[], hroot⟩
  have hnew := h.space.fresh.2
  obtain ⟨mem, hk⟩ := Vm.exists_kmalloc_page 64 hsup rfl (hnew 592 (by simp [hsup]))
  have hfirst : vm.vmaMalloc ⟨0, none⟩ = _ := Vm.vmaMalloc_first rfl hk
  obtain ⟨h₁, -⟩ := h.firstNode rfl hfirst (graft.vma (emptyPhdr 0))
  obtain ⟨-, -, hchain⟩ := h₁.list 592 rfl
  have hlast : Vm.lastVma 2 _ 592 = .ok 592 := hchain.lastVma (by simp) (by simp) (by simp)
  have hsecond : Vm.vmaMalloc _ ⟨1, some 592⟩ = _ := Vm.vmaMalloc_last rfl hlast
  obtain ⟨-, -, hspace, -, -, -, ⟨-, hnext, -⟩, -⟩ := h₁.linkNode rfl (by simp)
    (hnew 593 (by simp [hsup])) hsecond (graft.vma (emptyPhdr 0))
  obtain ⟨-, htab, hmem⟩ := (((Vm.kmalloc_data hk).trans (Vm.setVma_data _ _)).trans
    (Vm.poke_data _ _ _)).trans (Vm.setVma_data _ _) hspace.clean
  refine ⟨_, ?_, hspace, hnext, rfl, htab ▸ ht, hmem t ht⟩
  rw [Vm.loadSegments_empty rfl (by decide) rfl rfl hfirst,
    Vm.loadSegments_empty rfl (by decide) rfl rfl hsecond]

/-- The third segment has the page after, and its tables are the pages after that. -/
theorem exists_graft {rest : List ℕ} (h : vm.Space t [592])
    (hnext : vm.mem 592 7 = VADDR (593 * 4096)) (ht : t ∈ vm.tables)
    (hsup : vm.supply = 593 :: 594 :: 595 :: 596 :: rest) (habsent : vm.mem t 0 = 0) :
    ∃ vm₁, vm.loadSegments graft t [emptyPhdr (594 * 4096 + 7)] ⟨2, some 592⟩ = .ok vm₁ ∧
      UserFrame vm₁.mem t (2 ^ 30 + 4096) 596 ∧ 596 ∈ vm₁.tables := by
  have hnew : ∀ x ∈ vm.supply, x ∉ vm.tables := h.fresh.2
  obtain ⟨vma, hmap⟩ := h.ready.exists_mapPages (n := 1) (594 * 4096) (by simp [hsup])
  obtain ⟨vmk, frame, vmb, hk, hinit, hrest⟩ := Vm.mapPages_succ_ok.1 hmap
  obtain rfl := Except.ok.inj hrest
  obtain ⟨-, hmapped⟩ := h.mapPage hk hinit
  obtain ⟨hsupk, htabk, -, -, hother⟩ := Vm.kmalloc_page rfl hk
  obtain ⟨rfl, htail⟩ := List.cons.inj (hsup.symm.trans hsupk)
  have ht593 : t ≠ 593 := fun he => hnew 593 (by simp [hsup]) (he ▸ ht)
  have ht594 : t ≠ 594 := fun he => hnew 594 (by simp [hsup]) (he ▸ ht)
  obtain ⟨c, d, e, hsupb, htabb, h₄, h₃, h₂, -⟩ := Vm.initMap_new (htabk ▸ ht)
    (by rw [hother t ht593, show pml4Off (594 * 4096) = 0 by decide, habsent]; decide) hinit
  obtain ⟨rfl, rfl, rfl, -⟩ : 594 = c ∧ 595 = d ∧ 596 = e ∧ rest = vmb.supply := by
    simpa using htail.trans hsupb
  -- the second VMA is gone, and the third one is put after it
  have hlast : Vm.lastVma 3 vmb 592 = .ok 593 := by
    obtain ⟨hnull, haddr⟩ := Vm.node_address 593 (by decide)
    rw [Vm.lastVma, (hmapped.keeps.1 592 (h.nodes 592 (by simp))).2, hnext, if_neg hnull, haddr,
      if_pos (by decide), Nat.mul_div_cancel _ (by decide), Vm.lastVma, hmapped.zero, if_pos rfl]
  have hnode : vmb.vmaMalloc ⟨2, some 592⟩ = _ := Vm.vmaMalloc_last rfl hlast
  obtain ⟨hvma, -, hword⟩ := Vm.setVma_node (vmb.poke 593 7 (VADDR (594 * 4096))) 594
    (graft.vma (emptyPhdr (594 * 4096 + 7)))
  have hpoke : ∀ x, x ≠ 593 → (vmb.poke 593 7 (VADDR (594 * 4096))).mem x = vmb.mem x :=
    fun x hx => funext fun i => Radix.set_of_ne _ (Or.inl hx)
  have hregion : vm.regionAlloc t (594 * 4096 + 7) 0 = .ok vmb := by
    rw [Vm.regionAlloc_eq_mapPages, show Vm.getStartingPage (594 * 4096 + 7) = 594 * 4096 by decide,
      show (Vm.getEndingPage ((594 * 4096 + 7 + 0) % 2 ^ 64) - 594 * 4096) / 4096 = 1 by decide]
    exact hmap
  have hsegment : vm.loadSegment graft t ⟨2, some 592⟩ (emptyPhdr (594 * 4096 + 7))
      = .ok ((vmb.poke 593 7 (VADDR (594 * 4096))).setVma 594
        (graft.vma (emptyPhdr (594 * 4096 + 7))), ⟨3, some 592⟩) := by
    rw [Vm.loadSegment_eq _ _ _ _ rfl]
    exact bind_eq_ok.2 ⟨vmb, Vm.fillSegment_ok.2 ⟨vmb, vmb, hregion, rfl, rfl⟩,
      bind_eq_ok.2 ⟨_, hnode, rfl⟩⟩
  refine ⟨_, (Vm.loadSegments_cons _ _ _ _ _ _).trans (bind_eq_ok.2 ⟨_, hsegment, rfl⟩),
    userFrame_graft (c := 594) (d := 595) ?_ ?_ ?_ ?_, ?_⟩
  · rw [Vm.setVma_mem ht594, hpoke t ht593]
    exact h₄
  · rw [Vm.vmaAt] at hvma
    exact (Vm.Vma.mk.inj hvma).1
  · rw [hword 0 (Or.inl rfl), hpoke 594 (by decide)]
    exact h₃
  · rw [Vm.setVma_mem (by decide), hpoke 595 (by decide)]
    exact h₂
  · show 596 ∈ vmb.tables
    simp [htabb]

/-- Three segments without bytes, and the user has a table. -/
theorem load_maps_table :
    ∃ s₀ s p, start (fun _ _ => 0) (List.range' 560 10) 640 = .ok s₀ ∧
      s₀.Guarded smallPages ∧ (∀ ph ∈ graft.loads, ph.Below) ∧
      Step s₀ (.elfRunBin graft, smallPages) s ∧ s.procs = s₀.procs ++ [p] ∧
      UserFrame s.vm.mem p.pml4 (2 ^ 30 + 4096) 596 ∧ 596 ∈ s.vm.tables := by
  obtain ⟨s₀, h₀, -, hsmall⟩ := start_small
  obtain ⟨lab, hinv⟩ := start_inv h₀ hsmall.clean
  have hpages := hsmall.supplies
  obtain ⟨vm, -, hnew, -, hloading, -, -⟩ := hpages.exists_newProcess hinv hsmall.clean (by decide)
  obtain ⟨⟨used, hused, hsup⟩, hempty⟩ := (hinv.supply smallPages).newProcess_root
    hsmall.clean hpages.nodup hpages.new hpages.lt hnew
  replace hsup : vm.supply = List.range' 592 10 := by
    have hdrop := congrArg (List.drop 6) hsup
    rw [← hused, List.drop_left, hused] at hdrop
    exact hdrop.symm
  obtain ⟨vm', hsegments, hspace, hnext, hsup', ht, hmem⟩ := exists_emptySegments hloading hsup _
  obtain ⟨vm₁, hload, hframe, htable⟩ := exists_graft hspace hnext ht hsup'
    (by rw [hmem, hempty 0 (by decide)])
  replace hload := hsegments.trans hload
  refine ⟨s₀, { s₀ with vm := vm₁, procs := s₀.procs ++ [⟨578, stackAt 588⟩] }, ⟨578, stackAt 588⟩,
    h₀, start_guarded h₀ hsmall, fun ph hph => ?_, ⟨by simp [Op.on], hpages.lt, ?_⟩, rfl, hframe,
    htable⟩
  · exact below_of_lt ((by decide : ∀ ph ∈ graft.loads, ph.pFilesz ≤ ph.pMemsz) ph hph)
      ((by decide : ∀ ph ∈ graft.loads, ph.pVaddr + ph.pMemsz < 2 ^ 47) ph hph)
  · exact elfRunBin_ok.2 ⟨_, _, _, _, hnew, hload, rfl⟩

end System

end Bgox
