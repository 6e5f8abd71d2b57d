import Bgox.Proofs.LoadProgram

/-!
# What loading a program leaves alone

The PML4 of a new process has the entry 511 of `ker_pml4_t`, and everything else below it is made
for the process (`Private`).  So a program whose segments are outside the kernel's half changes no
table of another process (`load_keeps_spaces`).  The loader does not look at where they are: a
segment in the kernel's half is mapped in the tables all processes share (`load_changes_kernel`).
-/

namespace Bgox

open Run (bind_eq_ok Reach)

namespace Vm

variable {s s₁ s₂ : Vm} {lab : ℕ → Option (List ℕ)} {l : List ℕ} {old : List ℕ} {mem₀ : ℕ → ℕ → ℕ}
  {t n c off v : ℕ}

/-- The tables below a PML4, outside the kernel's half, are none of the old ones, and these are as
they were. -/
structure Private (old : List ℕ) (mem₀ : ℕ → ℕ → ℕ) (s : Vm) (t : ℕ)
    (lab : ℕ → Option (List ℕ)) : Prop where
  wf : s.Labels lab
  root : lab t = some []
  new : t ∉ old
  kept : ∀ n ∈ old, n ∈ s.tables ∧ s.mem n = mem₀ n
  below : ∀ n l i c, lab n = some l → n ∉ old → l.length < 3 → (n = t → i ≠ 511) →
    entryChild (s.mem n i) = some c → c ∉ old

/-- Stores that hit no table. -/
theorem Private.data (h : Private old mem₀ s t lab) (hd : Data s s₁) (hc : s₁.clobbered = []) :
    Private old mem₀ s₁ t lab := by
  obtain ⟨-, htab, hmem⟩ := hd hc
  refine ⟨(hd.grows hc h.wf).wf, h.root, h.new, fun n hn => ?_,
    fun n l i c hn hold hl hi hchild => ?_⟩
  · obtain ⟨hn', hold⟩ := h.kept n hn
    exact ⟨htab ▸ hn', (hmem n hn').trans hold⟩
  · rw [hmem n ((h.wf.tables n).2 ⟨l, hn⟩)] at hchild
    exact h.below n l i c hn hold hl hi hchild

theorem Private.nextTable {access : ℕ} (h : Private old mem₀ s t lab) (hn : lab n = some l)
    (hold : n ∉ old) (hl : l.length < 3) (hoff : off < 512) (htop : n = t → off ≠ 511)
    (hok : s.nextTable n off access = .ok (s₁, c)) (hc : s.clobbered = []) :
    ∃ lab₁, Private old mem₀ s₁ t lab₁ ∧ lab₁ c = some (l ++ [off]) ∧ c ∉ old := by
  have htakes := (nextTable_takes hoff hok).1
  obtain ⟨lab₁, hgrow, -, hlab, -⟩ :=
    nextTable_grows (fun _ => trivial) h.wf hn hl hoff hok (htakes.clobbered.trans hc)
  unfold Vm.nextTable at hok
  split_ifs at hok with hp
  · obtain ⟨rfl, rfl⟩ := Prod.mk.inj (Except.ok.inj hok)
    have hchild := entryChild_eq_some hp
    exact ⟨lab, h, h.wf.tree n l off _ hn (by omega) hchild,
      h.below n l off _ hn hold hl htop hchild⟩
  · obtain ⟨hnew, rest, -, rfl⟩ := allocTable_ok hoff hok
    have hcold : c ∉ old := fun ho => hnew (h.kept c ho).1
    refine ⟨lab₁, ⟨hgrow.wf, hgrow.ext.mono _ _ h.root, h.new, fun m hm => ?_,
      fun m l' i d hm hmold hl' hi hchild => ?_⟩, hlab, hcold⟩
    · obtain ⟨hm', hmem⟩ := h.kept m hm
      have hmn : m ≠ n := fun he => hold (he ▸ hm)
      have hmc : m ≠ c := fun he => hcold (he ▸ hm)
      refine ⟨List.mem_cons_of_mem _ hm', ?_⟩
      rw [← hmem]
      funext i
      simp only [Radix.set_of_ne _ (Or.inl hmn), Radix.clear_of_ne hmc]
    · -- the new table is empty, and the entry for it leads to it
      by_cases hmc : m = c
      · subst hmc
        have hmn : m ≠ n := fun he => hnew (he ▸ (h.wf.tables n).2 ⟨l, hn⟩)
        simp only [Radix.set_of_ne _ (Or.inl hmn), Radix.clear, Function.update_self,
          entryChild_zero] at hchild
        cases hchild
      · by_cases hent : m = n ∧ i = off
        · obtain ⟨rfl, rfl⟩ := hent
          simp only [Radix.set_same, entryChild_table] at hchild
          exact (Option.some.inj hchild) ▸ hcold
        · have hne : m ≠ n ∨ i ≠ off := by tauto
          simp only [Radix.set_of_ne _ hne, Radix.clear_of_ne hmc] at hchild
          have hmem : m ∈ s.tables := by
            have htab := (hgrow.wf.tables m).2 ⟨l', hm⟩
            exact (List.mem_cons.1 htab).resolve_left hmc
          obtain ⟨l₀, hl₀⟩ := (h.wf.tables m).1 hmem
          obtain rfl : l₀ = l' := Option.some.inj ((hgrow.ext.mono _ _ hl₀).symm.trans hm)
          exact h.below m l₀ i d hl₀ hmold hl' hi hchild

/-- Mapping a page outside the kernel's half. -/
theorem Private.initMap {p access : ℕ} (h : Private old mem₀ s t lab) (hv : pml4Off v ≠ 511)
    (hok : s.initMapVirtPhysAddr v p 1 t access = .ok s₁) (hc : s.clobbered = []) :
    ∃ lab₁, Private old mem₀ s₁ t lab₁ := by
  obtain ⟨s', pde, pte, ht, rfl⟩ := initMap_one_ok hok
  obtain ⟨sa, sb, pdpe, h4, h3, h2⟩ := tablesFor_ok h.wf h.root ht
  have hca := (nextTable_takes (pml4Off_lt v) h4).1.clobbered.trans hc
  have hcb := (nextTable_takes (pdpeOff_lt v) h3).1.clobbered.trans hca
  -- a table below the first level is not the PML4
  have hlower : ∀ {lab' : ℕ → Option (List ℕ)} {s : Vm} {n i : ℕ} {l : List ℕ} {o : ℕ},
      Private old mem₀ s t lab' → lab' n = some (l ++ [i]) → n = t → o ≠ 511 := by
    rintro lab' s n i l o h hn rfl
    rw [h.root] at hn
    simp at hn
  obtain ⟨laba, ha, hla, hpa⟩ :=
    h.nextTable h.root h.new (by simp) (pml4Off_lt v) (fun _ => hv) h4 hc
  obtain ⟨labb, hb, hlb, hpb⟩ :=
    ha.nextTable hla hpa (by simp) (pdpeOff_lt v) (hlower ha hla) h3 hca
  obtain ⟨labc, hcc, hlc, hpc⟩ :=
    hb.nextTable hlb hpb (by simp) (pdeOff_lt v) (hlower hb hlb) h2 hcb
  have hleaf := (hcc.wf.tree.leaf (k := 2) hlc (by simp) (pteOff v) (leafEntry access p)).1
  have hmem : ∀ {n i}, n ≠ pte →
      Radix.set s'.mem pte (pteOff v) (leafEntry access p) n i = s'.mem n i :=
    fun hn => Radix.set_of_ne _ (Or.inl hn)
  refine ⟨labc, ⟨hleaf.tree, hcc.wf.tables, fun _ _ _ _ _ _ _ => trivial⟩, hcc.root, hcc.new,
    fun n hn => ⟨(hcc.kept n hn).1, ?_⟩, fun n l i c hn hold hl hi hchild => ?_⟩
  · rw [← (hcc.kept n hn).2]
    funext i
    exact hmem fun he => hpc (he ▸ hn)
  · have hne : n ≠ pte := by
      rintro rfl
      rw [hlc] at hn
      cases hn
      simp at hl
    simp only [hmem hne] at hchild
    exact hcc.below n l i c hn hold hl hi hchild

/-! ## The loader -/

/-- If no table has been hit, the old ones are as they were. -/
def Confined (t : ℕ) (s s₁ : Vm) : Prop :=
  s₁.clobbered = [] → s.clobbered = [] ∧
    ∀ old mem₀ lab, Private old mem₀ s t lab → ∃ lab₁, Private old mem₀ s₁ t lab₁

theorem Confined.refl (s : Vm) : Confined t s s := fun h => ⟨h, fun _ _ lab hp => ⟨lab, hp⟩⟩

theorem Confined.trans (h : Confined t s s₁) (h' : Confined t s₁ s₂) : Confined t s s₂ := by
  intro hc
  obtain ⟨hc₁, hnext⟩ := h' hc
  obtain ⟨hc₀, hfirst⟩ := h hc₁
  refine ⟨hc₀, fun old mem₀ lab hp => ?_⟩
  obtain ⟨lab₁, hp₁⟩ := hfirst old mem₀ lab hp
  exact hnext old mem₀ lab₁ hp₁

theorem Data.confined (h : Data s s₁) : Confined t s s₁ :=
  fun hc => ⟨(h hc).1, fun _ _ lab hp => ⟨lab, hp.data h hc⟩⟩

theorem initMap_confined {p : ℕ} (hv : pml4Off v ≠ 511)
    (h : s.initMapVirtPhysAddr v p 1 t 1 = .ok s₁) : Confined t s s₁ := by
  intro hc
  have hc₀ := clobbered_of_initMap h hc
  exact ⟨hc₀, fun _ _ _ hp => hp.initMap hv h hc₀⟩

theorem mapPages_confined : ∀ {n : ℕ} {s s₁ : Vm} {v : ℕ},
    (∀ i < n, pml4Off (v + 4096 * i) ≠ 511) → mapPages t n s v = .ok s₁ → Confined t s s₁
  | 0, s, s₁, _, _, h => by
    obtain rfl := Except.ok.inj h
    exact .refl s
  | n + 1, s, s₁, v, hv, h => by
    obtain ⟨s', addr, s'', hk, hm, h⟩ := mapPages_succ_ok.1 h
    refine ((kmalloc_data hk).confined.trans (initMap_confined (hv 0 (by omega)) hm)).trans
      (mapPages_confined (fun i hi => ?_) h)
    have hnext := hv (i + 1) (by omega)
    rwa [Nat.mul_add, Nat.mul_one, Nat.add_comm (4096 * i), ← Nat.add_assoc] at hnext

/-- No page of a segment is in the kernel's half. -/
def Phdr.PagesOutside (ph : Phdr) : Prop :=
  ∀ i < ph.pages, pml4Off (getStartingPage ph.pVaddr + 4096 * i) ≠ 511

theorem loadSegments_confined {f : Elf} : ∀ {phs : List Phdr} {s s₁ : Vm} {mm : Mm},
    (∀ ph ∈ phs, ph.pType = 1 → ph.PagesOutside) →
    loadSegments f t phs s mm = .ok s₁ → Confined t s s₁
  | [], s, s₁, _, _, h => by
    obtain rfl := Except.ok.inj h
    exact .refl s
  | ph :: phs, s, s₁, mm, hphs, h => by
    rw [loadSegments_cons] at h
    obtain ⟨⟨s', mm'⟩, hs, h⟩ := bind_eq_ok.1 h
    refine .trans ?_ (loadSegments_confined (fun p hp => hphs p (List.mem_cons_of_mem _ hp)) h)
    by_cases hload : ph.pType = 1
    · obtain ⟨sa, sb, node, ha, hb, rfl⟩ := loadSegment_ok hload hs
      obtain ⟨sc, sd, hregion, hfile, hzero⟩ := fillSegment_ok.1 ha
      have hstores := (store_data hfile).trans (store_data hzero)
      have hnode := (vmaMalloc_data hb).trans (setVma_data node (f.vma ph))
      exact (mapPages_confined (hphs ph List.mem_cons_self hload) hregion).trans
        (hstores.trans hnode).confined
    · rw [loadSegment_of_ne _ _ _ _ hload] at hs
      obtain ⟨rfl, -⟩ := Prod.mk.inj (Except.ok.inj hs)
      exact .refl s

end Vm

namespace System

variable {s s' : System} {lab : ℕ → Option (List ℕ)} {t u : ℕ} {vm : Vm} {f : Vm.Elf}

/-- The old tables, below a new PML4 with its stack. -/
theorem Inv.private_newProcess (h : s.Inv lab) (hlow : ∀ x ∈ s.vm.supply, x < 2 ^ 27)
    (hok : s.newProcess = .ok (vm, t, u)) (hc : vm.clobbered = []) :
    ∃ lab₁, Vm.Private s.vm.tables s.vm.mem vm t lab₁ := by
  obtain ⟨vma, vmb, vmc, vmd, pcb, ret, ha, hb, hk, hm, hzero, rfl⟩ := newProcess_ok hok
  have hret : ret ∈ s.vm.supply := by
    have hsup := Vm.kmalloc_supply hk
    refine Vm.mem_supply_of_kmalloc ha (Vm.mem_supply_of_kmalloc hb ?_)
    rw [show vmb.supply = ret :: vmc.supply from hsup]
    exact List.mem_cons_self
  have hrest : Vm.Confined t
      (vmb.addRoot t (Function.update (fun _ => 0) 511 (vmb.mem s.ker 511))) vm :=
    ((Vm.kmalloc_data hk).confined.trans
      (Vm.initMap_confined (Nat.ne_of_lt (pml4Off_stack (hlow ret hret))) hm)).trans
      (Vm.store_data hzero).confined
  have hdata := (Vm.kmalloc_data ha).trans (Vm.kmalloc_data hb)
  obtain ⟨hcb, hnext⟩ := hrest hc
  have hcb : vmb.clobbered = [] := hcb
  obtain ⟨-, htab, hmem⟩ := hdata hcb
  have h₁ := h.data hdata hcb
  have ht : t ∉ s.vm.tables := Vm.kmalloc_notMem ha
  obtain ⟨-, hwf⟩ := Vm.addRoot_labels h₁.wf (by simp only [htab]; exact ht)
    (row_of_ker h₁.ker vmb.mem)
  refine hnext _ _ _ ⟨hwf, by simp, ht, fun n hn => ?_, fun n l i c hn hold _ hi hchild => ?_⟩
  · have hnt : n ≠ t := fun he => ht (he ▸ hn)
    refine ⟨List.mem_cons_of_mem _ (htab ▸ hn), ?_⟩
    simp only [Vm.addRoot, Function.update_of_ne hnt, hmem n hn]
  · -- all tables but the PML4 are old
    have hnt : n = t := by
      have hn' := (hwf.tables n).2 ⟨l, hn⟩
      rcases List.mem_cons.1 hn' with hn' | hn'
      · exact hn'
      · exact absurd (htab ▸ hn') hold
    subst hnt
    simp [Vm.addRoot, hi rfl, entryChild_zero] at hchild

/-- The address space of a program whose segments are outside the kernel's half and whose VMAs are
out of the way, beside those there were. -/
theorem Inv.elfRunBin_settled (hinv : s.Inv lab) (hc : s.vm.clobbered = []) {pages : List ℕ}
    (hstep : Step s (.elfRunBin f, pages) s') (hpages : Supplies s pages f.loads.length)
    (hout : ∀ ph ∈ f.loads, ph.Outside ∧ ph.PagesOutside)
    (hnodes : Vm.NodesApart s.vm.tables pages f.loads.length) :
    ∃ p, s'.procs = s.procs ++ [p] ∧ Vm.Settled pages s'.vm p.pml4 ∧
      ∀ r v, lab r = some [] → walk s'.vm.mem r v = walk s.vm.mem r v := by
  have hinv' := hinv.supply pages
  obtain ⟨-, hlow, hok⟩ := hstep
  obtain ⟨vm, t, u, vm', hnew, hload, rfl⟩ := elfRunBin_ok.1 hok
  -- no table is hit
  have hloading := hinv'.newProcess hc hpages.nodup hpages.new hlow hnew
  obtain ⟨mm, hrun⟩ := Vm.exists_mm_of_loadSegments hload
  rw [← Vm.loadSegmentsMm_filter] at hrun
  have hsettled := (hloading.run (fun ph hph => ⟨Vm.mem_loads hph, (hout ph hph).1⟩)
    (fun x hx => Nat.le_of_lt (hpages.low x hx)) hnodes hrun).1
  have hconfined := Vm.loadSegments_confined (fun ph hph hload =>
    (hout ph (List.mem_filter.2 ⟨hph, decide_eq_true hload⟩)).2) hload
  obtain ⟨lab₁, hpriv⟩ := hinv'.private_newProcess hlow hnew hloading.space.clean
  obtain ⟨lab₂, hpriv'⟩ := (hconfined hsettled.clean).2 _ _ _ hpriv
  refine ⟨⟨t, u⟩, rfl, hsettled, fun r v hr => ?_⟩
  refine hinv.wf.tree.trail_congr (j := 0) (fun n l hn _ i => ?_) hr (Nat.zero_le _)
    (by simp [offsets])
  rw [show vm'.mem n = s.vm.mem n from (hpriv'.kept n ((hinv.wf.tables n).2 ⟨l, hn⟩)).2]

end System

end Bgox
