import Bgox.Proofs.Launch

/-!
# The kernel's half of every address space

Every PML4 gets the entry 511 of `ker_pml4_t`, and no mapping changes a present entry of a PML4, so
the user bit stays clear there (`kernel_half_hidden`).  This is all that keeps the kernel's half
from the user: the tables below that entry are shared and do get entries with the user bit set.

What the argument rests on is that nothing is stored in a page table but its entries, and that the
kernel's address of a table still leads to it.  Neither is checked: `elf_run_bin` copies a segment
to whatever address the program header has, and that may be the address of `ker_pml4_t`
(`kernel_half_exposed`).
-/

namespace Bgox

open Run (bind_eq_ok Reach)

/-- The user may access the page of an address. -/
def UserAccessible (mem : ℕ → ℕ → ℕ) (pml4 v : ℕ) : Prop :=
  ∃ es, walk mem pml4 v = some es ∧ ∀ e ∈ es, isPageUser e = true

theorem not_userAccessible {mem : ℕ → ℕ → ℕ} {pml4 v : ℕ}
    (h : isPageUser (mem pml4 (pml4Off v)) = false) : ¬ UserAccessible mem pml4 v := by
  rintro ⟨es, hw, hes⟩
  rcases hc : entryChild (mem pml4 (pml4Off v)) with _ | c
  · rw [walk, offsets, Radix.trail_cons_none hc] at hw
    cases hw
  · rw [walk, offsets, Radix.trail_cons_some hc] at hw
    obtain ⟨es', -, rfl⟩ := Option.map_eq_some_iff.1 hw
    simp [h] at hes

namespace System

/-- In every run through sound states, the entry 511 of every process is the kernel's, and no
address below it is the user's. -/
theorem kernel_half_hidden {mem : ℕ → ℕ → ℕ} {supply : List ℕ} {numPages : ℕ} {s₀ s : System}
    (h₀ : start mem supply numPages = .ok s₀) (h : Reach SoundStep s₀ s) (hs : s.Sound) (p : Proc)
    (hp : p ∈ s.procs) :
    s.vm.mem p.pml4 511 = s.vm.mem s.ker 511 ∧ isPageUser (s.vm.mem p.pml4 511) = false ∧
      ∀ v, pml4Off v = 511 → ¬ UserAccessible s.vm.mem p.pml4 v := by
  obtain ⟨lab, hinv⟩ := reach_inv h₀ h hs
  have htop := hinv.shared _ (hinv.procs p hp)
  have huser : isPageUser (s.vm.mem p.pml4 511) = false := by rw [htop, hinv.hidden]
  exact ⟨htop, huser, fun v hv => not_userAccessible (by rw [hv, huser])⟩

/-- The first process of a small machine. -/
theorem kernel_half_hidden_shell :
    ∃ s₀ s, start (fun _ _ => 0) (List.range' 560 10) 640 = .ok s₀ ∧ Reach SoundStep s₀ s ∧
      s.Sound ∧ ⟨578, stackAt 588⟩ ∈ s.procs ∧
      s.vm.mem 578 511 = s.vm.mem s.ker 511 ∧ isPageUser (s.vm.mem 578 511) = false ∧
      ∀ v, pml4Off v = 511 → ¬ UserAccessible s.vm.mem 578 v := by
  obtain ⟨s₀, s, h₀, hstep, hsmall, hprocs, -⟩ := exists_shell
  have hs := hsmall.sound (by decide)
  have hp : ⟨578, stackAt 588⟩ ∈ s.procs := by simp [hprocs]
  have hreach : Reach SoundStep s₀ s := Reach.step Reach.start hstep
  exact ⟨s₀, s, h₀, hreach, hs, hp, kernel_half_hidden h₀ hreach hs _ hp⟩

/-! ## A segment over the kernel's PML4 -/

/-- An address of the kernel's half that leads to a PML4 does so from any other PML4, too, and
whatever is in it. -/
theorem Inv.stable_root {lab : ℕ → Option (List ℕ)} {s : System} {t r v : ℕ} (h : s.Inv lab)
    (ht : lab t = some []) (hr : lab r = some []) (htr : t ≠ r) (hv : pml4Off v = 511)
    (hw : translate s.vm.mem s.ker v = some r) : s.vm.Stable t v r := by
  intro mem hmem
  have hhead : walk s.vm.mem t v = walk s.vm.mem s.ker v :=
    Radix.trail_congr_head (by rw [hv]; exact h.shared t ht) _
  have hsame : walk mem t v = walk s.vm.mem t v := by
    refine Radix.trail_cons_congr (by rw [hmem t htr]) fun c hc => ?_
    have hlab := h.wf.tree t [] _ c ht (by simp) hc
    refine h.wf.tree.trail_congr (j := 1) (fun n l hn hl i => ?_) hlab (by simp) (by simp)
    rw [hmem n]
    rintro rfl
    rw [hr] at hn
    cases hn
    simp at hl
  rw [translate, hsame, hhead]
  exact hw

/-- A file with one segment of 4096 bytes, all of them 7, for the address of a page.  It takes no
memory, so nothing is mapped for it. -/
def overwrite (page : ℕ) : Vm.Elf :=
  ⟨0, fun _ => 7, [⟨1, 0, 0x1000, VADDR (page * 4096), 4096, 0⟩]⟩

theorem loadSegments_overwrite {vm vm₁ vm₂ : Vm} {page t node : ℕ} (hpage : page < 2 ^ 19)
    (hstore : Vm.store t (List.replicate 4096 7) vm (VADDR (page * 4096)) = .ok vm₁)
    (hnode : vm₁.kmalloc 64 = .ok (vm₂, node)) :
    ∃ v, vm.loadSegments (overwrite page) t (overwrite page).phdrs ⟨0, none⟩
      = .ok (vm₂.setVma node v) := by
  obtain ⟨hv, -⟩ := vaddr_page hpage
  have hregion : vm.regionAlloc t (VADDR (page * 4096)) 0 = .ok vm := by
    have hnone : (Vm.getEndingPage ((VADDR (page * 4096) + 0) % 2 ^ 64)
        - Vm.getStartingPage (VADDR (page * 4096))) / 4096 = 0 := by
      rw [hv]
      unfold Vm.getEndingPage Vm.getStartingPage KERNEL_VADDR
      omega
    rw [Vm.regionAlloc_eq_mapPages, hnone]
    rfl
  have hseg : Vm.store t ((overwrite page).bytes 0x1000 (4096 % 2 ^ 32)) vm
      (VADDR (page * 4096)) = .ok vm₁ := by
    rw [← hstore, Vm.Elf.bytes, overwrite, List.map_const', List.length_range,
      Nat.mod_eq_of_lt (by decide : 4096 < 2 ^ 32)]
  refine ⟨⟨VADDR (page * 4096), (VADDR (page * 4096) + 0) % 2 ^ 64, 0, 0x1000, 0, 0⟩,
    (Vm.loadSegments_cons _ _ _ _ _ _).trans (bind_eq_ok.2 ⟨(_, ⟨1, some node⟩), ?_, rfl⟩)⟩
  rw [Vm.loadSegment_eq _ _ _ _ rfl]
  exact bind_eq_ok.2 ⟨vm₁, Vm.fillSegment_ok.2 ⟨vm, vm₁, hregion, hseg, rfl⟩,
    bind_eq_ok.2 ⟨_, Vm.vmaMalloc_first rfl hnode, rfl⟩⟩

/-- In a sound state with enough memory, the file for `ker_pml4_t` gives its entry 511 the user
bit. -/
theorem Inv.exists_overwrite {lab : ℕ → Option (List ℕ)} {s : System} {t pcb ret : ℕ}
    {rest : List ℕ} (h : s.Inv lab) (hs : s.Sound) (hker : s.ker < 2 ^ 19)
    (hsup : s.vm.supply = t :: pcb :: ret :: rest) (hnodup : (t :: ret :: rest).Nodup)
    (hnew : ∀ x ∈ t :: ret :: rest, x ∉ s.vm.tables)
    (hpcb : ∀ x ∈ s.vm.tables, ¬ (pcb ≤ x ∧ x < pcb + 9)) (hlen : 4 ≤ rest.length)
    (hlow : ∀ p ∈ ret :: rest, p < 2 ^ 27) :
    ∃ s', s.elfRunBin (overwrite s.ker) = .ok s' ∧ s'.ker = s.ker ∧ ⟨t, stackAt ret⟩ ∈ s'.procs ∧
      isPageUser (s'.vm.mem s'.ker 511) = true ∧ isPageUser (s'.vm.mem t 511) = false := by
  obtain ⟨vm, lab₁, helf, h₁, htakes, -, hwalk⟩ :=
    h.exists_elfRunBin hs.clean hsup hnodup hnew hpcb (by omega) hlow (overwrite s.ker)
  obtain ⟨hv, h511⟩ := vaddr_page hker
  have hroot : lab₁ t = some [] := h₁.procs ⟨t, stackAt ret⟩ (by simp)
  have hkt : t ≠ s.ker := by
    rintro rfl
    exact hnew s.ker List.mem_cons_self (h.mem_tables h.ker)
  -- the kernel's address of its PML4, from the new one
  have hview : translate vm.mem s.ker (VADDR (s.ker * 4096)) = some s.ker := by
    rw [translate, hwalk s.ker _ h.ker (offsets_vaddr_ne hker (hlow ret List.mem_cons_self))]
    exact hs.view s.ker (h.mem_tables h.ker)
  have hstable : vm.Stable t (VADDR (s.ker * 4096)) s.ker :=
    h₁.stable_root hroot h₁.ker hkt h511 hview
  have halign : VADDR (s.ker * 4096) % 4096 = 0 ∧ VADDR (s.ker * 4096) + 4096 ≤ 2 ^ 64 := by
    rw [hv]
    unfold KERNEL_VADDR
    omega
  obtain ⟨vm₁, hstore, hfill⟩ := Vm.exists_store halign.1 halign.2 (List.replicate 4096 7) 0 hstable
    (by simp only [List.length_replicate, Nat.zero_add, Nat.le_refl])
  rw [Nat.add_zero, Nat.mod_eq_of_lt (by omega)] at hstore
  -- a page for the VMA
  have hfresh : vm.Fresh := htakes.fresh <| by
    simp only [List.nodup_cons, List.mem_cons, not_or] at hnodup
    refine ⟨hnodup.2.2, fun x hx => ?_⟩
    simp only [List.mem_cons, not_or]
    exact ⟨fun he => hnodup.1.2 (he ▸ hx), hnew x (by simp [hx])⟩
  obtain ⟨node, rest', hrest⟩ : ∃ node rest', vm.supply = node :: rest' := by
    refine List.exists_cons_of_ne_nil fun hnil => ?_
    have hle := htakes.length_le
    rw [hnil] at hle
    simp only [List.length_nil] at hle
    omega
  have hnode : node ∉ vm.tables := hfresh.2 node (by simp [hrest])
  obtain ⟨mem, hk⟩ := Vm.exists_kmalloc_page 64 (hfill.supply.trans hrest) rfl
    (hfill.tables.symm ▸ hnode)
  obtain ⟨v, hload⟩ := loadSegments_overwrite hker hstore hk
  have hkept : ∀ n ∈ vm.tables,
      (Vm.setVma ⟨mem, rest', vm₁.tables, vm₁.clobbered⟩ node v).mem n 511 = vm₁.mem n 511 := by
    intro n hn
    have hne : n ≠ node := by
      rintro rfl
      exact hnode hn
    rw [Vm.setVma_mem hne, Vm.kmalloc_mem hk (hfill.tables.symm ▸ hn)]
  refine ⟨_, helf.trans (bind_eq_ok.2 ⟨_, hload, rfl⟩), rfl, by simp, ?_, ?_⟩
  · have hlast := hfill.stored 7 (fun b hb => by rw [List.eq_of_mem_replicate hb]) 511
      (Nat.zero_le _) (by rw [List.length_replicate]; decide)
    simp only [hkept _ (h₁.mem_tables h₁.ker), isPageUser_eq, decide_eq_true_eq]
    omega
  · simp only [hkept _ (h₁.mem_tables hroot), hfill.other t hkt]
    have hshared : vm.mem t 511 = vm.mem s.ker 511 := h₁.shared t hroot
    rw [hshared]
    exact h₁.hidden

/-- On the small machine, `ker_pml4_t` is the page 560. -/
theorem kernel_half_exposed :
    ∃ s₀ s, start (fun _ _ => 0) (List.range' 560 10) 640 = .ok s₀ ∧
      Step s₀ (.elfRunBin (overwrite 560), [578, 579, 588, 589, 590, 591, 592]) s ∧
      ∃ p ∈ s.procs, s.vm.mem p.pml4 511 ≠ s.vm.mem s.ker 511 ∧
        isPageUser (s.vm.mem s.ker 511) = true := by
  obtain ⟨s₀, h₀, -, hsmall⟩ := start_small
  have hs := hsmall.sound (by decide)
  obtain ⟨lab, hinv⟩ := start_inv h₀ hs.clean
  have hnew : ∀ x ∈ [578, 588, 589, 590, 591, 592], x ∉ s₀.vm.tables := fun x hx =>
    hsmall.notMem ((by decide : ∀ x ∈ [578, 588, 589, 590, 591, 592], 569 ≤ x) x hx)
  obtain ⟨s, helf, hker', hp, huser, hclear⟩ :=
    (hinv.supply [578, 579, 588, 589, 590, 591, 592]).exists_overwrite ⟨hs.clean, hs.view⟩
      (by rw [hsmall.ker]; decide) rfl (by decide) hnew (hsmall.task (by decide)) (by decide)
      (by decide)
  refine ⟨s₀, s, h₀, ⟨by simp [Op.on], by decide, ?_⟩, _, hp, fun he => ?_, huser⟩
  · rw [← hsmall.ker]
    exact helf
  · rw [he, huser] at hclear
    cases hclear

end System

end Bgox
