import Bgox.Proofs.Launch

/-!
# A child shares its parent's tables

`sys_fork` copies the 512 entries of the parent's PML4, not the tables below them.  Every process
has tables outside the kernel's half, those of its stack if no others, and after the fork both
processes go through the same ones: what is mapped for the child is mapped for the parent
(`fork_not_isolated`).
-/

namespace Bgox

open Run (Reach)

namespace System

variable {s s' : System} {lab : ℕ → Option (List ℕ)} {parent child : Proc} {supply : List ℕ}
  {vmas : List Vm.Vma} {file : ℕ → ℕ}

/-- The fork from `s` to `s'` leaves the parent's address space as it was, and so does every later
call that maps an address below the kernel's half for the child. -/
def Isolated (s s' : System) (parent child : Proc) : Prop :=
  (∀ v, translate s'.vm.mem parent.pml4 v = translate s.vm.mem parent.pml4 v) ∧
    ∀ s'', Reach Step s' s'' → ∀ v p pages access supply vm, pml4Off v < 511 →
      Vm.initMapVirtPhysAddr { s''.vm with supply } v p pages child.pml4 access = .ok vm →
      ∀ w, translate vm.mem parent.pml4 w = translate s''.vm.mem parent.pml4 w

/-- Two PML4s with the same entry for an address: mapping it for one maps it for the other. -/
theorem Inv.map_shared (h : s.Inv lab) (hc : s.vm.clobbered = []) {r r' v : ℕ}
    (hr : lab r = some []) (hr' : lab r' = some [])
    (hsame : s.vm.mem r (pml4Off v) = s.vm.mem r' (pml4Off v)) (hprep : Vm.Prepared s.vm.mem r v)
    (p : ℕ) :
    ∃ vm, Vm.initMapVirtPhysAddr { s.vm with supply := [] } v p 1 r 1 = .ok vm ∧
      translate vm.mem r' v = some (entryPage p) := by
  obtain ⟨vm, hm, hclob⟩ := Vm.initMap_prepared (s := { s.vm with supply := [] }) hprep p 1
  obtain ⟨lab₁, hgrow, -, e₄, e₃, e₂, hwalk, -⟩ :=
    Vm.initMap_one (fun _ => trivial) (h.supply []).wf hr hm (hclob.trans hc)
  obtain ⟨pdpe, pde, pte, h4, -, -⟩ := hprep
  have hk := hgrow.ext.keep r [] (pml4Off v) pdpe hr (by simp) (by simp) h4
  have hk' := hgrow.ext.keep r' [] (pml4Off v) pdpe hr' (by simp) (by simp) (hsame ▸ h4)
  have hhead : walk vm.mem r' v = walk vm.mem r v :=
    Radix.trail_congr_head (by rw [hk, hk']; exact hsame.symm) _
  refine ⟨vm, hm, ?_⟩
  rw [translate, hhead, hwalk]
  simp [entryPage_leafEntry]

theorem Inv.not_isolated (h : s.Inv lab) (hs : Step s (.sysFork parent vmas file, supply) s')
    (hc : s'.vm.clobbered = []) :
    ∃ child, s'.procs = s.procs ++ [child] ∧ ¬ Isolated s s' parent child := by
  obtain ⟨hon, hsup, hfork⟩ := hs
  have hparent := h.procs parent (hon parent List.mem_cons_self)
  obtain ⟨lab₁, child, h₁, hprocs, hext, hcopy⟩ := (h.supply supply).sysFork hparent hsup hfork hc
  refine ⟨child, hprocs, fun ⟨_, hlater⟩ => ?_⟩
  obtain ⟨v, hv, hprep⟩ := h.lower parent.pml4 hparent
  have hprep' := hprep.ext h.wf hparent hext
  obtain ⟨pdpe, -, -, h4, -, -⟩ := hprep
  have hparent' := hext.mono _ _ hparent
  have hsame : s'.vm.mem child.pml4 (pml4Off v) = s'.vm.mem parent.pml4 (pml4Off v) := by
    rw [hcopy _ _ h4, hext.keep _ _ _ _ hparent (by simp) (by simp) h4]
  have hchild : lab₁ child.pml4 = some [] := h₁.procs child (by simp [hprocs])
  -- two pages cannot both be the one the parent has there already
  have hfound : ∀ p, translate s'.vm.mem parent.pml4 v = some (entryPage p) := by
    intro p
    obtain ⟨vm, hm, htr⟩ := h₁.map_shared hc hchild hparent' hsame (hprep'.congr hsame) p
    rw [← htr]
    exact (hlater s' Reach.start v p 1 1 [] vm hv hm v).symm
  have h01 := (hfound 0).symm.trans (hfound 4096)
  cases h01

/-- After a fork in a sound state, of any process with any VMAs, parent and child are not
isolated. -/
theorem fork_not_isolated {mem : ℕ → ℕ → ℕ} {supply₀ : List ℕ} {numPages : ℕ} {s₀ s s' : System}
    (h₀ : start mem supply₀ numPages = .ok s₀) (h : Reach SoundStep s₀ s) (parent : Proc)
    (vmas : List Vm.Vma) (file : ℕ → ℕ) (supply : List ℕ)
    (hs : SoundStep s (.sysFork parent vmas file, supply) s') (hs' : s'.Sound) :
    ∃ child, s'.procs = s.procs ++ [child] ∧ ¬ Isolated s s' parent child := by
  obtain ⟨lab, hinv⟩ := reach_inv h₀ h hs.1
  exact hinv.not_isolated hs.2 hs'.clean

/-- The first process of a small machine and its child. -/
theorem fork_not_isolated_child :
    ∃ s₀ s s', start (fun _ _ => 0) (List.range' 560 10) 640 = .ok s₀ ∧ Reach SoundStep s₀ s ∧
      SoundStep s (.sysFork ⟨578, stackAt 588⟩ [] fun _ => 0,
        [592, 601, 602, 603, 604, 605, 606, 607, 608]) s' ∧ s'.Sound ∧
      ∃ child, s'.procs = s.procs ++ [child] ∧ ¬ Isolated s s' ⟨578, stackAt 588⟩ child := by
  obtain ⟨s₀, s, s', h₀, hstep, hfork, hs'⟩ := exists_child
  have hreach : Reach SoundStep s₀ s := Reach.step Reach.start hstep
  exact ⟨s₀, s, s', h₀, hreach, hfork, hs', fork_not_isolated h₀ hreach _ _ _ _ hfork hs'⟩

/-- The fork above, from the start of that machine. -/
theorem fork_shares_tables :
    ∃ s₀ s s', start (fun _ _ => 0) (List.range' 560 10) 640 = .ok s₀ ∧
      Step s₀ (.elfRunBin ⟨0, fun _ => 0, []⟩, [578, 579, 588, 589, 590, 591]) s ∧
      Step s (.sysFork ⟨578, stackAt 588⟩ [] fun _ => 0,
        [592, 601, 602, 603, 604, 605, 606, 607, 608]) s' ∧
      ∃ child, s'.procs = s.procs ++ [child] ∧ ¬ Isolated s s' ⟨578, stackAt 588⟩ child := by
  obtain ⟨s₀, s, s', h₀, hstep, hfork, hs'⟩ := exists_child
  obtain ⟨lab₀, hinv₀⟩ := start_inv h₀ hstep.1.clean
  obtain ⟨lab, hinv⟩ := hinv₀.step hstep.2 hfork.1.clean
  exact ⟨s₀, s, s', h₀, hstep.2, hfork.2, hinv.not_isolated hfork.2 hs'.clean⟩

end System

end Bgox
