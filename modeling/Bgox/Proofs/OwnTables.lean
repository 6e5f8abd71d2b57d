import Bgox.Proofs.FreshFrames

/-!
# The tables of one process

All address spaces have the kernel's half in common.  The tables the other half leads to are those
of one process (`OwnTable`), and as long as these are as they were, so is what its addresses lead to
(`OwnTable.walk`).  A mapping for a process changes none that is not its own (`Private.ownTable`).

The loader takes pages from `kmalloc`, and stores to pages above the first of them only, if there
are no more than two segments (`Loading.run_leaves`): the second VMA goes to the page after the
first.
-/

namespace Bgox

open Run (bind_eq_ok)

/-- The indices `l`, the first of them not the one of the kernel's half, lead from a PML4 to a
table. -/
inductive OwnTable (mem : ℕ → ℕ → ℕ) (r : ℕ) : List ℕ → ℕ → Prop
  | root : OwnTable mem r [] r
  | child {l : List ℕ} {n i c : ℕ} : OwnTable mem r l n → l.length < 3 → (l = [] → i ≠ 511) →
      entryChild (mem n i) = some c → OwnTable mem r (l ++ [i]) c

namespace OwnTable

variable {mem mem₁ : ℕ → ℕ → ℕ} {r n v : ℕ} {l : List ℕ}

theorem label {s : Vm} {lab : ℕ → Option (List ℕ)} (hw : s.Labels lab) (hr : lab r = some [])
    (h : OwnTable s.mem r l n) : lab n = some l := by
  induction h with
  | root => exact hr
  | child _ hl _ hc ih => exact hw.tree _ _ _ _ ih (by omega) hc

theorem eq_root (h : OwnTable mem r l n) (hl : l = []) : n = r := by
  cases h with
  | root => rfl
  | child => simp at hl

theorem congr (hmem : ∀ l n, OwnTable mem r l n → mem₁ n = mem n) (h : OwnTable mem₁ r l n) :
    OwnTable mem r l n := by
  induction h with
  | root => exact .root
  | child _ hl hi hc ih => exact .child ih hl hi (by rwa [← hmem _ _ ih])

/-- A walk outside the kernel's half looks at the process's own tables only. -/
theorem walk (hmem : ∀ l n, OwnTable mem r l n → mem₁ n = mem n) (hv : pml4Off v ≠ 511) :
    walk mem₁ r v = Bgox.walk mem r v := by
  have hrow : ∀ {l n}, OwnTable mem r l n → ∀ i, mem₁ n i = mem n i :=
    fun h i => congrFun (hmem _ _ h) i
  refine Radix.trail_cons_congr (hrow .root _) fun a ha => ?_
  have ha' := child .root (by simp) (fun _ => hv) ha
  refine Radix.trail_cons_congr (hrow ha' _) fun b hb => ?_
  have hb' := child ha' (by simp) (by simp) hb
  refine Radix.trail_cons_congr (hrow hb' _) fun c hc => ?_
  exact Radix.trail_cons_congr (hrow (child hb' (by simp) (by simp) hc) _) fun _ _ => rfl

end OwnTable

namespace Vm

variable {s s₁ : Vm} {lab : ℕ → Option (List ℕ)} {old pool : List ℕ} {mem₀ : ℕ → ℕ → ℕ}
  {t x n : ℕ} {l : List ℕ}

theorem Private.ownTable (h : Private old mem₀ s t lab) (hn : OwnTable s.mem t l n) : n ∉ old := by
  induction hn with
  | root => exact h.new
  | @child l n i c hn hl hi hc ih =>
    have hlab := hn.label h.wf h.root
    refine h.below n l i c hlab ih hl (fun hnt => hi ?_) hc
    rw [hnt, h.root] at hlab
    exact (Option.some.inj hlab).symm

/-- All tables but those of one process. -/
theorem exists_private (hw : s.Labels lab) (ht : lab t = some []) :
    ∃ old, (∀ n, n ∈ old ↔ n ∈ s.tables ∧ ∀ l, ¬ OwnTable s.mem t l n) ∧
      Private old s.mem s t lab := by
  classical
  have hmem : ∀ n, n ∈ s.tables.filter (fun n => ∀ l, ¬ OwnTable s.mem t l n) ↔
      n ∈ s.tables ∧ ∀ l, ¬ OwnTable s.mem t l n := fun n => by
    rw [List.mem_filter, decide_eq_true_iff]
  refine ⟨_, hmem, hw, ht, fun hold => ((hmem t).1 hold).2 [] .root,
    fun n hn => ⟨((hmem n).1 hn).1, rfl⟩, fun n l i c hn hold hl hi hc hcold => ?_⟩
  have hown : ∃ l, OwnTable s.mem t l n := by
    by_contra hnone
    exact hold ((hmem n).2 ⟨(hw.tables n).2 ⟨l, hn⟩, fun l hl => hnone ⟨l, hl⟩⟩)
  obtain ⟨l', hown⟩ := hown
  obtain rfl : l' = l := Option.some.inj ((hown.label hw ht).symm.trans hn)
  exact ((hmem c).1 hcold).2 _ (.child hown hl (fun hl => hi (hown.eq_root hl)) hc)

/-! ## Stores of the loader -/

theorem kmalloc_below {size p : ℕ} (h : s.kmalloc size = .ok (s₁, p)) (hx : x < p) :
    s₁.mem x = s.mem x := by
  obtain ⟨rest, -, -, -, rfl⟩ := kmalloc_ok h
  exact funext fun i => if_neg fun hp => absurd hp.1 (Nat.not_le.2 hx)

/-- A store through a PML4 to other pages. -/
theorem Space.store_kept {bs : List ℕ} {va : ℕ} (h : s.Space t []) (hx : s.Taken x)
    (hown : ∀ v, pml4Off v ≠ 511 → translate s.mem t v ≠ some x)
    (huser : ∀ i < bs.length, pml4Off (va + i) ≠ 511) (hok : Vm.store t bs s va = .ok s₁) :
    s₁.mem x = s.mem x := by
  obtain ⟨-, -, -, hmem, -⟩ := (h.addNode hx hown).store huser hok
  exact hmem x (by simp)

variable {mm mm₁ : Mm} {vs : List Vma} {f : Elf} {ph : Phdr} {phs : List Phdr}

theorem Space.forget {nodes : List ℕ} (h : s.Space t nodes) : s.Space t [] :=
  ⟨h.clean, h.fresh, h.tree, fun v page hv hp => ⟨(h.frame v page hv hp).1, by simp⟩, h.inj,
    by simp⟩

/-- A store to other pages than these. -/
theorem Loading.store_kept {bs : List ℕ} {va : ℕ} (h : Loading old pool s t mm vs) (hold : x ∉ old)
    (hpool : x ∉ pool) (huser : ∀ i < bs.length, pml4Off (va + i) ≠ 511)
    (hok : Vm.store t bs s va = .ok s₁) : s₁.mem x = s.mem x :=
  h.space.forget.store_kept
    ⟨fun hx => (h.tables x hx).elim hold hpool, fun hx => hpool (h.supply.subset hx)⟩
    (fun v hv hp => hpool (h.frames v x hv hp)) huser hok

theorem Loading.fill_kept (h : Loading old pool s t mm vs) (hout : ph.Outside) (hold : x ∉ old)
    (hpool : x ∉ pool) (hok : s.fillSegment f t ph = .ok s₁) : s₁.mem x = s.mem x := by
  obtain ⟨sa, sb, ha, hb, hok⟩ := fillSegment_ok.1 hok
  obtain ⟨hla, hregion⟩ := h.region ha
  have hmap : sa.mem x = s.mem x := (hregion.keeps.1 x
    ⟨fun hx => (h.tables x hx).elim hold hpool, fun hx => hpool (h.supply.subset hx)⟩).2
  have hfile : ∀ i < (f.bytes ph.pOffset (ph.pFilesz % 2 ^ 32)).length,
      pml4Off (ph.pVaddr + i) ≠ 511 := fun i hi => by
    rw [length_bytes] at hi
    exact hout i (Or.inl (Nat.lt_of_lt_of_le hi (Nat.mod_le _ _)))
  have hstore := hla.store_kept hold hpool hfile hb
  have hzero := (hla.store hfile hb).1.store_kept hold hpool (fun i hi => ?_) hok
  · rw [hzero, hstore, hmap]
  · rw [List.length_replicate] at hi
    have hzeros := ph.zeros_le
    have hbyte := hout (ph.pFilesz + i) (Or.inr (by omega))
    rw [pml4Off, off_eq] at hbyte ⊢
    omega

/-- The VMA goes to a page from `kmalloc`, or to one behind it. -/
theorem Loading.node_kept {node : ℕ} (h : Loading old pool s t mm vs)
    (hlow : ∀ y ∈ pool, y + vs.length ≤ 2 ^ 19) (hpool : ∀ y ∈ pool, x < y)
    (hok : s.vmaMalloc mm = .ok (s₁, mm₁, node)) (v : Vma) :
    (s₁.setVma node v).mem x = s.mem x := by
  rcases hmm : mm.mmap with _ | first
  · simp only [vmaMalloc, hmm] at hok
    obtain ⟨⟨s', p⟩, hk, hok⟩ := bind_eq_ok.1 hok
    obtain ⟨rfl, hpair⟩ := Prod.mk.inj (Except.ok.inj hok)
    obtain ⟨-, rfl⟩ := Prod.mk.inj hpair
    have hp : x < p := hpool p (h.supply.subset (by simp [kmalloc_supply hk]))
    rw [setVma_mem (Nat.ne_of_lt hp), kmalloc_below hk hp]
  · obtain ⟨hne, hfirst, hchain⟩ := h.list first hmm
    have hpos : 0 < vs.length := List.length_pos_iff.2 hne
    have hx := hpool first hfirst
    have hlast : lastVma (mm.count + 1) s first = .ok (first + vs.length - 1) :=
      hchain.lastVma hne (by rw [h.count]; omega) (hlow first hfirst)
    rw [vmaMalloc_last hmm hlast] at hok
    obtain ⟨rfl, hpair⟩ := Prod.mk.inj (Except.ok.inj hok)
    obtain ⟨-, rfl⟩ := Prod.mk.inj hpair
    rw [setVma_mem (by omega)]
    exact funext fun i => Radix.set_of_ne _ (Or.inl (by omega))

theorem vmaMalloc_tables {node : ℕ} (h : s.vmaMalloc mm = .ok (s₁, mm₁, node)) :
    s₁.tables = s.tables := by
  unfold vmaMalloc at h
  split at h
  · obtain ⟨last, -, h⟩ := bind_eq_ok.1 h
    obtain ⟨rfl, -⟩ := Prod.mk.inj (Except.ok.inj h)
    rfl
  · obtain ⟨⟨s', p⟩, hk, h⟩ := bind_eq_ok.1 h
    obtain ⟨rfl, -⟩ := Prod.mk.inj (Except.ok.inj h)
    exact (kmalloc_clobbered hk).2

/-- New tables are in the pool, and what is below it is as it was, but for the old tables. -/
structure Leaves (old pool : List ℕ) (s s₁ : Vm) : Prop where
  tables : ∀ y ∈ s₁.tables, y ∈ old ∨ y ∈ pool
  mem : ∀ x, x ∉ old → (∀ y ∈ pool, x < y) → s₁.mem x = s.mem x

theorem Loading.segment_leaves (h : Loading old pool s t mm vs) (hload : ph.pType = 1)
    (hout : ph.Outside) (hlow : ∀ y ∈ pool, y + vs.length ≤ 2 ^ 19)
    (hok : s.loadSegment f t mm ph = .ok (s₁, mm₁)) : Leaves old pool s s₁ := by
  obtain ⟨sa, sb, node, ha, hb, rfl⟩ := loadSegment_ok hload hok
  obtain ⟨hfill, -, -⟩ := h.fill hout ha
  refine ⟨fun y hy => hfill.tables y (vmaMalloc_tables hb ▸ hy), fun x hold hpool => ?_⟩
  rw [hfill.node_kept hlow hpool hb,
    h.fill_kept hout hold (fun hx => Nat.lt_irrefl x (hpool x hx)) ha]

theorem Loading.run_leaves (h : Loading old pool s t ⟨0, none⟩ [])
    (hphs : ∀ ph ∈ phs, ph.pType = 1 ∧ ph.Outside) (hlow : ∀ y ∈ pool, y + 2 ≤ 2 ^ 19)
    (htwo : phs.length ≤ 2) (hok : loadSegmentsMm f t phs s ⟨0, none⟩ = .ok (s₁, mm₁)) :
    Leaves old pool s s₁ := by
  have hlow' : ∀ n ≤ 2, ∀ y ∈ pool, y + n ≤ 2 ^ 19 := fun n hn y hy =>
    Nat.le_trans (Nat.add_le_add_left hn y) (hlow y hy)
  rcases phs with _ | ⟨a, phs⟩
  · obtain ⟨rfl, -⟩ := Prod.mk.inj (Except.ok.inj hok)
    exact ⟨h.tables, fun _ _ _ => rfl⟩
  obtain ⟨s', mm', hs', hok⟩ := loadSegmentsMm_cons_ok.1 hok
  obtain ⟨hload, hout⟩ := hphs a List.mem_cons_self
  have hfirst := h.segment_leaves hload hout (hlow' 0 (by decide)) hs'
  rcases phs with _ | ⟨b, phs⟩
  · obtain ⟨rfl, -⟩ := Prod.mk.inj (Except.ok.inj hok)
    exact hfirst
  obtain rfl : phs = [] := by
    simp only [List.length_cons] at htwo
    exact List.length_eq_zero_iff.1 (by omega)
  obtain ⟨s'', mm'', hs'', hok⟩ := loadSegmentsMm_cons_ok.1 hok
  obtain ⟨rfl, -⟩ := Prod.mk.inj (Except.ok.inj hok)
  obtain ⟨h', -, -⟩ := h.firstSegment rfl hload hout
    (fun y hy => Nat.lt_of_succ_le (hlow' 1 (by decide) y hy)) hs'
  obtain ⟨hload, hout⟩ := hphs b (by simp)
  have hsecond := h'.segment_leaves hload hout (hlow' 1 (by decide)) hs''
  exact ⟨hsecond.tables, fun x hold hpool =>
    (hsecond.mem x hold hpool).trans (hfirst.mem x hold hpool)⟩

end Vm

namespace System

variable {s s' : System} {lab : ℕ → Option (List ℕ)} {t u x : ℕ} {vm : Vm} {f : Vm.Elf}
  {pages : List ℕ}

/-- The PML4 and the stack of a new process. -/
theorem Inv.newProcess_kept (h : s.Inv lab) (hc : s.vm.clobbered = []) (hnodup : s.vm.supply.Nodup)
    (hnew : ∀ y ∈ s.vm.supply, y ∉ s.vm.tables) (hlow : ∀ y ∈ s.vm.supply, y < 2 ^ 27)
    (hx : x ∉ s.vm.tables) (habove : ∀ y ∈ s.vm.supply, x < y)
    (hok : s.newProcess = .ok (vm, t, u)) : vm.mem x = s.vm.mem x := by
  obtain ⟨vma, vmb, vmc, vmd, pcb, ret, ha, hb, hk, hm, hzero, rfl⟩ := newProcess_ok hok
  obtain ⟨htab, hsup, hspace, hnone⟩ := h.newRoot hc hnodup hnew ha hb
  have hxt : x < t := habove t (by simp [hsup])
  have hblock : vmb.mem x = s.vm.mem x :=
    (Vm.kmalloc_below hb (habove pcb (by simp [hsup]))).trans (Vm.kmalloc_below ha hxt)
  have hlater : ∀ y ∈ vmb.supply, y ∈ s.vm.supply := fun y hy => by simp [hsup, hy]
  -- the page is as good as one of a VMA
  have hmid := hspace.addNode (x := x)
    ⟨List.not_mem_cons_of_ne_of_not_mem (Nat.ne_of_lt hxt) (by rw [htab]; exact hx),
      fun hy => Nat.lt_irrefl x (habove x (hlater x hy))⟩
    fun v hv hp => by rw [hnone v hv] at hp; cases hp
  obtain ⟨hspace', hmap⟩ := hmid.mapPage hk hm
  obtain ⟨-, -, -, hmem, -⟩ := hspace'.store (fun i hi => by
    rw [List.length_replicate] at hi
    exact pml4Off_stackAt (hlow ret (hlater ret hmap.mem_supply)) hi) hzero
  rw [hmem x (by simp), (hmap.keeps.1 x (hmid.nodes x (by simp))).2, ← hblock]
  exact Function.update_of_ne (Nat.ne_of_lt hxt) _ _

/-- A new address space with tables of its own; below its pages nothing is stored. -/
theorem Inv.elfRunBin_private (hinv : s.Inv lab) (hc : s.vm.clobbered = [])
    (hstep : Step s (.elfRunBin f, pages) s') (hpages : Supplies s pages f.loads.length)
    (hout : ∀ ph ∈ f.loads, ph.Outside ∧ ph.PagesOutside) (htwo : f.loads.length ≤ 2)
    (hlow : ∀ y ∈ pages, y + 2 ≤ 2 ^ 19)
    (hnodes : Vm.NodesApart s.vm.tables pages f.loads.length) :
    ∃ p lab₁, s'.ker = s.ker ∧ s'.procs = s.procs ++ [p] ∧ p.pml4 ∈ pages ∧
      Vm.Settled pages s'.vm p.pml4 ∧
      Vm.Private s.vm.tables s.vm.mem s'.vm p.pml4 lab₁ ∧
      (∀ y ∈ s'.vm.tables, y ∈ s.vm.tables ∨ y ∈ pages) ∧
      (∀ r v, lab r = some [] → walk s'.vm.mem r v = walk s.vm.mem r v) ∧
      ∀ x, x ∉ s.vm.tables → (∀ y ∈ pages, x < y) → s'.vm.mem x = s.vm.mem x := by
  obtain ⟨p, hprocs, hsettled, hwalk⟩ := hinv.elfRunBin_settled hc hstep hpages hout hnodes
  have hinv' := hinv.supply pages
  obtain ⟨-, hlt, hok⟩ := hstep
  obtain ⟨vm, t, u, vm', hnew, hload, rfl⟩ := elfRunBin_ok.1 hok
  obtain rfl : ⟨t, u⟩ = p := List.singleton_inj.1 (List.append_cancel_left hprocs)
  have hloading := hinv'.newProcess hc hpages.nodup hpages.new hlt hnew
  obtain ⟨lab₁, hpriv⟩ := hinv'.private_newProcess hlt hnew hloading.space.clean
  have hconfined := Vm.loadSegments_confined (fun ph hph hload =>
    (hout ph (List.mem_filter.2 ⟨hph, decide_eq_true hload⟩)).2) hload
  obtain ⟨lab₂, hpriv'⟩ := (hconfined hsettled.clean).2 _ _ _ hpriv
  obtain ⟨mm, hrun⟩ := Vm.exists_mm_of_loadSegments hload
  rw [← Vm.loadSegmentsMm_filter] at hrun
  have hleaves := hloading.run_leaves (fun ph hph => ⟨Vm.mem_loads hph, (hout ph hph).1⟩) hlow
    htwo hrun
  refine ⟨⟨t, u⟩, lab₂, rfl, rfl, ?_, hsettled, hpriv', hleaves.tables, hwalk,
    fun x hx habove => ?_⟩
  · have ht := (hpriv'.wf.tables t).2 ⟨[], hpriv'.root⟩
    exact (hleaves.tables t ht).resolve_left hpriv'.new
  · rw [hleaves.mem x hx habove,
      hinv'.newProcess_kept hc hpages.nodup hpages.new hlt hx habove hnew]

end System

end Bgox
