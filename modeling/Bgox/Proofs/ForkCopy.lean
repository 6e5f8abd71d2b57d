import Mathlib.Data.List.MinMax
import Bgox.Proofs.LoadProgram

/-!
# What a child has of its parent's memory

`sys_fork` does not copy from the parent.  For every byte of a VMA it stores the eight bytes that
are in the program file there: what the parent has written and what is beyond the file is lost, and
the last word goes seven bytes too far.  So a child has what its parent had, and no more is stored,
only if there is nothing to copy (`fork_copied`).
-/

namespace Bgox

open Run (bind_eq_ok)

/-! ## The addresses that are stored to -/

namespace Vm

variable {pml4 : ℕ} {file : ℕ → ℕ}

theorem mem_copyWordsTrace {a : ℕ} : ∀ {n : ℕ} {s s₁ : Vm} {dst src : ℕ},
    copyWords file pml4 n s dst src = .ok s₁ →
    (a ∈ (copyWordsTrace file pml4 n s dst src).log ↔
      ∃ j < n, ∃ k < 8, a = (dst + j + k) % 2 ^ 64)
  | 0, s, s₁, _, _, _ => by simp [copyWordsTrace]
  | n + 1, s, s₁, dst, src, h => by
    rw [copyWords_succ] at h
    obtain ⟨s', hs, h⟩ := bind_eq_ok.1 h
    rw [copyWordsTrace, Traced.log_bind hs, List.mem_append, mem_copyWordsTrace h,
      log_storeTrace hs]
    simp only [List.length_map, List.length_range, List.mem_map, List.mem_range]
    constructor
    · rintro (⟨k, hk, rfl⟩ | ⟨j, hj, k, hk, rfl⟩)
      · exact ⟨0, by omega, k, hk, rfl⟩
      · exact ⟨j + 1, by omega, k, hk, by omega⟩
    · rintro ⟨j, hj, k, hk, rfl⟩
      cases j with
      | zero => exact Or.inl ⟨k, hk, rfl⟩
      | succ j => exact Or.inr ⟨j, by omega, k, hk, by omega⟩

/-- Where the words for a VMA go. -/
def Vma.Stored (v : Vma) (a : ℕ) : Prop :=
  ∃ j < v.vmMmsz, ∃ k < 8, a = (v.vmStart + j + k) % 2 ^ 64

theorem mem_copyVmasTrace {a : ℕ} : ∀ {vs : List Vma} {s s₁ : Vm} {mm : Mm},
    copyVmas file pml4 vs s mm = .ok s₁ →
    (a ∈ (copyVmasTrace file pml4 vs s mm).log ↔ ∃ v ∈ vs, v.Stored a)
  | [], s, s₁, _, _ => by simp [copyVmasTrace]
  | v :: vs, s, s₁, mm, h => by
    rw [copyVmas_cons] at h
    obtain ⟨⟨sa, mma, node⟩, ha, h⟩ := bind_eq_ok.1 h
    obtain ⟨sb, hb, h⟩ := bind_eq_ok.1 h
    obtain ⟨sc, hc, h⟩ := bind_eq_ok.1 h
    rw [copyVmasTrace, Traced.log_lift_bind ha]
    dsimp only
    rw [Traced.log_lift_bind hb, Traced.log_bind hc, List.mem_append, mem_copyWordsTrace hc,
      mem_copyVmasTrace h, List.exists_mem_cons_iff, Vma.Stored]

/-- The byte after a VMA is stored to. -/
theorem Vma.stored_end {v : Vma} (h : 0 < v.vmMmsz) (hend : v.vmStart + v.vmMmsz < 2 ^ 64) :
    v.Stored (v.vmStart + v.vmMmsz) :=
  ⟨v.vmMmsz - 1, by omega, 1, by decide, by omega⟩

end Vm

namespace System

variable {s s' : System} {parent : Proc} {vmas : List Vm.Vma} {file : ℕ → ℕ}

theorem length_loadPage {vm : Vm} {pml4 va : ℕ} {ws : List ℕ} (h : vm.loadPage pml4 va = .ok ws) :
    ws.length = 512 := by
  unfold Vm.loadPage at h
  split at h
  · cases h
  · rw [← Except.ok.inj h, List.length_map, List.length_range]

/-- What `sys_fork` stores to: the stack of the child, and the words for each VMA. -/
theorem sysFork_log (h : s.sysFork parent vmas file = .ok s') :
    ∃ t ret log, s.sysForkLog parent vmas file = .ok (s', log) ∧ ret ∈ s.vm.supply ∧
      s'.procs = s.procs ++ [⟨t, stackAt ret⟩] ∧
      ∀ a, a ∈ log ↔ (stackAt ret ≤ a ∧ a < stackAt ret + 4096) ∨ ∃ v ∈ vmas, v.Stored a := by
  obtain ⟨vm, vm', t, u, stack, hnew, hcopy, rfl⟩ := sysFork_ok h
  obtain ⟨vma, vmb, temp, hblocks, hload, hstack, hstore⟩ := newChild_ok hnew
  obtain ⟨vmc, ret, hk, rfl, -⟩ := Vm.kmallocStack_ok hstack
  have hlog : (s.newChildTrace parent).log
      = (List.range 4096).map fun i => (stackAt ret + i) % 2 ^ 64 := by
    rw [newChildTrace, Traced.log_lift_bind hblocks, Traced.log_lift_bind hload,
      Traced.log_lift_bind hstack, Traced.log_bind hstore, Vm.log_storeTrace hstore,
      length_flatMap_bytesOf, length_loadPage hload, Traced.log_pure, List.append_nil]
    rfl
  refine ⟨t, ret, (s.newChildTrace parent).log ++ (Vm.copyVmasTrace file t vmas vm ⟨0, none⟩).log,
    ?_, ?_, rfl, fun a => ?_⟩
  · have hlogged : (s.sysForkTrace parent vmas file).logged = .ok (_, _) :=
      Traced.logged_eq_ok.2 ⟨(result_sysForkTrace s parent vmas file).trans
        (bind_eq_ok.2 ⟨_, hnew, bind_eq_ok.2 ⟨_, hcopy, rfl⟩⟩), rfl⟩
    rw [sysForkLog, hlogged, sysForkTrace, Traced.log_bind hnew]
    dsimp only
    rw [Traced.log_bind hcopy, Traced.log_pure, List.append_nil]
    rfl
  · obtain ⟨va, vb, vc, vd, pcb, node, kstack, ha, hb, hc, hd, he⟩ := forkBlocks_ok hblocks
    have hsup := Vm.kmalloc_supply hk
    simp only [Vm.addRoot] at hsup
    rw [Vm.kmalloc_supply ha, Vm.kmalloc_supply hb, Vm.kmalloc_supply hc, Vm.kmalloc_supply hd,
      Vm.kmalloc_supply he, hsup]
    simp
  · have hbound := (stackAt_aligned ret).2
    rw [List.mem_append, hlog, Vm.mem_copyVmasTrace hcopy, List.mem_map]
    simp only [List.mem_range]
    refine or_congr_left ⟨?_, ?_⟩
    · rintro ⟨i, hi, rfl⟩
      omega
    · rintro ⟨hle, hlt⟩
      exact ⟨a - stackAt ret, by omega, by omega⟩

/-! ## The memory of a child -/

/-- A child has what its parent had in its VMAs, and nothing else has been stored in its address
space but its stack. -/
structure Copied (s : System) (parent : Proc) (vmas : List Vm.Vma) (s' : System) (child : Proc)
    (log : List ℕ) : Prop where
  bytes : ∀ v ∈ vmas, ∀ i < v.vmMmsz, loadByte s'.vm.mem child.pml4 (v.vmStart + i)
    = loadByte s.vm.mem parent.pml4 (v.vmStart + i)
  stores : ∀ a ∈ log, (∃ v ∈ vmas, v.vmStart ≤ a ∧ a < v.vmStart + v.vmMmsz) ∨
    child.ustack ≤ a ∧ a < child.ustack + 4096

theorem bumpPtr_le_stackAt {ret : ℕ} (h : ret < 2 ^ 27) : Vm.bumpPtr ≤ stackAt ret := by
  unfold stackAt Vm.bumpPtr
  omega

/-- The VMA that ends last. -/
theorem exists_last_vma {v : Vm.Vma} (hv : v ∈ vmas) (hpos : 0 < v.vmMmsz) :
    ∃ w ∈ vmas, 0 < w.vmMmsz ∧ ∀ x ∈ vmas, 0 < x.vmMmsz →
      x.vmStart + x.vmMmsz ≤ w.vmStart + w.vmMmsz := by
  have hmem : ∀ x, x ∈ vmas.filter (fun x => decide (0 < x.vmMmsz)) ↔ x ∈ vmas ∧ 0 < x.vmMmsz :=
    fun x => by rw [List.mem_filter, decide_eq_true_eq]
  rcases hw : (vmas.filter fun x => decide (0 < x.vmMmsz)).argmax
    (fun x => x.vmStart + x.vmMmsz) with _ | w
  · rw [List.argmax_eq_none] at hw
    exact absurd hw (List.ne_nil_of_mem ((hmem v).2 ⟨hv, hpos⟩))
  · obtain ⟨hw', hpos'⟩ := (hmem w).1 (List.argmax_mem hw)
    exact ⟨w, hw', hpos', fun x hx hx' => List.le_of_mem_argmax ((hmem x).2 ⟨hx, hx'⟩) hw⟩

/-- A child has its parent's memory if there is none to copy.  If there is, it has it only with a
VMA that ends where the user's stacks are or just below. -/
theorem fork_copied {pages : List ℕ} (hstep : Step s (.sysFork parent vmas file, pages) s') :
    ∃ child log, s'.procs = s.procs ++ [child] ∧
      sysForkLog { s with vm := { s.vm with supply := pages } } parent vmas file
        = .ok (s', log) ∧
      ((∀ v ∈ vmas, v.vmMmsz = 0) → Copied s parent vmas s' child log) ∧
      (Copied s parent vmas s' child log → ∀ v ∈ vmas, 0 < v.vmMmsz →
        ∃ w ∈ vmas, 0 < w.vmMmsz ∧ Vm.bumpPtr ≤ w.vmStart + w.vmMmsz) := by
  obtain ⟨-, hlow, hfork⟩ := hstep
  obtain ⟨t, ret, log, hlog, hret, hprocs, hmem⟩ := sysFork_log hfork
  refine ⟨⟨t, stackAt ret⟩, log, hprocs, hlog, fun h => ⟨fun v hv i hi => ?_, fun a ha => ?_⟩,
    fun h v hv hpos => ?_⟩
  · rw [h v hv] at hi
    exact absurd hi (Nat.not_lt_zero i)
  · rcases (hmem a).1 ha with ha | ⟨v, hv, j, hj, -⟩
    · exact Or.inr ha
    · rw [h v hv] at hj
      exact absurd hj (Nat.not_lt_zero j)
  · -- the byte after the last VMA is in no other one
    obtain ⟨w, hw, hpos, hlast⟩ := exists_last_vma hv hpos
    refine ⟨w, hw, hpos, Nat.le_of_not_lt fun hlt => ?_⟩
    have htop : Vm.bumpPtr < 2 ^ 64 := by decide
    have hend := (hmem _).2 (Or.inr ⟨w, hw, Vm.Vma.stored_end hpos (hlt.trans htop)⟩)
    rcases h.stores _ hend with ⟨x, hx, hle, hlt'⟩ | ⟨hle, -⟩
    · have hx' := hlast x hx (by omega)
      omega
    · exact absurd (Nat.le_trans (bumpPtr_le_stackAt (hlow ret hret)) hle) (Nat.not_le.2 hlt)

/-! ## A file with one byte, and one more that is zero -/

def zeroByte : Vm.Elf := ⟨0, fun _ => 7, [⟨1, 6, 0x1000, 0x400007, 1, 2⟩]⟩

def zeroByteVma : Vm.Vma := zeroByte.vma ⟨1, 6, 0x1000, 0x400007, 1, 2⟩

/-- The loop over its VMA, with a page for the node, one for the bytes and three for tables. -/
theorem exists_copyVmas {vm : Vm} {lab : ℕ → Option (List ℕ)} {t : ℕ} (hf : vm.Fresh)
    (hc : vm.clobbered = []) (hw : vm.Labels lab) (hroot : lab t = some [])
    (hlen : 5 ≤ vm.supply.length) :
    ∃ vm₁, vm.copyVmas zeroByte.image t [zeroByteVma] ⟨0, none⟩ = .ok vm₁ ∧
      loadByte vm₁.mem t 0x400008 = some 7 := by
  obtain ⟨node, page, rest, hsup⟩ : ∃ node page rest, vm.supply = node :: page :: rest := by
    rcases hsup : vm.supply with _ | ⟨node, _ | ⟨page, rest⟩⟩
    · simp [hsup] at hlen
    · simp [hsup] at hlen
    · exact ⟨node, page, rest, rfl⟩
  obtain ⟨hnodup, hnew⟩ := hf
  rw [hsup] at hnodup hnew hlen
  simp only [List.length_cons] at hlen
  have hnode := hnew node List.mem_cons_self
  obtain ⟨mem, hk⟩ := Vm.exists_kmalloc_page 64 hsup rfl hnode
  -- the node
  have hdata := (Vm.kmalloc_data hk).trans (Vm.setVma_data node zeroByteVma)
  have hset : ∀ s : Vm, node ∉ s.tables → (s.setVma node zeroByteVma).supply = s.supply ∧
      (s.setVma node zeroByteVma).tables = s.tables ∧
      (s.setVma node zeroByteVma).clobbered = s.clobbered := fun s hs => by
    simp [Vm.setVma, Vm.poke, hs]
  obtain ⟨hsupa, htaba, hclob⟩ := hset ⟨mem, page :: rest, vm.tables, vm.clobbered⟩ hnode
  have hca := hclob.trans hc
  have hfa : Vm.Fresh (Vm.setVma ⟨mem, page :: rest, vm.tables, vm.clobbered⟩ node zeroByteVma) :=
    ⟨by rw [hsupa]; exact (List.nodup_cons.1 hnodup).2, fun x hx => by
      rw [hsupa] at hx
      rw [htaba]
      exact hnew x (List.mem_cons_of_mem _ hx)⟩
  obtain ⟨vmb, vmc, hkb, hmc, -, -, hstable, -⟩ :=
    hfa.exists_mapPage hca (hdata.grows hca hw).wf hroot hsupa (by omega) 0x400000
  -- the two words
  obtain ⟨vmd, hd, hfilld⟩ := Vm.exists_store (by decide) (by decide) (List.replicate 8 7) 7 hstable
    (by decide)
  obtain ⟨vme, he, hfille⟩ := Vm.exists_store (by decide) (by decide) (List.replicate 8 7) 8
    (hfilld.stable hstable) (by decide)
  refine ⟨vme, ?_, ?_⟩
  · rw [Vm.copyVmas_cons]
    refine bind_eq_ok.2 ⟨_, Vm.vmaMalloc_first rfl hk, bind_eq_ok.2 ⟨vmc, ?_,
      bind_eq_ok.2 ⟨vme, ?_, rfl⟩⟩⟩
    · exact Vm.mapPages_succ_ok.2 ⟨_, _, vmc, hkb, hmc, rfl⟩
    · refine (Vm.copyWords_succ _ _ _ _ _ _).trans (bind_eq_ok.2 ⟨vmd, hd, ?_⟩)
      exact (Vm.copyWords_succ _ _ _ _ _ _).trans (bind_eq_ok.2 ⟨vme, he, rfl⟩)
  · have hbyte := hfille.stored 7 (by decide) 1 (by decide) (by decide)
    have htr : translate vme.mem t 0x400008 = some page := by
      rw [show (0x400008 : ℕ) = 0x400000 + 8 from rfl, translate_page (by decide) (by decide)]
      exact hfille.stable (hfilld.stable hstable) _ fun _ _ => rfl
    rw [loadByte, htr]
    simp [byteAt, hbyte]

/-- The pages that are left for a child. -/
def childPages : List ℕ := 602 :: 611 :: 612 :: 613 :: 614 :: 615 :: List.range' 616 10

/-- The stack is in none of its pages. -/
theorem load_zeroByte_stack (img : ℕ → Option ℕ) :
    zeroByte.phdrs.foldl (Vm.Phdr.load zeroByte) img (stackAt 588 % 2 ^ 48)
      = img (stackAt 588 % 2 ^ 48) := by
  rw [zeroByte, List.foldl_cons, List.foldl_nil, Vm.Phdr.load,
    Image.put_of_notMem (Or.inr (by decide)), Image.put_of_notMem (Or.inr (by decide)),
    Image.clear_of_notMem (by decide)]

theorem exists_zeroByte :
    ∃ s₀ s mm, start (fun _ _ => 0) (List.range' 560 10) 640 = .ok s₀ ∧
      elfRunBinMm { s₀ with vm := { s₀.vm with supply := smallPages } } zeroByte = .ok (s, mm) ∧
      (∃ lab, s.Inv lab) ∧ ⟨578, stackAt 588⟩ ∈ s.procs ∧
      mm.vmas s.vm.mem = [zeroByteVma] ∧ s.vm.clobbered = [] ∧
      (∀ x ∈ s.vm.tables, x < 602) ∧ loadByte s.vm.mem 578 0x400008 = some 0 ∧
      ∃ page, translate s.vm.mem 578 (stackAt 588) = some page := by
  obtain ⟨s₀, h₀, -, hsmall⟩ := start_small
  obtain ⟨lab, hinv⟩ := start_inv h₀ hsmall.clean
  obtain ⟨vm, -, hnew, -, hloading, hstable, hlen⟩ :=
    hsmall.supplies.exists_newProcess hinv hsmall.clean (by decide)
  simp only [List.length_range'] at hlen
  -- the segment
  have hbelow : BelowStack ⟨1, 6, 0x1000, 0x400007, 1, 2⟩ := ⟨by decide, Or.inl (by decide)⟩
  have hfits := hbelow.fits (by decide)
  have hlow' : ∀ x ∈ smallPages, x + (0 + 1) ≤ 2 ^ 19 := by decide
  have hgap : Vm.Gap s₀.vm.tables smallPages (0 + 1) := fun x _ k hk hk' => by omega
  have hphs : ∀ ph ∈ zeroByte.phdrs, ph.pType = 1 ∧ ph.Outside ∧ ph.Fits := fun ph hph => by
    obtain rfl := List.mem_singleton.1 hph
    exact ⟨rfl, hbelow.outside, hfits⟩
  obtain ⟨vm₁, mm, hrun⟩ := hloading.exists_segments (f := zeroByte) hphs hlow' hgap
    (Nat.le_trans (by decide : Vm.need zeroByte.phdrs ≤ 10) (by omega))
  obtain ⟨hloaded, hshows⟩ := hloading.segments
    (fun ph hph => ⟨(hphs ph hph).1, (hphs ph hph).2.1⟩) hlow' hgap hrun
  have hseen := hshows _ (fun ph hph => (hphs ph hph).2.2) (Vm.shows_self vm.mem 578)
  have hok : elfRunBinMm { s₀ with vm := { s₀.vm with supply := smallPages } } zeroByte
      = .ok ({ s₀ with vm := vm₁, procs := s₀.procs ++ [⟨578, stackAt 588⟩] }, mm) := by
    rw [elfRunBinMm_eq]
    exact bind_eq_ok.2 ⟨_, hnew, bind_eq_ok.2 ⟨_, hrun, rfl⟩⟩
  have hstep : Step s₀ (.elfRunBin zeroByte, smallPages) _ :=
    ⟨by simp [Op.on], hsmall.supplies.lt, elfRunBin_of_mm hok⟩
  refine ⟨s₀, _, mm, h₀, hok, hinv.step hstep hloaded.space.clean, by simp,
    hloaded.vmas hlow', hloaded.space.clean, fun x hx => ?_, ?_, ?_⟩
  · rcases hloaded.tables x hx with hx | hx
    · exact Nat.lt_of_lt_of_le (hsmall.tables x hx).2 (by decide)
    · exact (by decide : ∀ x ∈ smallPages, x < 602) x hx
  · rw [hseen 0x400008 (by decide)]
    exact hfits.load_of_mem zeroByte _ (i := 1) (by decide)
  · have huser : pml4Off (stackAt 588) ≠ 511 := by decide
    have hstack : loadByte vm.mem 578 (stackAt 588) = some (byteAt vm.mem 588 0) := by
      rw [loadByte, hstable vm.mem fun _ _ => rfl]
      rfl
    have hsame : loadByte vm₁.mem 578 (stackAt 588) = loadByte vm.mem 578 (stackAt 588) := by
      rw [hseen _ huser, load_zeroByte_stack, ← Vm.shows_self vm.mem 578 _ huser]
    exact Vm.exists_translate (hsame.trans hstack)

/-- A process of this file forks, with VMAs for which there is memory. -/
theorem exists_fork_vmas {vmas : List Vm.Vma} {P : Vm → Prop}
    (hcopy : ∀ {vm : Vm} {lab : ℕ → Option (List ℕ)}, vm.Fresh → vm.clobbered = [] →
      vm.Labels lab → lab 612 = some [] → 5 ≤ vm.supply.length →
      ∃ vm₁, vm.copyVmas zeroByte.image 612 vmas ⟨0, none⟩ = .ok vm₁ ∧ P vm₁) :
    ∃ s₀ s s' mm, start (fun _ _ => 0) (List.range' 560 10) 640 = .ok s₀ ∧
      elfRunBinMm { s₀ with vm := { s₀.vm with supply := smallPages } } zeroByte = .ok (s, mm) ∧
      mm.vmas s.vm.mem = [zeroByteVma] ∧
      Step s (.sysFork ⟨578, stackAt 588⟩ vmas zeroByte.image, childPages) s' ∧
      s'.procs = s.procs ++ [⟨612, stackAt 615⟩] ∧
      loadByte s.vm.mem 578 0x400008 = some 0 ∧ P s'.vm := by
  obtain ⟨s₀, s, mm, h₀, hok, ⟨lab, hinv⟩, hproc, hvmas, hc, htab, hzero, page, hpage⟩ :=
    exists_zeroByte
  have hnew : ∀ x ∈ [611, 613, 614, 612, 615] ++ List.range' 616 10, x ∉ s.vm.tables :=
    fun x hx ht => absurd (htab x ht)
      ((by decide : ∀ x ∈ [611, 613, 614, 612, 615] ++ List.range' 616 10, ¬ x < 602) x hx)
  obtain ⟨vm, lab₁, words, hchild, h₁, htakes, -⟩ := (hinv.supply childPages).exists_newChild hc
    ⟨578, stackAt 588⟩ (hinv.procs _ hproc) hpage rfl (by decide) hnew
    (fun x hx => by have := htab x hx; omega) (by decide) (by decide)
  have hfresh : vm.Fresh := by
    refine htakes.fresh ⟨List.nodup_range', fun x hx => List.not_mem_cons_of_ne_of_not_mem ?_
      (hnew x (List.mem_append_right _ hx))⟩
    rintro rfl
    exact absurd hx (by decide : 612 ∉ List.range' 616 10)
  obtain ⟨vm₁, hcopied, hP⟩ := hcopy hfresh (htakes.clobbered.trans hc) h₁.wf
    (h₁.procs ⟨612, stackAt 615⟩ (by simp)) (by
      have hle := htakes.length_le
      simp only [List.length_range'] at hle
      omega)
  have hlow : ∀ x ∈ childPages, x < 2 ^ 27 := by decide
  exact ⟨s₀, s, _, mm, h₀, hok, hvmas, ⟨by simpa [Op.on] using hproc, hlow,
    (sysFork_eq _ _ _ _).trans (bind_eq_ok.2 ⟨_, hchild, bind_eq_ok.2 ⟨vm₁, hcopied, rfl⟩⟩)⟩, rfl,
    hzero, hP⟩

/-- The VMA of a segment without a byte. -/
def noBytesVma : Vm.Vma := zeroByte.vma ⟨1, 6, 0x1000, 0x400000, 0, 0⟩

/-- All there is to do for it is to make its node. -/
theorem copyVmas_noBytes {vm : Vm} {t : ℕ} (hf : vm.Fresh) (hlen : 0 < vm.supply.length) :
    ∃ vm₁, vm.copyVmas zeroByte.image t [noBytesVma] ⟨0, none⟩ = .ok vm₁ := by
  obtain ⟨node, rest, hsup⟩ := List.exists_cons_of_length_pos hlen
  obtain ⟨mem, hk⟩ := Vm.exists_kmalloc_page 64 hsup rfl
    (hf.2 node (hsup ▸ List.mem_cons_self))
  refine ⟨Vm.setVma ⟨mem, rest, vm.tables, vm.clobbered⟩ node noBytesVma, ?_⟩
  rw [Vm.copyVmas_cons]
  exact bind_eq_ok.2 ⟨_, Vm.vmaMalloc_first rfl hk, bind_eq_ok.2 ⟨_, rfl,
    bind_eq_ok.2 ⟨_, rfl, rfl⟩⟩⟩

/-- A process forks with a VMA that has no bytes, and with one that has two. -/
theorem fork_copied_bytes :
    (∃ s s' child log, Step s (.sysFork ⟨578, stackAt 588⟩ [noBytesVma] zeroByte.image,
        childPages) s' ∧
      s'.procs = s.procs ++ [child] ∧ Copied s ⟨578, stackAt 588⟩ [noBytesVma] s' child log) ∧
    ∃ s s' child log, Step s (.sysFork ⟨578, stackAt 588⟩ [zeroByteVma] zeroByte.image,
        childPages) s' ∧
      s'.procs = s.procs ++ [child] ∧ ¬ Copied s ⟨578, stackAt 588⟩ [zeroByteVma] s' child log := by
  constructor
  · obtain ⟨-, s, s', -, -, -, -, hstep, -⟩ := exists_fork_vmas (P := fun _ => True)
      fun hf _ _ _ hlen => by
        obtain ⟨vm₁, hcopy⟩ := copyVmas_noBytes hf (Nat.lt_of_lt_of_le (by decide) hlen)
        exact ⟨vm₁, hcopy, trivial⟩
    obtain ⟨child, log, hprocs, -, hcopied, -⟩ := fork_copied hstep
    exact ⟨s, s', child, log, hstep, hprocs, hcopied (by decide)⟩
  · obtain ⟨-, s, s', -, -, -, -, hstep, -⟩ := exists_fork_vmas (P := fun _ => True)
      fun hf hc hw hroot hlen => by
        obtain ⟨vm₁, hcopy, -⟩ := exists_copyVmas hf hc hw hroot hlen
        exact ⟨vm₁, hcopy, trivial⟩
    obtain ⟨child, log, hprocs, -, -, hnot⟩ := fork_copied hstep
    refine ⟨s, s', child, log, hstep, hprocs, fun hcopied => ?_⟩
    obtain ⟨w, hw, -, hend⟩ := hnot hcopied zeroByteVma List.mem_cons_self (by decide)
    obtain rfl := List.mem_singleton.1 hw
    exact absurd hend (by decide)

/-- The zero is a 7 in the child, since that is what the file has after its one byte. -/
theorem fork_reads_file :
    ∃ s₀ s s' mm, start (fun _ _ => 0) (List.range' 560 10) 640 = .ok s₀ ∧
      elfRunBinMm { s₀ with vm := { s₀.vm with supply := smallPages } } zeroByte = .ok (s, mm) ∧
      mm.vmas s.vm.mem = [zeroByteVma] ∧
      Step s (.sysFork ⟨578, stackAt 588⟩ [zeroByteVma] zeroByte.image, childPages) s' ∧
      s'.procs = s.procs ++ [⟨612, stackAt 615⟩] ∧
      loadByte s.vm.mem 578 0x400008 = some 0 ∧ loadByte s'.vm.mem 612 0x400008 = some 7 :=
  exists_fork_vmas exists_copyVmas

end System

end Bgox
