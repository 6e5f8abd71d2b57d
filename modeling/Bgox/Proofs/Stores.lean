import Bgox.AddressSpace
import Bgox.Proofs.Mapping

/-!
# What a call does to the page tables

Everything the calls of `Bgox.AddressSpace` do is one of two things: a store that leaves the tables
alone unless it hits one by accident (`Data`), or a mapping that makes them grow (`Extends`).  Both
are closed under sequencing, and so each function is one of them because its parts are.
-/

namespace Bgox

open Run (bind_eq_ok)

namespace Vm

variable {s s₁ s₂ : Vm} {lab : ℕ → Option (List ℕ)} {pml4 : ℕ}

/-- The labels of the tables, whatever is in their entries. -/
abbrev Labels (s : Vm) (lab : ℕ → Option (List ℕ)) : Prop := s.Wf (fun _ => True) lab

/-! ## Stores -/

/-- If no table has been hit, none has changed. -/
def Data (s s₁ : Vm) : Prop :=
  s₁.clobbered = [] → s.clobbered = [] ∧ s₁.tables = s.tables ∧ ∀ t ∈ s.tables, s₁.mem t = s.mem t

theorem Data.refl (s : Vm) : Data s s := fun h => ⟨h, rfl, fun _ _ => rfl⟩

theorem Data.trans (h : Data s s₁) (h' : Data s₁ s₂) : Data s s₂ := by
  intro hc
  obtain ⟨hc₁, htab', hmem'⟩ := h' hc
  obtain ⟨hc₀, htab, hmem⟩ := h hc₁
  exact ⟨hc₀, htab'.trans htab, fun t ht => (hmem' t (htab ▸ ht)).trans (hmem t ht)⟩

theorem kmalloc_mem {size p t : ℕ} (h : s.kmalloc size = .ok (s₁, p)) (ht : t ∈ s.tables) :
    s₁.mem t = s.mem t := by
  obtain ⟨rest, -, -, htab, rfl⟩ := kmalloc_ok h
  refine funext fun i => if_neg fun hp => htab t ht ⟨hp.1, ?_⟩
  exact Nat.lt_of_lt_of_le hp.2 (Nat.add_le_add_left (Nat.mod_le _ _) _)

theorem kmalloc_data {size p : ℕ} (h : s.kmalloc size = .ok (s₁, p)) : Data s s₁ := by
  obtain ⟨hclob, htab⟩ := kmalloc_clobbered h
  exact fun hc => ⟨hclob.symm.trans hc, htab, fun t ht => kmalloc_mem h ht⟩

theorem kmalloc_supply {size p : ℕ} (h : s.kmalloc size = .ok (s₁, p)) :
    s.supply = p :: s₁.supply := by
  obtain ⟨rest, hsup, -, -, rfl⟩ := kmalloc_ok h
  exact hsup

theorem mem_supply_of_kmalloc {size p q : ℕ} (h : s.kmalloc size = .ok (s₁, p))
    (hq : q ∈ s₁.supply) : q ∈ s.supply := by
  rw [kmalloc_supply h]
  exact List.mem_cons_of_mem _ hq

theorem kmalloc_notMem {size p : ℕ} (h : s.kmalloc size = .ok (s₁, p)) : p ∉ s.tables := by
  obtain ⟨rest, -, hpos, htab, -⟩ := kmalloc_ok h
  exact fun hp => htab p hp ⟨Nat.le_refl _, by omega⟩

/-- A page that is no table is written. -/
theorem row_data {t : ℕ} (ht : t ∉ s.tables) (row : ℕ → ℕ) :
    Data s { s with mem := Function.update s.mem t row } := by
  refine fun hc => ⟨hc, rfl, fun n hn => Function.update_of_ne ?_ _ _⟩
  rintro rfl
  exact ht hn

theorem poke_data (page i w : ℕ) : Data s (s.poke page i w) := by
  intro hc
  simp only [poke] at hc
  split_ifs at hc with hp
  refine ⟨hc, rfl, fun t ht => funext fun j => Radix.set_of_ne w (Or.inl ?_)⟩
  rintro rfl
  exact hp ht

theorem store_data : ∀ {bs : List ℕ} {s s₁ : Vm} {va : ℕ}, store pml4 bs s va = .ok s₁ → Data s s₁
  | [], s, s₁, _, h => by
    obtain rfl := Except.ok.inj h
    exact .refl s
  | b :: bs, s, s₁, va, h => by
    rw [store_cons] at h
    split at h
    · cases h
    · exact (poke_data _ _ _).trans (store_data h)

theorem store_supply : ∀ {bs : List ℕ} {s s₁ : Vm} {va : ℕ}, store pml4 bs s va = .ok s₁ →
    s₁.supply = s.supply
  | [], _, _, _, h => by rw [Except.ok.inj h]
  | b :: bs, s, s₁, va, h => by
    rw [store_cons] at h
    split at h
    · cases h
    · exact (store_supply h).trans rfl

/-- Only the bytes that are asked for are stored to. -/
theorem mem_storeTrace {a : ℕ} : ∀ {bs : List ℕ} {s : Vm} {va : ℕ},
    a ∈ (storeTrace pml4 bs s va).log → ∃ i < bs.length, a = (va + i) % 2 ^ 64
  | [], _, _, h => absurd h (by simp [storeTrace])
  | b :: bs, s, va, h => by
    rw [storeTrace] at h
    split at h
    · exact absurd h (by simp)
    · rcases Traced.mem_tell_bind.1 h with h | h
      · exact ⟨0, by simp, List.mem_singleton.1 h⟩
      · obtain ⟨i, hi, rfl⟩ := mem_storeTrace h
        exact ⟨i + 1, by rw [List.length_cons]; omega, by omega⟩

/-- All of them are, when the store is done. -/
theorem log_storeTrace : ∀ {bs : List ℕ} {s s₁ : Vm} {va : ℕ}, store pml4 bs s va = .ok s₁ →
    (storeTrace pml4 bs s va).log = (List.range bs.length).map fun i => (va + i) % 2 ^ 64
  | [], _, _, _, _ => rfl
  | b :: bs, s, s₁, va, h => by
    rw [store_cons] at h
    rw [storeTrace]
    split at h
    · cases h
    · rw [Traced.log_tell_bind, log_storeTrace h, List.length_cons, List.range_succ_eq_map,
        List.map_cons, List.map_map]
      refine congrArg₂ List.cons rfl (List.map_congr_left fun i _ => ?_)
      simp only [Function.comp_apply, Nat.succ_eq_add_one]
      omega

/-- The first node of a list. -/
theorem vmaMalloc_first {mm : Mm} {node : ℕ} (hmm : mm.mmap = none)
    (h : s.kmalloc 64 = .ok (s₁, node)) :
    s.vmaMalloc mm = .ok (s₁, ⟨mm.count + 1, some node⟩, node) := by
  simp only [vmaMalloc, hmm, h]
  rfl

/-- Any other one is a page after the last. -/
theorem vmaMalloc_last {mm : Mm} {first last : ℕ} (hmm : mm.mmap = some first)
    (h : lastVma (mm.count + 1) s first = .ok last) :
    s.vmaMalloc mm = .ok (s.poke last 7 (VADDR ((last + 1) * 4096)),
      { mm with count := mm.count + 1 }, last + 1) := by
  simp only [vmaMalloc, hmm, h]
  rfl

theorem vmaMalloc_data {mm mm₁ : Mm} {vma : ℕ} (h : s.vmaMalloc mm = .ok (s₁, mm₁, vma)) :
    Data s s₁ := by
  unfold vmaMalloc at h
  split at h
  · obtain ⟨last, -, h⟩ := bind_eq_ok.1 h
    obtain ⟨rfl, -⟩ := Prod.mk.inj (Except.ok.inj h)
    exact poke_data _ _ _
  · obtain ⟨⟨s', p⟩, hk, h⟩ := bind_eq_ok.1 h
    obtain ⟨rfl, -⟩ := Prod.mk.inj (Except.ok.inj h)
    exact kmalloc_data hk

theorem setVma_mem {n node : ℕ} (h : n ≠ node) (v : Vma) : (s.setVma node v).mem n = s.mem n := by
  have hfold : ∀ (fs : List (ℕ × ℕ)) (s : Vm),
      (fs.foldl (fun s f => s.poke node f.1 f.2) s).mem n = s.mem n := by
    intro fs
    induction fs with
    | nil => exact fun _ => rfl
    | cons f fs ih =>
      exact fun s => (ih _).trans (funext fun j => Radix.set_of_ne f.2 (Or.inl h))
  exact hfold _ s

theorem setVma_data (node : ℕ) (v : Vma) : Data s (s.setVma node v) := by
  have hfold : ∀ (fs : List (ℕ × ℕ)) (s : Vm),
      Data s (fs.foldl (fun s f => s.poke node f.1 f.2) s) := by
    intro fs
    induction fs with
    | nil => exact .refl
    | cons f fs ih => exact fun s => (poke_data _ _ _).trans (ih _)
  exact hfold _ s

theorem copyWords_data {file : ℕ → ℕ} : ∀ {n : ℕ} {s s₁ : Vm} {dst src : ℕ},
    copyWords file pml4 n s dst src = .ok s₁ → Data s s₁
  | 0, s, s₁, _, _, h => by
    obtain rfl := Except.ok.inj h
    exact .refl s
  | n + 1, s, s₁, dst, src, h => by
    rw [copyWords_succ] at h
    obtain ⟨s', hs, h⟩ := bind_eq_ok.1 h
    exact (store_data hs).trans (copyWords_data h)

/-! ## Mappings -/

/-- If no table has been hit, the tables have grown. -/
def Extends (pml4 : ℕ) (s s₁ : Vm) : Prop :=
  s₁.clobbered = [] → s.clobbered = [] ∧ ∀ lab, s.Labels lab → lab pml4 = some [] →
    ∃ lab₁, Grows (fun _ => True) 2 s lab s₁ lab₁

theorem Extends.refl (s : Vm) : Extends pml4 s s := fun h => ⟨h, fun lab hw _ => ⟨lab, .refl hw⟩⟩

theorem Extends.trans (h : Extends pml4 s s₁) (h' : Extends pml4 s₁ s₂) : Extends pml4 s s₂ := by
  intro hc
  obtain ⟨hc₁, hgrow'⟩ := h' hc
  obtain ⟨hc₀, hgrow⟩ := h hc₁
  refine ⟨hc₀, fun lab hw hroot => ?_⟩
  obtain ⟨lab₁, hg₁⟩ := hgrow lab hw hroot
  obtain ⟨lab₂, hg₂⟩ := hgrow' lab₁ hg₁.wf (hg₁.ext.mono _ _ hroot)
  exact ⟨lab₂, hg₁.trans hg₂⟩

theorem Data.grows (h : Data s s₁) (hc : s₁.clobbered = []) (hw : s.Labels lab) :
    Grows (fun _ => True) 2 s lab s₁ lab := by
  obtain ⟨-, htab, hmem⟩ := h hc
  refine (hw.outside s₁ htab fun n l hn i => ?_).1
  rw [hmem n ((hw.tables n).2 ⟨l, hn⟩)]

/-- A new PML4 whose entries are those of others. -/
theorem addRoot_labels {t : ℕ} {row : ℕ → ℕ} (hw : s.Labels lab) (ht : t ∉ s.tables)
    (hrow : ∀ i c, entryChild (row i) = some c → ∃ r, lab r = some [] ∧ row i = s.mem r i) :
    Radix.Ext entryChild 4 2 s.mem lab (s.addRoot t row).mem (Function.update lab t (some [])) ∧
      (s.addRoot t row).Labels (Function.update lab t (some [])) := by
  have hfill := hw.outside (k := 2) { s with mem := Function.update s.mem t row } rfl
    fun n l hn i => by
      have hnt : n ≠ t := by
        rintro rfl
        exact ht ((hw.tables n).2 ⟨l, hn⟩)
      simp [hnt]
  obtain ⟨hext, hwf⟩ := hfill.1.wf.label (k := 2) (l := []) ht fun i c hi => by
    simp only [Function.update_self] at hi
    obtain ⟨r, hr, he⟩ := hrow i c hi
    exact ⟨hw.tree r [] i c hr (by simp) (by rw [← he, hi]), trivial⟩
  exact ⟨hfill.1.ext.trans hext, hwf⟩

theorem Data.walk (h : Data s s₁) (hc : s₁.clobbered = []) (hw : s.Labels lab)
    (hroot : lab pml4 = some []) (v : ℕ) : walk s₁.mem pml4 v = walk s.mem pml4 v := by
  refine hw.tree.trail_congr (j := 0) (fun n l hn _ i => ?_) hroot (Nat.zero_le _)
    (by simp [offsets])
  rw [(h hc).2.2 n ((hw.tables n).2 ⟨l, hn⟩)]

theorem Data.extends (h : Data s s₁) : Extends pml4 s s₁ :=
  fun hc => ⟨(h hc).1, fun lab hw _ => ⟨lab, h.grows hc hw⟩⟩

theorem initMap_extends {v p pages access : ℕ}
    (h : s.initMapVirtPhysAddr v p pages pml4 access = .ok s₁) : Extends pml4 s s₁ := by
  refine fun hc => ⟨clobbered_of_initMap h hc, fun lab hw hroot => ?_⟩
  obtain ⟨lab₁, hgrow, -⟩ := initMap_grows (fun _ => trivial) hw hroot h hc
  exact ⟨lab₁, hgrow⟩

theorem mapPages_succ_ok {n v : ℕ} : mapPages pml4 (n + 1) s v = .ok s₁ ↔ ∃ sa addr sb,
    s.kmalloc 1 = .ok (sa, addr) ∧ sa.initMapVirtPhysAddr v (addr * 4096) 1 pml4 1 = .ok sb ∧
      mapPages pml4 n sb (v + 4096) = .ok s₁ := by
  rw [mapPages_succ, bind_eq_ok]
  constructor
  · rintro ⟨⟨sa, addr⟩, hk, h⟩
    obtain ⟨sb, hm, h⟩ := bind_eq_ok.1 h
    exact ⟨sa, addr, sb, hk, hm, h⟩
  · rintro ⟨sa, addr, sb, hk, hm, h⟩
    exact ⟨(sa, addr), hk, bind_eq_ok.2 ⟨sb, hm, h⟩⟩

theorem mapPages_extends : ∀ {n : ℕ} {s s₁ : Vm} {v : ℕ}, mapPages pml4 n s v = .ok s₁ →
    Extends pml4 s s₁
  | 0, s, s₁, _, h => by
    obtain rfl := Except.ok.inj h
    exact .refl s
  | n + 1, s, s₁, v, h => by
    obtain ⟨s', addr, s'', hk, hm, h⟩ := mapPages_succ_ok.1 h
    exact ((kmalloc_data hk).extends.trans (initMap_extends hm)).trans (mapPages_extends h)

theorem regionAlloc_extends {va size : ℕ} (h : s.regionAlloc pml4 va size = .ok s₁) :
    Extends pml4 s s₁ := mapPages_extends h

theorem kmallocStack_ok {size v : ℕ} (h : s.kmallocStack size pml4 = .ok (s₁, v)) :
    ∃ s' ret, s.kmalloc size = .ok (s', ret) ∧ v = (bumpPtr + ret * 4096) % 2 ^ 64 ∧
      s'.initMapVirtPhysAddr v (ret * 4096) 1 pml4 1 = .ok s₁ := by
  obtain ⟨⟨s', ret⟩, hk, h⟩ := bind_eq_ok.1 h
  obtain ⟨s'', hm, h⟩ := bind_eq_ok.1 h
  obtain ⟨rfl, rfl⟩ := Prod.mk.inj (Except.ok.inj h)
  exact ⟨s', ret, hk, rfl, hm⟩

theorem kmallocStack_extends {size v : ℕ} (h : s.kmallocStack size pml4 = .ok (s₁, v)) :
    Extends pml4 s s₁ := by
  obtain ⟨s', ret, hk, -, hm⟩ := kmallocStack_ok h
  exact (kmalloc_data hk).extends.trans (initMap_extends hm)

theorem fillSegment_ok {f : Elf} {ph : Phdr} :
    s.fillSegment f pml4 ph = .ok s₁ ↔ ∃ sa sb, s.regionAlloc pml4 ph.pVaddr ph.pMemsz = .ok sa ∧
      store pml4 (f.bytes ph.pOffset (ph.pFilesz % 2 ^ 32)) sa ph.pVaddr = .ok sb ∧
      store pml4 (List.replicate ph.zeros 0) sb ((ph.pVaddr + ph.pFilesz) % 2 ^ 64) = .ok s₁ := by
  simp only [fillSegment_eq, bind_eq_ok]
  exact ⟨fun ⟨sa, ha, sb, hb, h⟩ => ⟨sa, sb, ha, hb, h⟩, fun ⟨sa, sb, ha, hb, h⟩ =>
    ⟨sa, ha, sb, hb, h⟩⟩

theorem loadSegment_ok {f : Elf} {mm mm₁ : Mm} {ph : Phdr} (hload : ph.pType = 1)
    (hok : s.loadSegment f pml4 mm ph = .ok (s₁, mm₁)) :
    ∃ sa sb node, s.fillSegment f pml4 ph = .ok sa ∧ sa.vmaMalloc mm = .ok (sb, mm₁, node) ∧
      s₁ = sb.setVma node (f.vma ph) := by
  rw [loadSegment_eq _ _ _ _ hload] at hok
  obtain ⟨sa, ha, hok⟩ := bind_eq_ok.1 hok
  obtain ⟨⟨sb, mm', node⟩, hb, hok⟩ := bind_eq_ok.1 hok
  obtain ⟨rfl, rfl⟩ := Prod.mk.inj (Except.ok.inj hok)
  exact ⟨sa, sb, node, ha, hb, rfl⟩

theorem loadSegment_extends {f : Elf} {mm mm₁ : Mm} {ph : Phdr}
    (h : s.loadSegment f pml4 mm ph = .ok (s₁, mm₁)) : Extends pml4 s s₁ := by
  by_cases hload : ph.pType = 1
  · obtain ⟨sc, sd, vm, hfill, hd, rfl⟩ := loadSegment_ok hload h
    obtain ⟨sa, sb, ha, hb, hc⟩ := fillSegment_ok.1 hfill
    have hseg := (store_data hb).trans (store_data hc)
    have hnode := hseg.trans (vmaMalloc_data hd)
    exact (regionAlloc_extends ha).trans (hnode.trans (setVma_data vm _)).extends
  · rw [loadSegment_of_ne _ _ _ _ hload] at h
    obtain ⟨rfl, -⟩ := Prod.mk.inj (Except.ok.inj h)
    exact .refl s

theorem loadSegments_extends {f : Elf} : ∀ {phs : List Phdr} {s s₁ : Vm} {mm : Mm},
    loadSegments f pml4 phs s mm = .ok s₁ → Extends pml4 s s₁
  | [], s, s₁, _, h => by
    obtain rfl := Except.ok.inj h
    exact .refl s
  | ph :: phs, s, s₁, mm, h => by
    rw [loadSegments_cons] at h
    obtain ⟨⟨s', mm'⟩, hs, h⟩ := bind_eq_ok.1 h
    exact (loadSegment_extends hs).trans (loadSegments_extends h)

theorem copyVmas_extends {file : ℕ → ℕ} : ∀ {vs : List Vma} {s s₁ : Vm} {mm : Mm},
    copyVmas file pml4 vs s mm = .ok s₁ → Extends pml4 s s₁
  | [], s, s₁, _, h => by
    obtain rfl := Except.ok.inj h
    exact .refl s
  | v :: vs, s, s₁, mm, h => by
    rw [copyVmas_cons] at h
    obtain ⟨⟨sa, mm', node⟩, ha, h⟩ := bind_eq_ok.1 h
    obtain ⟨sb, hb, h⟩ := bind_eq_ok.1 h
    obtain ⟨sc, hc, h⟩ := bind_eq_ok.1 h
    have hnode := (vmaMalloc_data ha).trans (setVma_data node v)
    exact ((hnode.extends.trans (regionAlloc_extends hb)).trans (copyWords_data hc).extends).trans
      (copyVmas_extends h)

end Vm

end Bgox
