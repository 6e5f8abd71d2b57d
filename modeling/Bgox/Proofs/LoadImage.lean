import Bgox.Proofs.Loader

/-!
# The image of a program

The loop over the segments, for any number of them whose VMAs are out of the way and for two whose
second VMA is in the first page of the second segment.  What a program then sees is a fold over its
segments (`Loading.run`), each of which replaces its pages and is seen as far as those after it
leave it alone (`foldl_load_iff`).
-/

namespace Bgox

open Run (bind_eq_ok)

namespace Vm

variable {s s₁ : Vm} {t first x : ℕ} {vs : List Vma} {old pool : List ℕ} {mm mm₁ : Mm} {f : Elf}
  {ph : Phdr} {phs : List Phdr} {img : ℕ → Option ℕ}

/-! ## All segments -/

/-- The headers that are looked at. -/
def Elf.loads (f : Elf) : List Phdr := f.phdrs.filter (·.pType = 1)

theorem mem_loads (h : ph ∈ f.loads) : ph.pType = 1 := of_decide_eq_true (List.mem_filter.1 h).2

theorem loadSegmentsMm_filter : ∀ (phs : List Phdr) (s : Vm) (mm : Mm),
    loadSegmentsMm f t (phs.filter (·.pType = 1)) s mm = loadSegmentsMm f t phs s mm
  | [], _, _ => rfl
  | ph :: phs, s, mm => by
    by_cases hload : ph.pType = 1
    · rw [List.filter_cons_of_pos (by simpa using hload), loadSegmentsMm_cons, loadSegmentsMm_cons]
      simp only [loadSegmentsMm_filter phs]
    · rw [List.filter_cons_of_neg (by simpa using hload), loadSegmentsMm_filter phs,
        loadSegmentsMm_cons, loadSegment_of_ne _ _ _ _ hload]
      rfl

theorem loadSegmentsMm_cons_ok {phs : List Phdr} {s : Vm} {mm : Mm} :
    loadSegmentsMm f t (ph :: phs) s mm = .ok (s₁, mm₁) ↔
      ∃ s' mm', s.loadSegment f t mm ph = .ok (s', mm') ∧
        loadSegmentsMm f t phs s' mm' = .ok (s₁, mm₁) := by
  rw [loadSegmentsMm_cons]
  exact bind_eq_ok.trans ⟨fun ⟨⟨s', mm'⟩, hs, h⟩ => ⟨s', mm', hs, h⟩,
    fun ⟨s', mm', hs, h⟩ => ⟨(s', mm'), hs, h⟩⟩

theorem exists_mm_of_loadSegments {phs : List Phdr} {s : Vm} {mm : Mm}
    (h : loadSegments f t phs s mm = .ok s₁) :
    ∃ mm₁, loadSegmentsMm f t phs s mm = .ok (s₁, mm₁) := by
  rw [loadSegments] at h
  cases hr : loadSegmentsMm f t phs s mm with
  | error e => rw [hr] at h; cases h
  | ok r =>
    rw [hr] at h
    obtain rfl := Except.ok.inj h
    exact ⟨r.2, rfl⟩

/-- Nobody has the pages after those of the pool, as far as there may be VMAs in them. -/
def Gap (old pool : List ℕ) (n : ℕ) : Prop :=
  ∀ x ∈ pool, ∀ k, 0 < k → k < n → x + k ∉ old ∧ x + k ∉ pool

theorem Loading.segments : ∀ {phs : List Phdr} {s : Vm} {mm : Mm} {vs : List Vma},
    Loading old pool s t mm vs → (∀ ph ∈ phs, ph.pType = 1 ∧ ph.Outside) →
    (∀ x ∈ pool, x + (vs.length + phs.length) ≤ 2 ^ 19) → Gap old pool (vs.length + phs.length) →
    loadSegmentsMm f t phs s mm = .ok (s₁, mm₁) →
    Loading old pool s₁ t mm₁ (vs ++ phs.map f.vma) ∧
      ∀ img, (∀ ph ∈ phs, ph.Fits) → Shows s.mem t img →
        Shows s₁.mem t (phs.foldl (Phdr.load f) img)
  | [], s, mm, vs, h, _, _, _, hok => by
    obtain ⟨rfl, rfl⟩ := Prod.mk.inj (Except.ok.inj hok)
    exact ⟨by simpa using h, fun img _ hs => hs⟩
  | ph :: phs, s, mm, vs, h, hphs, hlow, hgap, hok => by
    obtain ⟨s', mm', hs', hok⟩ := loadSegmentsMm_cons_ok.1 hok
    rw [List.length_cons] at hlow hgap
    obtain ⟨hload, hout⟩ := hphs ph List.mem_cons_self
    obtain ⟨h', hshows'⟩ := h.segment hload hout
      (fun x hx => Nat.lt_of_lt_of_le (by omega) (hlow x hx))
      (fun hne x hx => hgap x hx _ (List.length_pos_iff.2 hne) (by omega)) hs'
    have hlen : (vs ++ [f.vma ph]).length + phs.length = vs.length + (phs.length + 1) := by
      simp only [List.length_append, List.length_singleton]
      omega
    obtain ⟨h₁, hshows⟩ := h'.segments (fun p hp => hphs p (List.mem_cons_of_mem _ hp))
      (by rw [hlen]; exact hlow) (by rw [hlen]; exact hgap) hok
    refine ⟨by simpa using h₁, fun img hfits hs => ?_⟩
    exact hshows _ (fun p hp => hfits p (List.mem_cons_of_mem _ hp))
      (hshows' img (hfits ph List.mem_cons_self) hs)

/-- What is left of `Loading` when the VMAs are all there. -/
structure Settled (pool : List ℕ) (s : Vm) (t : ℕ) : Prop where
  space : ∃ nodes, s.Space t nodes
  supply : s.supply <:+ pool
  frames : ∀ v page, pml4Off v ≠ 511 → translate s.mem t v = some page → page ∈ pool

theorem Settled.clean (h : Settled pool s t) : s.clobbered = [] := by
  obtain ⟨nodes, hspace⟩ := h.space
  exact hspace.clean

theorem Loading.settled (h : Loading old pool s t mm vs) : Settled pool s t :=
  ⟨⟨mm.nodes, h.space⟩, h.supply, h.frames⟩

theorem Loading.vmas (h : Loading old pool s t mm vs) (hlow : ∀ x ∈ pool, x + vs.length ≤ 2 ^ 19) :
    mm.vmas s.mem = vs := by
  rcases hmm : mm.mmap with _ | first
  · rw [h.empty hmm]
    simp only [Mm.vmas, hmm]
  · obtain ⟨hne, hpool, hchain⟩ := h.list first hmm
    simp only [Mm.vmas, hmm]
    exact hchain.vmaList hne (by rw [h.count]; omega) (hlow first hpool)

/-! ## Two segments

The pages `kmalloc` returns mostly are one after the other, so that the page of the second VMA is
the first one mapped for the second segment. -/

/-- The page after a page is handed out right after it, if it is. -/
def Adjacent (pool : List ℕ) : Prop :=
  ∀ i < pool.length, ∀ j < pool.length, pool[j]? = pool[i]?.map (· + 1) → j = i + 1

theorem Adjacent.split {pre rest : List ℕ} (h : Adjacent (pre ++ x :: rest)) :
    x + 1 ∉ pre ∧ (x + 1 ∈ rest → ∃ rest', rest = (x + 1) :: rest') := by
  have hx : (pre ++ x :: rest)[pre.length]? = some x := by simp
  have hpre : pre.length < (pre ++ x :: rest).length := by simp
  refine ⟨fun hmem => ?_, fun hmem => ?_⟩
  · obtain ⟨j, hj, he⟩ := List.mem_iff_getElem.1 hmem
    have hnext := h pre.length hpre j (by simp; omega)
      (by rw [hx, List.getElem?_append_left hj, List.getElem?_eq_getElem hj, he]; rfl)
    omega
  · obtain ⟨j, hj, he⟩ := List.mem_iff_getElem.1 hmem
    have hnext := h pre.length hpre (pre.length + 1 + j) (by simp; omega) (by
      rw [hx, List.getElem?_append_right (by omega), show pre.length + 1 + j - pre.length = j + 1 by
        omega, List.getElem?_cons_succ, List.getElem?_eq_getElem hj, he]
      rfl)
    obtain rfl : j = 0 := by omega
    rcases rest with _ | ⟨y, rest'⟩
    · cases hj
    · exact ⟨rest', by rw [← he]; rfl⟩

theorem Loading.firstSegment (h : Loading old pool s t mm []) (hmm : mm.mmap = none)
    (hload : ph.pType = 1) (hout : ph.Outside) (hlow : ∀ x ∈ pool, x < 2 ^ 19)
    (hok : s.loadSegment f t mm ph = .ok (s₁, mm₁)) :
    Loading old pool s₁ t mm₁ [f.vma ph] ∧
      (∃ first pre, mm₁.mmap = some first ∧ pool = pre ++ first :: s₁.supply) ∧
      ∀ img, ph.Fits → Shows s.mem t img → Shows s₁.mem t (ph.load f img) := by
  obtain ⟨h₁, hshows⟩ := h.segment hload hout (by simpa using hlow) (fun hne => absurd rfl hne) hok
  refine ⟨by simpa using h₁, ?_, hshows⟩
  obtain ⟨sa, sb, node, ha, hb, rfl⟩ := loadSegment_ok hload hok
  obtain ⟨hfill, -, -⟩ := h.fill hout ha
  simp only [vmaMalloc, hmm] at hb
  obtain ⟨⟨sc, p⟩, hk, hb⟩ := bind_eq_ok.1 hb
  obtain ⟨rfl, hpair⟩ := Prod.mk.inj (Except.ok.inj hb)
  obtain ⟨rfl, rfl⟩ := Prod.mk.inj hpair
  obtain ⟨pre, hpre⟩ := hfill.supply
  rw [kmalloc_supply hk] at hpre
  exact ⟨p, pre, rfl, hpre.symm⟩

/-- The VMA of the second segment is in the first of its pages, or in nobody's. -/
theorem Loading.secondSegment {v : Vma} {pre : List ℕ} (h : Loading old pool s t mm [v])
    (hfirst : mm.mmap = some first) (hpool : pool = pre ++ first :: s.supply)
    (hadj : Adjacent pool) (hlow : first + 1 < 2 ^ 19) (hold : first + 1 ∉ old)
    (hload : ph.pType = 1) (hout : ph.Outside)
    (hok : s.loadSegment f t mm ph = .ok (s₁, mm₁)) :
    Settled pool s₁ t ∧ mm₁.vmas s₁.mem = [v, f.vma ph] ∧
      ∀ img, ph.Fits → Shows s.mem t img → ∀ w, pml4Off w ≠ 511 →
        (vpage w = vpage ph.pVaddr → w % 4096 < 8 ∨ 64 ≤ w % 4096) →
        loadByte s₁.mem t w = ph.load f img (w % 2 ^ 48) := by
  obtain ⟨hpre, hnext⟩ := (hpool ▸ hadj).split
  have hcases : ∀ {y}, y ∈ pool → y ∉ s.supply → y ≠ first → y ∈ pre := by
    intro y hy hsup hne
    rw [hpool, List.mem_append, List.mem_cons] at hy
    tauto
  -- before the segment is mapped, the page is neither a table nor seen
  have hbefore : first + 1 ∉ s.tables := fun hx => by
    rcases h.tables _ hx with hx' | hx'
    · exact hold hx'
    · exact hpre (hcases hx' (fun hsup => h.space.fresh.2 _ hsup hx) (by omega))
  have hunseen : ∀ w, pml4Off w ≠ 511 → translate s.mem t w ≠ some (first + 1) := fun w hw hp =>
    hpre (hcases (h.frames w _ hw hp) (h.space.frame w _ hw hp).1.2 (by omega))
  obtain ⟨sa, sb, node, ha, hb, rfl⟩ := loadSegment_ok hload hok
  obtain ⟨hfill, ⟨s', hmap, htab, -, hwalk⟩, hshows⟩ := h.fill hout ha
  have hafter : first + 1 ∉ s'.tables ∧ ∀ w, pml4Off w ≠ 511 →
      translate s'.mem t w = some (first + 1) → vpage w = vpage (getStartingPage ph.pVaddr) := by
    by_cases hsup : first + 1 ∈ s.supply
    · obtain ⟨rest, hrest⟩ := hnext hsup
      exact h.space.mapPages_head hrest hmap
    · obtain ⟨-, hregion⟩ := h.space.mapPages hmap
      refine ⟨fun hx => ?_, fun w hw hp => ?_⟩
      · rcases hregion.tables _ hx with hx | hx
        · exact hbefore hx
        · exact hsup hx
      · rcases hregion.frames w _ hp with hp | hp
        · exact absurd hp (hunseen w hw)
        · exact absurd hp hsup
  have hstart : vpage (getStartingPage ph.pVaddr) = vpage ph.pVaddr := by
    unfold vpage getStartingPage
    omega
  obtain ⟨rfl, rfl, hspace, -, hsup, hwalk', hchain, hbytes⟩ :=
    hfill.linkNode hfirst hlow (by rw [htab]; exact hafter.1) hb (f.vma ph)
  have hsettled : Settled pool (sb.setVma _ (f.vma ph)) t :=
    ⟨⟨mm.nodes, hspace⟩, hsup ▸ hfill.supply, fun w page hw hp =>
      hfill.frames w page hw (hwalk' w ▸ hp)⟩
  refine ⟨hsettled, ?_, fun img hfits hs w hw hbyte => ?_⟩
  · exact hchain.vmaList (by simp) (by simp) (by simp; omega)
  · rw [hbytes w hw fun hp => hbyte ?_]
    · exact hshows img hfits hs w hw
    · rw [hwalk] at hp
      rw [hafter.2 w hw hp, hstart]

/-- The VMAs do not get in the way: nobody has their pages, or there are two. -/
def NodesApart (old pool : List ℕ) (n : ℕ) : Prop :=
  Gap old pool n ∨ n = 2 ∧ (∀ x ∈ pool, x + 1 ∉ old) ∧ Adjacent pool

/-- Not where the VMA of a second segment may be. -/
def Spared (phs : List Phdr) (w : ℕ) : Prop :=
  ∀ ph, phs[1]? = some ph → vpage w = vpage ph.pVaddr → w % 4096 < 8 ∨ 64 ≤ w % 4096

theorem Loading.run (h : Loading old pool s t ⟨0, none⟩ [])
    (hphs : ∀ ph ∈ phs, ph.pType = 1 ∧ ph.Outside) (hlow : ∀ x ∈ pool, x + phs.length ≤ 2 ^ 19)
    (hnodes : NodesApart old pool phs.length)
    (hok : loadSegmentsMm f t phs s ⟨0, none⟩ = .ok (s₁, mm₁)) :
    Settled pool s₁ t ∧ mm₁.vmas s₁.mem = phs.map f.vma ∧
      ∀ img, (∀ ph ∈ phs, ph.Fits) → Shows s.mem t img → ∀ w, pml4Off w ≠ 511 →
        Gap old pool phs.length ∨ Spared phs w →
        loadByte s₁.mem t w = phs.foldl (Phdr.load f) img (w % 2 ^ 48) := by
  by_cases hgap : Gap old pool phs.length
  · obtain ⟨h₁, hshows⟩ := h.segments hphs (by simpa using hlow) (by simpa using hgap) hok
    exact ⟨h₁.settled, h₁.vmas (by simpa using hlow), fun img hfits hs w hw _ =>
      hshows img hfits hs w hw⟩
  · obtain ⟨hlen, hold, hadj⟩ := hnodes.resolve_left hgap
    obtain ⟨ph₁, ph₂, rfl⟩ := List.length_eq_two.1 hlen
    obtain ⟨s', mm', hs', hok⟩ := loadSegmentsMm_cons_ok.1 hok
    obtain ⟨s'', mm'', hs'', hok⟩ := loadSegmentsMm_cons_ok.1 hok
    obtain ⟨rfl, rfl⟩ := Prod.mk.inj (Except.ok.inj hok)
    obtain ⟨hload₁, hout₁⟩ := hphs ph₁ (by simp)
    obtain ⟨hload₂, hout₂⟩ := hphs ph₂ (by simp)
    obtain ⟨h', ⟨first, pre, hfirst, hpool⟩, hshows'⟩ := h.firstSegment rfl hload₁ hout₁
      (fun x hx => Nat.lt_of_lt_of_le (by simp) (hlow x hx)) hs'
    have hmem : first ∈ pool := by simp [hpool]
    obtain ⟨hsettled, hvmas, hbytes⟩ := h'.secondSegment hfirst hpool hadj
      (Nat.lt_of_lt_of_le (by simp) (hlow first hmem)) (hold first hmem) hload₂ hout₂ hs''
    refine ⟨hsettled, hvmas, fun img hfits hs w hw hsp => ?_⟩
    exact hbytes _ (hfits ph₂ (by simp)) (hshows' img (hfits ph₁ (by simp)) hs) w hw
      (hsp.resolve_left hgap ph₂ rfl)

/-! ## What the program sees -/

theorem Phdr.pages_eq (h : ph.pVaddr + ph.pMemsz + 4096 ≤ 2 ^ 64) :
    ph.pages = (ph.pVaddr % 4096 + ph.pMemsz + 4095) / 4096 := by
  unfold Phdr.pages getEndingPage getStartingPage
  omega

/-- A byte of a segment is in one of its pages. -/
theorem Phdr.Fits.mem_vpages (h : ph.Fits) {i : ℕ} (hi : i < ph.pMemsz) :
    vpage (ph.pVaddr + i) ∈ ph.vpages := by
  refine List.mem_map.2 ⟨(ph.pVaddr % 4096 + i) / 4096, List.mem_range.2 ?_, ?_⟩
  · rw [Phdr.pages_eq h.top]
    omega
  · have haddr : getStartingPage ph.pVaddr + 4096 * ((ph.pVaddr % 4096 + i) / 4096)
        = (ph.pVaddr + i) / 4096 * 4096 := by
      unfold getStartingPage
      omega
    rw [haddr, vpage, vpage, Nat.mul_div_cancel _ (by decide)]

/-- A byte of a segment, from the file or zero. -/
def Phdr.byte (ph : Phdr) (f : Elf) (i : ℕ) : ℕ :=
  if i < ph.pFilesz then f.image (ph.pOffset + i) % 256 else 0

theorem Phdr.Fits.load_of_mem (h : ph.Fits) (f : Elf) (img : ℕ → Option ℕ) {i : ℕ}
    (hi : i < ph.pMemsz) :
    ph.load f img ((ph.pVaddr + i) % 2 ^ 48) = some (ph.byte f i) := by
  obtain ⟨hfile, -, hspace, -⟩ := h
  have ha : (ph.pVaddr + i) % 2 ^ 48 = ph.pVaddr % 2 ^ 48 + i := by omega
  have hb : (ph.pVaddr + ph.pFilesz) % 2 ^ 48 = ph.pVaddr % 2 ^ 48 + ph.pFilesz := by omega
  rw [Phdr.load, Phdr.byte, ha, hb]
  by_cases hlt : i < ph.pFilesz
  · rw [if_pos hlt, Image.put_of_notMem (by omega),
      Image.put_of_mem (by omega) (by rw [length_bytes]; omega), Nat.add_sub_cancel_left]
    simp [Elf.bytes, hlt]
  · rw [if_neg hlt, Image.put_of_mem (by omega) (by rw [List.length_replicate]; omega)]
    simp

/-- An address that is not one of a segment's. -/
def Phdr.Misses (ph : Phdr) (w : ℕ) : Prop :=
  ∀ i < ph.pMemsz, (ph.pVaddr + i) % 2 ^ 48 ≠ w % 2 ^ 48

/-- Beside a segment its pages are zero, and the other pages are as they were. -/
theorem Phdr.Fits.load_of_misses (h : ph.Fits) (f : Elf) (img : ℕ → Option ℕ) {w : ℕ}
    (hw : ph.Misses w) :
    ph.load f img (w % 2 ^ 48) = Image.clear 4096 ph.vpages img (w % 2 ^ 48) := by
  obtain ⟨hfile, -, hspace, -⟩ := h
  have hout : w % 2 ^ 48 < ph.pVaddr % 2 ^ 48 ∨ ph.pVaddr % 2 ^ 48 + ph.pMemsz ≤ w % 2 ^ 48 := by
    by_contra hin
    exact hw (w % 2 ^ 48 - ph.pVaddr % 2 ^ 48) (by omega) (by omega)
  have hb : (ph.pVaddr + ph.pFilesz) % 2 ^ 48 = ph.pVaddr % 2 ^ 48 + ph.pFilesz := by omega
  rw [Phdr.load, hb, Image.put_of_notMem (by rw [List.length_replicate]; omega),
    Image.put_of_notMem (by rw [length_bytes]; omega)]

theorem foldl_load_of_notMem {w : ℕ} : ∀ {phs : List Phdr} {img : ℕ → Option ℕ},
    (∀ ph ∈ phs, ph.Fits ∧ ph.Misses w) → (∀ ph ∈ phs, vpage w ∉ ph.vpages) →
    phs.foldl (Phdr.load f) img (w % 2 ^ 48) = img (w % 2 ^ 48)
  | [], _, _, _ => rfl
  | ph :: phs, img, h, hw => by
    obtain ⟨hfits, hmiss⟩ := h ph List.mem_cons_self
    rw [List.foldl_cons, foldl_load_of_notMem (fun p hp => h p (List.mem_cons_of_mem _ hp))
      (fun p hp => hw p (List.mem_cons_of_mem _ hp)), hfits.load_of_misses f img hmiss,
      Image.clear_of_notMem (by rw [vpage_mod]; exact hw ph List.mem_cons_self)]

/-- Where a later segment has the page, nothing is left of an earlier one. -/
theorem foldl_load_of_mem {w : ℕ} : ∀ {phs : List Phdr} {img : ℕ → Option ℕ},
    (∀ ph ∈ phs, ph.Fits ∧ ph.Misses w) → (∃ ph ∈ phs, vpage w ∈ ph.vpages) →
    phs.foldl (Phdr.load f) img (w % 2 ^ 48) = some 0
  | [], _, _, hw => by simp at hw
  | ph :: phs, img, h, hw => by
    have hrest : ∀ p ∈ phs, p.Fits ∧ p.Misses w := fun p hp => h p (List.mem_cons_of_mem _ hp)
    rw [List.foldl_cons]
    by_cases hlater : ∃ p ∈ phs, vpage w ∈ p.vpages
    · exact foldl_load_of_mem hrest hlater
    · obtain ⟨hfits, hmiss⟩ := h ph List.mem_cons_self
      have hpage : vpage w ∈ ph.vpages := by
        obtain ⟨p, hp, hpage⟩ := hw
        rcases List.mem_cons.1 hp with rfl | hp
        · exact hpage
        · exact absurd ⟨p, hp, hpage⟩ hlater
      rw [foldl_load_of_notMem hrest fun p hp hpage => hlater ⟨p, hp, hpage⟩,
        hfits.load_of_misses f img hmiss, Image.clear_of_mem (by rwa [vpage_mod])]

/-- A later segment takes no page with something of an earlier one in it. -/
def Phdr.Spares (f : Elf) (a b : Phdr) : Prop :=
  ∀ i < a.pMemsz, vpage (a.pVaddr + i) ∈ b.vpages → a.byte f i = 0

/-- The segments are all there if and only if each is spared by those after it. -/
theorem foldl_load_iff : ∀ {phs : List Phdr} (img : ℕ → Option ℕ), (∀ ph ∈ phs, ph.Fits) →
    phs.Pairwise (fun a b => ∀ i < a.pMemsz, b.Misses (a.pVaddr + i)) →
    ((∀ ph ∈ phs, ∀ i < ph.pMemsz, phs.foldl (Phdr.load f) img ((ph.pVaddr + i) % 2 ^ 48)
      = some (ph.byte f i)) ↔ phs.Pairwise (Phdr.Spares f))
  | [], _, _, _ => by simp
  | a :: phs, img, hfits, hmiss => by
    obtain ⟨ha, hrest⟩ := List.pairwise_cons.1 hmiss
    have hfits' : ∀ p ∈ phs, p.Fits := fun p hp => hfits p (List.mem_cons_of_mem _ hp)
    have hload := fun i hi => (hfits a List.mem_cons_self).load_of_mem f img (i := i) hi
    have hlater : ∀ i < a.pMemsz, ∀ p ∈ phs, p.Fits ∧ p.Misses (a.pVaddr + i) := fun i hi p hp =>
      ⟨hfits' p hp, ha p hp i hi⟩
    rw [List.pairwise_cons, ← foldl_load_iff (a.load f img) hfits' hrest,
      List.forall_mem_cons]
    refine and_congr_left fun _ => ⟨fun h b hb i hi hpage => ?_, fun h i hi => ?_⟩
    · have hbyte := h i hi
      rw [List.foldl_cons, foldl_load_of_mem (hlater i hi) ⟨b, hb, hpage⟩] at hbyte
      exact (Option.some.inj hbyte).symm
    · rw [List.foldl_cons]
      by_cases hpage : ∃ b ∈ phs, vpage (a.pVaddr + i) ∈ b.vpages
      · obtain ⟨b, hb, hpage⟩ := hpage
        rw [foldl_load_of_mem (hlater i hi) ⟨b, hb, hpage⟩, h b hb i hi hpage]
      · rw [foldl_load_of_notMem (hlater i hi) fun b hb hb' => hpage ⟨b, hb, hb'⟩, hload i hi]

/-! ## With enough memory the loader returns -/

theorem shows_self (mem : ℕ → ℕ → ℕ) (t : ℕ) : Shows mem t (loadByte mem t) := by
  intro w _
  have hpage : vpage (w % 2 ^ 48) = vpage w := by
    unfold vpage
    omega
  rw [loadByte, loadByte, translate_congr hpage, show w % 2 ^ 48 % 4096 = w % 4096 by omega]

theorem exists_translate {mem : ℕ → ℕ → ℕ} {w b : ℕ} (h : loadByte mem t w = some b) :
    ∃ page, translate mem t w = some page := by
  obtain ⟨page, hp, -⟩ := Option.map_eq_some_iff.1 h
  exact ⟨page, hp⟩

theorem Loading.exists_fill (h : Loading old pool s t mm vs) (hfits : ph.Fits) (hout : ph.Outside)
    (hlen : 4 * ph.pages ≤ s.supply.length) (f : Elf) :
    ∃ s₁, s.fillSegment f t ph = .ok s₁ ∧ s.supply.length ≤ s₁.supply.length + 4 * ph.pages := by
  obtain ⟨hle, hsize, -, -⟩ := id hfits
  obtain ⟨sa, ha⟩ := h.space.ready.exists_mapPages (getStartingPage ph.pVaddr) hlen
  obtain ⟨hla, hregion⟩ := h.region ha
  -- the pages of the region are there
  have hpages : ∀ i, i < ph.pMemsz → pml4Off (ph.pVaddr + i) ≠ 511 ∧
      ∃ page, translate sa.mem t (ph.pVaddr + i) = some page := fun i hi => by
    have huser := hout i (Or.inr hi)
    refine ⟨huser, exists_translate (b := 0) ?_⟩
    rw [hregion.shows _ (shows_self s.mem t) _ huser]
    exact Image.clear_of_mem (by rw [vpage_mod]; exact hfits.mem_vpages hi)
  obtain ⟨sb, hb⟩ := hla.space.exists_store (f.bytes ph.pOffset (ph.pFilesz % 2 ^ 32)) ph.pVaddr
    fun i hi => hpages i (by
      rw [length_bytes] at hi
      have hmod := Nat.mod_le ph.pFilesz (2 ^ 32)
      omega)
  obtain ⟨hlb, -, hsb, hwalk, -⟩ := hla.store (fun i hi => by
    rw [length_bytes] at hi
    have hmod := Nat.mod_le ph.pFilesz (2 ^ 32)
    exact hout i (Or.inl (by omega))) hb
  obtain ⟨sc, hc⟩ := hlb.space.exists_store
    (List.replicate (if ph.pFilesz < ph.pMemsz then (ph.pMemsz - ph.pFilesz) % 2 ^ 32 else 0) 0)
    ((ph.pVaddr + ph.pFilesz) % 2 ^ 64) fun i hi => by
      rw [List.length_replicate] at hi
      have hi' : ph.pFilesz + i < ph.pMemsz := by
        split_ifs at hi
        · have hmod := Nat.mod_le (ph.pMemsz - ph.pFilesz) (2 ^ 32)
          omega
        · omega
      have htop := hfits.top
      obtain ⟨huser, page, hp⟩ := hpages (ph.pFilesz + i) hi'
      rw [Nat.mod_eq_of_lt (by omega), Nat.add_assoc]
      exact ⟨huser, page, by rw [hwalk, hp]⟩
  have hok : s.fillSegment f t ph = .ok sc := fillSegment_ok.2 ⟨sa, sb, ha, hb, hc⟩
  obtain ⟨-, ⟨s', hmap, -, hsup, -⟩, -⟩ := h.fill hout hok
  obtain rfl : sa = s' := Except.ok.inj (ha.symm.trans hmap)
  obtain ⟨-, used, hused, hsup'⟩ := hregion.keeps
  refine ⟨sc, hok, ?_⟩
  rw [hsup', hsup, List.length_append]
  omega

theorem Loading.exists_segment (h : Loading old pool s t mm vs) (hload : ph.pType = 1)
    (hfits : ph.Fits) (hout : ph.Outside) (hlow : ∀ x ∈ pool, x + vs.length ≤ 2 ^ 19)
    (hlen : 4 * ph.pages + 1 ≤ s.supply.length) (f : Elf) :
    ∃ s₁ mm₁, s.loadSegment f t mm ph = .ok (s₁, mm₁) ∧
      s.supply.length ≤ s₁.supply.length + (4 * ph.pages + 1) := by
  obtain ⟨sa, ha, hsup⟩ := h.exists_fill hfits hout (by omega) f
  obtain ⟨hla, -, -⟩ := h.fill hout ha
  have hnode : ∃ sb mm' node, sa.vmaMalloc mm = .ok (sb, mm', node) ∧
      sa.supply.length ≤ sb.supply.length + 1 := by
    rcases hmm : mm.mmap with _ | first
    · obtain ⟨p, rest, hrest⟩ := List.exists_cons_of_ne_nil (l := sa.supply) fun hnil => by
        rw [hnil, List.length_nil] at hsup
        omega
      obtain ⟨mem, hk⟩ := exists_kmalloc_page 64 hrest rfl
        (hla.space.fresh.2 p (by rw [hrest]; exact List.mem_cons_self))
      refine ⟨_, _, _, vmaMalloc_first hmm hk, ?_⟩
      rw [hrest, List.length_cons]
    · obtain ⟨hne, hpool, hchain⟩ := hla.list first hmm
      have hlast : lastVma (mm.count + 1) sa first = .ok (first + vs.length - 1) :=
        hchain.lastVma hne (by rw [hla.count]; omega) (hlow first hpool)
      refine ⟨_, _, _, by simp only [vmaMalloc, hmm, hlast]; rfl, ?_⟩
      exact Nat.le_succ _
  obtain ⟨sb, mm', node, hb, hsup'⟩ := hnode
  refine ⟨sb.setVma node (f.vma ph), mm', ?_, ?_⟩
  · rw [loadSegment_eq _ _ _ _ hload]
    exact bind_eq_ok.2 ⟨sa, ha, bind_eq_ok.2 ⟨_, hb, rfl⟩⟩
  · show s.supply.length ≤ sb.supply.length + (4 * ph.pages + 1)
    omega

/-- The pages that are enough for the segments and their tables. -/
def need (phs : List Phdr) : ℕ := (phs.map fun ph => 4 * ph.pages + 1).sum

theorem Loading.exists_segments : ∀ {phs : List Phdr} {s : Vm} {mm : Mm} {vs : List Vma},
    Loading old pool s t mm vs → (∀ ph ∈ phs, ph.pType = 1 ∧ ph.Outside ∧ ph.Fits) →
    (∀ x ∈ pool, x + (vs.length + phs.length) ≤ 2 ^ 19) → Gap old pool (vs.length + phs.length) →
    need phs ≤ s.supply.length → ∃ s₁ mm₁, loadSegmentsMm f t phs s mm = .ok (s₁, mm₁)
  | [], s, mm, _, _, _, _, _, _ => ⟨s, mm, rfl⟩
  | ph :: phs, s, mm, vs, h, hphs, hlow, hgap, hlen => by
    rw [need, List.map_cons, List.sum_cons] at hlen
    rw [List.length_cons] at hlow hgap
    obtain ⟨hload, hout, hfits⟩ := hphs ph List.mem_cons_self
    obtain ⟨s', mm', hs', hsup⟩ := h.exists_segment hload hfits hout
      (fun x hx => Nat.le_trans (by omega) (hlow x hx)) (by omega) f
    obtain ⟨h', -⟩ := h.segment hload hout
      (fun x hx => Nat.lt_of_lt_of_le (by omega) (hlow x hx))
      (fun hne x hx => hgap x hx _ (List.length_pos_iff.2 hne) (by omega)) hs'
    have hcount : (vs ++ [f.vma ph]).length + phs.length = vs.length + (phs.length + 1) := by
      simp only [List.length_append, List.length_singleton]
      omega
    obtain ⟨s₁, mm₁, h₁⟩ := h'.exists_segments
      (fun p hp => hphs p (List.mem_cons_of_mem _ hp)) (by rw [hcount]; exact hlow)
      (by rw [hcount]; exact hgap) (by rw [need]; omega)
    exact ⟨s₁, mm₁, loadSegmentsMm_cons_ok.2 ⟨s', mm', hs', h₁⟩⟩

theorem Loading.exists_run (h : Loading old pool s t ⟨0, none⟩ [])
    (hphs : ∀ ph ∈ phs, ph.pType = 1 ∧ ph.Outside ∧ ph.Fits)
    (hlow : ∀ x ∈ pool, x + phs.length ≤ 2 ^ 19) (hnodes : NodesApart old pool phs.length)
    (hlen : need phs ≤ s.supply.length) :
    ∃ s₁ mm₁, loadSegmentsMm f t phs s ⟨0, none⟩ = .ok (s₁, mm₁) := by
  by_cases hgap : Gap old pool phs.length
  · exact h.exists_segments hphs (by simpa using hlow) (by simpa using hgap) hlen
  · obtain ⟨htwo, -, -⟩ := hnodes.resolve_left hgap
    obtain ⟨ph₁, ph₂, rfl⟩ := List.length_eq_two.1 htwo
    simp only [need, List.map_cons, List.map_nil, List.sum_cons, List.sum_nil] at hlen
    obtain ⟨hload₁, hout₁, hfits₁⟩ := hphs ph₁ (by simp)
    obtain ⟨hload₂, hout₂, hfits₂⟩ := hphs ph₂ (by simp)
    obtain ⟨s', mm', hs', hsup⟩ := h.exists_segment hload₁ hfits₁ hout₁
      (fun x hx => Nat.le_trans (by simp) (hlow x hx)) (by omega) f
    obtain ⟨h', -, -⟩ := h.firstSegment rfl hload₁ hout₁
      (fun x hx => Nat.lt_of_lt_of_le (by simp) (hlow x hx)) hs'
    obtain ⟨s'', mm'', hs'', -⟩ := h'.exists_segment hload₂ hfits₂ hout₂
      (fun x hx => Nat.le_trans (by simp) (hlow x hx)) (by omega) f
    exact ⟨s'', mm'', loadSegmentsMm_cons_ok.2 ⟨s', mm', hs',
      loadSegmentsMm_cons_ok.2 ⟨s'', mm'', hs'', rfl⟩⟩⟩

end Vm

end Bgox
