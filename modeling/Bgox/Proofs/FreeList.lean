import Bgox.Lib.Run
import Bgox.Mem
import Bgox.Proofs.Strings

/-!
# What `calculate_free_list` leaves

The descriptors below `physfree` are used, those of the pages set aside for the array are used, and
all others up to `num_pages` are free, with a count of the pages to the end
(`calculateFreeList_spec`).

The number of pages set aside is rounded down, and the descriptor at the end is not counted, so the
last page of the array is always free (`array_not_protected`).  And all of the memory up to the end
of the last usable entry of the memory map is taken to be usable (`free_is_ram_iff`).
-/

namespace Bgox

open Run (bind_eq_ok)

namespace Heap

variable {page page' : ℕ → Page} {mem : ℕ → ℕ} {i j last n numPages physfree : ℕ}

theorem int_natCast_of_lt {n : ℕ} (h : n < 2 ^ 31) : int n = n := int_of_lt (by omega) (by omega)

/-! ## The loops -/

theorem markPages_apply (used refCount : ℤ) : ∀ (n : ℕ) (page : ℕ → Page) (i j : ℕ),
    markPages used refCount n page i j
      = if i ≤ j ∧ j < i + n then ⟨some (j + 1), used, int (i + n - j : ℕ), refCount⟩ else page j
  | 0, page, i, j => by
    rw [if_neg (by omega)]
    rfl
  | n + 1, page, i, j => by
    rw [markPages, markPages_apply used refCount n]
    by_cases hj : j = i
    · subst hj
      rw [if_neg (by omega), if_pos (by omega), Function.update_self,
        show j + (n + 1) - j = n + 1 by omega]
    · rw [Function.update_of_ne hj, show i + 1 + n = i + (n + 1) by omega]
      exact if_congr (by omega) rfl rfl

/-- The descriptors after one turn of the third loop. -/
def reserveOne (last : ℕ) (page : ℕ → Page) (i n : ℕ) : ℕ → Page :=
  let page := Function.update page i { page i with used := 1, blockSize := int (n + 1 : ℕ) }
  Function.update page last { page last with refCount := 1 }

theorem reserve_succ (n : ℕ) (page : ℕ → Page) (i : ℕ) :
    reserve last (n + 1) page (some i)
      = reserve last n (reserveOne last page i n) (reserveOne last page i n i).next := rfl

theorem reserveOne_self (page : ℕ → Page) (n : ℕ) (h : i ≠ last) :
    reserveOne last page i n i = { page i with used := 1, blockSize := int (n + 1 : ℕ) } := by
  simp [reserveOne, h]

theorem reserveOne_of_ne (page : ℕ → Page) (n : ℕ) (h : j ≠ i) (hl : j ≠ last) :
    reserveOne last page i n j = page j := by
  simp [reserveOne, h, hl]

/-- Only the descriptor it is at is marked, and that as used. -/
theorem reserveOne_used (page : ℕ → Page) (n j : ℕ) :
    (reserveOne last page i n j).used = if j = i then 1 else (page j).used := by
  by_cases hj : j = i <;> by_cases hl : j = last
  · subst hl
    subst hj
    simp [reserveOne]
  · subst hj
    simp [reserveOne_self page n hl]
  · subst hl
    simp [reserveOne, hj]
  · simp [reserveOne_of_ne page n hj hl, hj]

/-- Along descriptors that point to the one after them, and do not include the last. -/
theorem reserve_spec : ∀ {n i : ℕ} {page : ℕ → Page},
    (∀ j, i ≤ j → j < i + n → (page j).next = some (j + 1)) → i + n ≤ last →
    ∃ page', reserve last n page (some i) = .ok page' ∧
      (∀ j, i ≤ j → j < i + n → page' j
        = { page j with used := 1, blockSize := int (i + n - j : ℕ) }) ∧
      ∀ j, j < i ∨ i + n ≤ j → j ≠ last → page' j = page j
  | 0, i, page, _, _ => ⟨page, rfl, fun j hle hlt => by omega, fun _ _ _ => rfl⟩
  | n + 1, i, page, hnext, hlast => by
    have hil : i ≠ last := by omega
    have hself := reserveOne_self page n hil
    have hchain : ∀ j, i + 1 ≤ j → j < i + 1 + n →
        (reserveOne last page i n j).next = some (j + 1) := fun j hle hlt => by
      rw [reserveOne_of_ne page n (by omega) (by omega)]
      exact hnext j (by omega) (by omega)
    obtain ⟨page', hr, hin, hout⟩ := reserve_spec hchain (by omega)
    refine ⟨page', ?_, fun j hle hlt => ?_, fun j hj hl => ?_⟩
    · rw [reserve_succ, hself]
      dsimp only
      rw [hnext i (Nat.le_refl _) (by omega)]
      exact hr
    · by_cases hji : j = i
      · subst hji
        rw [hout j (Or.inl (Nat.lt_succ_self _)) hil, hself, show j + (n + 1) - j = n + 1 by omega]
      · rw [hin j (by omega) (by omega), reserveOne_of_ne page n hji (by omega),
          show i + 1 + n - j = i + (n + 1) - j by omega]
    · rw [hout j (by omega) hl, reserveOne_of_ne page n (by omega) hl]

/-- However far it goes, it marks nothing as free. -/
theorem reserve_used : ∀ {n : ℕ} {page page' : ℕ → Page} {p : Option ℕ},
    reserve last n page p = .ok page' → ∀ j, (page' j).used = (page j).used ∨ (page' j).used = 1
  | 0, page, page', _, h, j => by
    obtain rfl := Except.ok.inj h
    exact Or.inl rfl
  | n + 1, _, _, none, h, _ => by cases h
  | n + 1, page, page', some i, h, j => by
    rw [reserve_succ] at h
    rcases reserve_used h j with hj | hj
    · rw [reserveOne_used] at hj
      split_ifs at hj
      · exact Or.inr hj
      · exact Or.inl hj
    · exact Or.inr hj

/-- And it marks what it passes as used. -/
theorem reserve_marks : ∀ {m n i : ℕ} {page page' : ℕ → Page},
    reserve last n page (some i) = .ok page' → m ≤ n → i + m ≤ last →
    (∀ j, i ≤ j → j < i + m → (page j).next = some (j + 1)) →
    ∀ j, i ≤ j → j < i + m → (page' j).used = 1
  | 0, _, _, _, _, _, _, _, _, j, hle, hlt => by omega
  | m + 1, n, i, page, page', h, hmn, hlast, hnext, j, hle, hlt => by
    obtain ⟨n, rfl⟩ : ∃ n', n = n' + 1 := ⟨n - 1, by omega⟩
    have hil : i ≠ last := by omega
    have hself := reserveOne_self page n hil
    rw [reserve_succ] at h
    by_cases hji : j = i
    · subst hji
      rcases reserve_used h j with hj | hj
      · rw [hj, hself]
      · exact hj
    · rw [hself] at h
      dsimp only at h
      rw [hnext i (Nat.le_refl _) (by omega)] at h
      refine reserve_marks (m := m) h (by omega) (by omega) (fun k hk hkm => ?_) j (by omega)
        (by omega)
      rw [reserveOne_of_ne page n (by omega) (by omega)]
      exact hnext k (by omega) (by omega)

/-! ## The list -/

/-- The descriptors in order, with the free ones from `p` on, each with the number of pages from
there to the end. -/
structure FreeFrom (h : Heap) (p : ℕ) : Prop where
  le : p ≤ h.length
  next : ∀ i < h.length, (h.page i).next = some (i + 1)
  used : ∀ i < p, (h.page i).used = 1
  free : ∀ i, p ≤ i → i < h.length →
    (h.page i).used = 0 ∧ (h.page i).blockSize = int (h.length - i : ℕ)

/-- The descriptors before the third loop. -/
def laidOut (page : ℕ → Page) (usedPages freePages : ℕ) : ℕ → Page :=
  let page := markPages 0 0 freePages (markPages 1 1 usedPages page 0) usedPages
  Function.update page (usedPages + freePages) { page (usedPages + freePages) with used := -1 }

theorem laidOut_apply {usedPages freePages : ℕ} (h : i < usedPages + freePages) :
    laidOut page usedPages freePages i
      = if i < usedPages then ⟨some (i + 1), 1, int (usedPages - i : ℕ), 1⟩
        else ⟨some (i + 1), 0, int (usedPages + freePages - i : ℕ), 0⟩ := by
  rw [laidOut, Function.update_of_ne (by omega), markPages_apply, markPages_apply]
  by_cases hi : i < usedPages
  · rw [if_neg (by omega), if_pos (by omega), if_pos hi, Nat.zero_add]
  · rw [if_pos (by omega), if_neg hi]

/-- The number of pages that are not below `physfree`.  It wraps around when there are none. -/
def freePages (numPages physfree : ℕ) : ℕ := (numPages + 2 ^ 64 - physfree / 4096) % 2 ^ 64

theorem calculateFreeList_eq : calculateFreeList page mem numPages physfree = do
    let last := physfree / 4096 + freePages numPages physfree
    let page ← reserve last (usedFlspace numPages)
      (laidOut page (physfree / 4096) (freePages numPages physfree)) (some (physfree / 4096))
    return ⟨physfree, last, page, mem⟩ := rfl

theorem calculateFreeList_ok (page : ℕ → Page) (mem : ℕ → ℕ)
    (hle : usedFlspace numPages ≤ freePages numPages physfree) :
    ∃ h, calculateFreeList page mem numPages physfree = .ok h ∧ h.freeList = physfree ∧
      h.length = physfree / 4096 + freePages numPages physfree ∧
      h.FreeFrom (physfree / 4096 + usedFlspace numPages) := by
  have hnext : ∀ i < physfree / 4096 + freePages numPages physfree,
      (laidOut page (physfree / 4096) (freePages numPages physfree) i).next = some (i + 1) := by
    intro i hi
    rw [laidOut_apply hi]
    split_ifs <;> rfl
  obtain ⟨page', hr, hin, hout⟩ := reserve_spec (fun j _ hj => hnext j (by omega))
    (Nat.add_le_add_left hle (physfree / 4096))
  refine ⟨⟨physfree, physfree / 4096 + freePages numPages physfree, page', mem⟩, ?_, rfl, rfl,
    by dsimp only; omega, fun i hi => ?_, fun i hi => ?_, fun i hpi hi => ?_⟩
  · rw [calculateFreeList_eq]
    exact bind_eq_ok.2 ⟨page', hr, rfl⟩
  · dsimp only at hi ⊢
    by_cases hin' : physfree / 4096 ≤ i ∧ i < physfree / 4096 + usedFlspace numPages
    · rw [hin i hin'.1 hin'.2]
      exact hnext i hi
    · rw [hout i (by omega) (by omega)]
      exact hnext i hi
  · dsimp only
    by_cases hui : physfree / 4096 ≤ i
    · rw [hin i hui hi]
    · rw [hout i (by omega) (by omega), laidOut_apply (by omega), if_pos (by omega)]
  · dsimp only at hi ⊢
    simp only [hout i (Or.inr hpi) (by omega), laidOut_apply hi,
      if_neg (show ¬ i < physfree / 4096 by omega), and_self]

theorem freePages_of_le (hn : numPages < 2 ^ 64) (hle : physfree / 4096 ≤ numPages) :
    freePages numPages physfree = numPages - physfree / 4096 := by
  unfold freePages
  omega

theorem calculateFreeList_spec (page : ℕ → Page) (mem : ℕ → ℕ) (hn : numPages < 2 ^ 64)
    (hle : physfree / 4096 + usedFlspace numPages ≤ numPages) :
    ∃ h, calculateFreeList page mem numPages physfree = .ok h ∧ h.freeList = physfree ∧
      h.length = numPages ∧ h.FreeFrom (physfree / 4096 + usedFlspace numPages) := by
  have hfree : freePages numPages physfree = numPages - physfree / 4096 :=
    freePages_of_le hn (by omega)
  have hle' : usedFlspace numPages ≤ freePages numPages physfree := by omega
  obtain ⟨h, hcalc, hlist, hlen, hfrom⟩ := calculateFreeList_ok page mem hle'
  exact ⟨h, hcalc, hlist, by omega, hfrom⟩

/-- Also when the third loop goes on past the end, the pages it should set aside are not free. -/
theorem calculateFreeList_free {h : Heap} (hn : numPages < 2 ^ 64)
    (hused : physfree / 4096 ≤ numPages)
    (hcalc : calculateFreeList page mem numPages physfree = .ok h) (hi : i < h.length)
    (hzero : (h.page i).used = 0) : physfree / 4096 + usedFlspace numPages ≤ i ∧ i < numPages := by
  rw [calculateFreeList_eq, freePages_of_le hn hused,
    Nat.add_sub_cancel' hused] at hcalc
  obtain ⟨page', hr, hok⟩ := bind_eq_ok.1 hcalc
  obtain rfl := Except.ok.inj hok
  dsimp only at hi hzero
  refine ⟨?_, hi⟩
  by_contra hlt
  by_cases hui : physfree / 4096 ≤ i
  · have hmarks := reserve_marks (m := i + 1 - physfree / 4096) hr (by omega) (by omega)
      (fun j _ hj => by
        rw [laidOut_apply (by omega)]
        split_ifs <;> rfl) i hui (by omega)
    omega
  · rcases reserve_used hr i with hsame | hone
    · rw [laidOut_apply (by omega), if_pos (by omega)] at hsame
      dsimp only at hsame
      omega
    · omega

/-! ## The array is not protected -/

/-- The page `i` has a byte in common with the array, the descriptor at its end included. -/
def Overlaps (h : Heap) (i : ℕ) : Prop :=
  i * 4096 < h.freeList + sizeofPage * (h.length + 1) ∧ h.freeList < (i + 1) * 4096

/-- No page of the array can be handed out. -/
def Protected (h : Heap) : Prop := ∀ i < h.length, (h.page i).used = 0 → ¬ h.Overlaps i

theorem usedFlspace_le (numPages : ℕ) : usedFlspace numPages * 4096 ≤ numPages * sizeofPage := by
  have hmod : numPages * sizeofPage % 2 ^ 64 ≤ numPages * sizeofPage := Nat.mod_le _ _
  unfold usedFlspace
  omega

/-- The division that counts the pages of the array rounds down, and the descriptor at the end is
left out of it, so the page after those set aside always holds a part of the array. -/
theorem array_not_protected (page : ℕ → Page) (mem : ℕ → ℕ) {numPages physfree : ℕ}
    (hn : numPages < 2 ^ 64) (halign : physfree % 4096 = 0)
    (hinside : physfree + sizeofPage * (numPages + 1) ≤ numPages * 4096) :
    ∃ h, calculateFreeList page mem numPages physfree = .ok h ∧ ¬ h.Protected := by
  have hF := usedFlspace_le numPages
  unfold sizeofPage at hinside hF
  have hle : physfree / 4096 + usedFlspace numPages ≤ numPages := by omega
  obtain ⟨h, hcalc, hlist, hlen, hfree⟩ := calculateFreeList_spec page mem hn hle
  refine ⟨h, hcalc, fun hprot => ?_⟩
  have hlt : physfree / 4096 + usedFlspace numPages < h.length := by omega
  refine hprot _ hlt (hfree.free _ (Nat.le_refl _) hlt).1 ?_
  unfold Overlaps sizeofPage
  omega

/-- 4 MiB of memory with the array at 2 MiB: the six pages set aside hold the 1024 descriptors, and
the one at the end is in a page that is free. -/
theorem end_marker_free : ∃ h,
    calculateFreeList (fun _ => ⟨none, 0, 0, 0⟩) (fun _ => 0) 1024 0x200000 = .ok h ∧
      518 < h.length ∧ (h.page 518).used = 0 ∧ h.Overlaps 518 := by
  obtain ⟨h, hcalc, hlist, hlen, hfree⟩ := calculateFreeList_spec (fun _ => ⟨none, 0, 0, 0⟩)
    (fun _ => 0) (show 1024 < 2 ^ 64 by decide) (show 0x200000 / 4096 + usedFlspace 1024 ≤ 1024 by
      decide)
  refine ⟨h, hcalc, by omega, (hfree.free 518 (by decide) (by omega)).1, ?_⟩
  rw [Overlaps, hlist, hlen]
  decide

theorem array_not_protected_rounded : ∃ h,
    calculateFreeList (fun _ => ⟨none, 0, 0, 0⟩) (fun _ => 0) 1000 0x200000 = .ok h ∧
      ¬ h.Protected :=
  array_not_protected _ _ (by decide) (by decide) (by decide)

end Heap

/-! ## All memory below the end of the last entry is taken to be usable -/

/-- The page `i` lies inside an entry of the memory map that is memory. -/
def Inside (smap : List SmapEntry) (i : ℕ) : Prop :=
  ∃ e ∈ smap, e.type = 1 ∧ e.base.toNat ≤ i * 4096 ∧
    (i + 1) * 4096 ≤ e.base.toNat + e.length.toNat

/-- Whatever was in memory before, the pages that are free at the end of `calculate_free_list` are
memory. -/
def FreeIsRam (smap : List SmapEntry) (physfree : UInt64) : Prop :=
  ∀ page mem h, freeListOf page mem smap physfree = .ok h →
    ∀ i < h.length, (h.page i).used = 0 → Inside smap i

theorem Inside.lt {smap : List SmapEntry} {i : ℕ} (h : Inside smap i) : i < 2 ^ 53 := by
  obtain ⟨e, -, -, -, hend⟩ := h
  have hb := e.base.toNat_lt
  have hl := e.length.toNat_lt
  omega

/-- `num_pages` in `start`. -/
def numPages (smap : List SmapEntry) : ℕ := (lastMemPtr smap / 0x1000).toNat

theorem numPages_lt (smap : List SmapEntry) : numPages smap < 2 ^ 64 :=
  (lastMemPtr smap / 0x1000).toNat_lt

/-- The pages that are free are those from the array on, so exactly these have to be memory.  When
`physfree` is above the end of memory the number of free pages wraps around. -/
theorem free_is_ram_iff (smap : List SmapEntry) (physfree : UInt64) :
    FreeIsRam smap physfree ↔ physfree.toNat / 4096 ≤ numPages smap ∧
      ∀ i, physfree.toNat / 4096 + Heap.usedFlspace (numPages smap) ≤ i → i < numPages smap →
        Inside smap i := by
  have hn := numPages_lt smap
  have hphys := physfree.toNat_lt
  constructor
  · intro hram
    have hfree : Heap.usedFlspace (numPages smap) ≤ Heap.freePages (numPages smap) physfree.toNat →
        ∀ i, physfree.toNat / 4096 + Heap.usedFlspace (numPages smap) ≤ i →
          i < physfree.toNat / 4096 + Heap.freePages (numPages smap) physfree.toNat →
          Inside smap i := by
      intro hle i hi hlt
      obtain ⟨h, hcalc, -, hlen, hfrom⟩ :=
        Heap.calculateFreeList_ok (fun _ => ⟨none, 0, 0, 0⟩) (fun _ => 0) hle
      exact hram _ _ h hcalc i (by omega) (hfrom.free i hi (by omega)).1
    have hused : physfree.toNat / 4096 ≤ numPages smap := by
      by_contra hlt
      -- the last of the descriptors is far beyond every entry
      have hwrap : Heap.freePages (numPages smap) physfree.toNat
          = 2 ^ 64 + numPages smap - physfree.toNat / 4096 := by
        unfold Heap.freePages
        omega
      have hF : Heap.usedFlspace (numPages smap) < 2 ^ 32 := Nat.mod_lt _ (by decide)
      have hin := hfree (by omega) (2 ^ 64 + numPages smap - 1) (by omega) (by omega)
      have := hin.lt
      omega
    refine ⟨hused, fun i hi hlt => ?_⟩
    rw [Heap.freePages_of_le hn hused] at hfree
    exact hfree (by omega) i hi (by omega)
  · rintro ⟨hused, hinside⟩ page mem h hcalc i hi hzero
    obtain ⟨hlo, hhi⟩ := Heap.calculateFreeList_free hn hused hcalc hi hzero
    exact hinside i hlo hhi

/-- Two ranges of memory with a reserved one between them: its first page is free. -/
theorem reserved_page_free :
    let smap : List SmapEntry :=
      [⟨0, 0x400000, 1⟩, ⟨0x400000, 0x100000, 2⟩, ⟨0x500000, 0x100000, 1⟩]
    Inside smap (0x200000 / 4096) ∧ ¬ FreeIsRam smap 0x200000 := by
  intro smap
  refine ⟨⟨⟨0, 0x400000, 1⟩, by decide, by decide, by decide, by decide⟩, fun hram => ?_⟩
  have hpages : (lastMemPtr smap / 0x1000).toNat = 1536 := by decide
  obtain ⟨h, hcalc, -, hlen, hfrom⟩ := Heap.calculateFreeList_spec (fun _ => ⟨none, 0, 0, 0⟩)
    (fun _ => 0) (show 1536 < 2 ^ 64 by decide)
    (show 0x200000 / 4096 + Heap.usedFlspace 1536 ≤ 1536 by decide)
  have hok : freeListOf (fun _ => ⟨none, 0, 0, 0⟩) (fun _ => 0) smap 0x200000 = .ok h := by
    rw [freeListOf, hpages]
    exact hcalc
  obtain ⟨e, he, htype, hbase, hend⟩ := hram _ _ h hok 1024 (by omega)
    (hfrom.free 1024 (by decide) (by omega)).1
  have hall : ∀ e ∈ smap, e.type = 1 → ¬ (e.base.toNat ≤ 1024 * 4096 ∧
      (1024 + 1) * 4096 ≤ e.base.toNat + e.length.toNat) := by decide
  exact hall e he htype ⟨hbase, hend⟩

end Bgox
