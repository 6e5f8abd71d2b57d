import Bgox.Proofs.Region
import Bgox.Window

/-!
# What the kernel's own addresses have to do with it

As long as the kernel finds its tables and the pages it hands out at its addresses for them
(`Open`), an access through the window is an access to the page itself, and `region_alloc` is what
it is on physical memory (`Open.regionAlloc`).  A region that takes one of these addresses away ends
that: the next page is cleared where the address leads to now (`region_uncleared`).
-/

namespace Bgox

open Run (bind_eq_ok bind_congr_ok)

namespace Window

variable {s s₁ : Vm} {lab : ℕ → Option (List ℕ)} {l : List ℕ} {cr3 t v x y n off va size : ℕ}

/-- The kernel finds its tables, and the pages to come, at its addresses for them. -/
structure Open (cr3 : ℕ) (s : Vm) (lab : ℕ → Option (List ℕ)) : Prop where
  clean : s.clobbered = []
  fresh : s.Fresh
  labels : s.Labels lab
  root : lab cr3 = some []
  low : ∀ x, x ∈ s.tables ∨ x ∈ s.supply → x < 2 ^ 19
  seen : ∀ x, x ∈ s.tables ∨ x ∈ s.supply → translate s.mem cr3 (VADDR (x * 4096)) = some x

/-! ## Accesses -/

theorem page_eq (h : translate s.mem cr3 (VADDR (x * 4096)) = some y) :
    page cr3 s x = .ok y := by
  rw [page, h]

theorem load_eq (h : translate s.mem cr3 (VADDR (n * 4096)) = some n) (off : ℕ) :
    load cr3 s n off = .ok (s.mem n off) := by
  rw [load, page_eq h]
  rfl

theorem store_eq (h : translate s.mem cr3 (VADDR (n * 4096)) = some n) (off e : ℕ) :
    store cr3 s n off e = .ok (s.write n off e) := by
  rw [store, page_eq h]
  exact congrArg Except.ok (if_pos rfl)

/-- A page that is no table is on no way. -/
theorem clear_eq (hw : s.Labels lab) (hroot : lab cr3 = some [])
    (h : translate s.mem cr3 (VADDR (x * 4096)) = some y) (hy : y ∉ s.tables) :
    clear cr3 s x = .ok { s with mem := Radix.clear 0 s.mem y } := by
  have hway : y ∉ Radix.visits entryChild s.mem cr3 (offsets (VADDR (x * 4096))) := fun hmem =>
    hy ((hw.tables y).2 (hw.tree.visits_labelled hroot (by simp [offsets]) hmem))
  rw [clear, page_eq h]
  simp only [bind, Except.bind, if_neg hway, if_neg hy]
  rfl

theorem kmalloc_one {rest : List ℕ} (hsup : s.supply = x :: rest) (hx : x ∉ s.tables) :
    s.kmalloc 1 = .ok ({ s with supply := rest, mem := Radix.clear 0 s.mem x }, x) := by
  obtain ⟨mem, hk⟩ := Vm.exists_kmalloc 1 hsup (by decide) fun t ht hblock =>
    hx (by
      rw [show x = t by rw [show Vm.pagesFor 1 = 1 from rfl] at hblock; omega]
      exact ht)
  obtain ⟨-, -, -, hzero, hother⟩ := Vm.kmalloc_page rfl hk
  have hmem : mem = Radix.clear 0 s.mem x := by
    funext y i
    by_cases hy : y = x
    · subst hy
      simpa [Radix.clear] using hzero i
    · rw [Radix.clear_of_ne hy]
      exact congrFun (hother y hy) i
  rw [hk, hmem]

/-- The tables and the pages to come are among those there were before. -/
theorem kmalloc_before (hk : s.kmalloc 1 = .ok (s₁, y)) :
    ∀ x, x ∈ s₁.tables ∨ x ∈ s₁.supply → x ∈ s.tables ∨ x ∈ s.supply := by
  obtain ⟨hsup, htab, -⟩ := Vm.kmalloc_page rfl hk
  rw [hsup, htab]
  exact fun x hx => hx.imp_right (List.mem_cons_of_mem _)

namespace Open

theorem tables (h : Open cr3 s lab) (hx : x ∈ s.tables) :
    translate s.mem cr3 (VADDR (x * 4096)) = some x := h.seen x (Or.inl hx)

theorem supply (h : Open cr3 s lab) (hx : x ∈ s.supply) :
    translate s.mem cr3 (VADDR (x * 4096)) = some x := h.seen x (Or.inr hx)

/-- What is at the kernel's addresses after a change that no walk has noticed. -/
theorem of_takes {k : ℕ} {lab₁ : ℕ → Option (List ℕ)} (h : Open cr3 s lab)
    (htakes : s.Takes k s₁) (hw : s₁.Labels lab₁) (hroot : lab₁ cr3 = some [])
    (hsame : ∀ x, x ∈ s.tables ∨ x ∈ s.supply → translate s₁.mem cr3 (VADDR (x * 4096))
      = translate s.mem cr3 (VADDR (x * 4096))) : Open cr3 s₁ lab₁ := by
  exact ⟨htakes.clobbered.trans h.clean, htakes.fresh h.fresh, hw, hroot,
    fun x hx => h.low x (htakes.mem_before hx),
    fun x hx => (hsame x (htakes.mem_before hx)).trans (h.seen x (htakes.mem_before hx))⟩

theorem kmalloc_eq (h : Open cr3 s lab) : kmalloc cr3 s = s.kmalloc 1 := by
  unfold kmalloc
  split
  · rename_i hsup
    rw [Vm.kmalloc, hsup]
  · rename_i x rest hsup
    have hx : x ∈ s.supply := hsup ▸ List.mem_cons_self
    have hnew := h.fresh.2 x hx
    have hw : ({ s with supply := rest } : Vm).Labels lab :=
      ⟨h.labels.tree, h.labels.tables, h.labels.marks⟩
    have hclear := clear_eq hw h.root (h.supply hx) hnew
    rw [if_neg hnew, kmalloc_one hsup hnew, hclear]
    rfl

theorem kmalloc (h : Open cr3 s lab) (hk : s.kmalloc 1 = .ok (s₁, x)) : Open cr3 s₁ lab := by
  obtain ⟨hsup, htab, hclob, -, -⟩ := Vm.kmalloc_page rfl hk
  have hc : s₁.clobbered = [] := hclob.trans h.clean
  have hsame : ∀ w, translate s₁.mem cr3 w = translate s.mem cr3 w := fun w => by
    rw [translate, (Vm.kmalloc_data hk).walk hc h.labels h.root w, ← translate]
  have hnodup := h.fresh.1
  rw [hsup, List.nodup_cons] at hnodup
  have hbefore := kmalloc_before hk
  refine ⟨hc, ⟨hnodup.2, fun x hx => ?_⟩, ((Vm.kmalloc_data hk).grows hc h.labels).wf, h.root,
    fun x hx => h.low x (hbefore x hx), fun x hx => (hsame _).trans (h.seen x (hbefore x hx))⟩
  rw [htab]
  exact h.fresh.2 x (by rw [hsup]; exact List.mem_cons_of_mem _ hx)

theorem allocTable_eq (h : Open cr3 s lab) (hn : n ∈ s.tables) (off : ℕ) :
    allocTable cr3 s n off = s.allocTable n off 1 := by
  unfold allocTable Vm.allocTable Vm.newTable
  rw [h.kmalloc_eq, bind_assoc]
  refine bind_congr_ok fun ⟨s', t⟩ hk => ?_
  have hseen := (h.kmalloc hk).tables ((Vm.kmalloc_clobbered hk).2 ▸ hn)
  have hstore := store_eq (s := { s' with tables := t :: s'.tables }) hseen off
    (t * 4096 ||| Vm.rwFlags 1)
  simp only [hstore]
  rfl

/-- One step down to the table in an entry, be it a new one. -/
theorem nextTable (h : Open cr3 s lab) (hn : lab n = some l) (hl : l.length < 3) (hoff : off < 512)
    (hok : s.nextTable n off 1 = .ok (s₁, t)) :
    ∃ lab₁, Open cr3 s₁ lab₁ ∧ lab₁ t = some (l ++ [off]) := by
  obtain ⟨htakes, -⟩ := Vm.nextTable_takes hoff hok
  obtain ⟨lab₁, hgrow, hframe, hlab, -⟩ := Vm.nextTable_grows (fun _ => trivial) h.labels hn hl hoff
    hok (htakes.clobbered.trans h.clean)
  refine ⟨lab₁, h.of_takes htakes hgrow.wf (hgrow.ext.mono _ _ h.root) fun x _ => ?_, hlab⟩
  have hwalk : walk s₁.mem cr3 (VADDR (x * 4096)) = walk s.mem cr3 (VADDR (x * 4096)) :=
    hframe [] cr3 [] _ h.root rfl (by simp [offsets])
  rw [translate, hwalk, ← translate]

theorem allocTable (h : Open cr3 s lab) (hn : lab n = some l) (hl : l.length < 3) (hoff : off < 512)
    (habs : ¬ isPresentPage (s.mem n off) = true) (hok : s.allocTable n off 1 = .ok (s₁, t)) :
    ∃ lab₁, Open cr3 s₁ lab₁ ∧ lab₁ t = some (l ++ [off]) ∧ t ∈ s₁.tables ∧
      ∀ i, ¬ isPresentPage (s₁.mem t i) = true := by
  have hmem : n ∈ s.tables := (h.labels.tables n).2 ⟨l, hn⟩
  obtain ⟨lab₁, h₁, hlab⟩ := h.nextTable hn hl hoff (by rw [Vm.nextTable, if_neg habs, hok])
  refine ⟨lab₁, h₁, hlab, Vm.mem_tables_of_allocTable hoff hok, fun i => ?_⟩
  rw [Vm.allocTable_zero hmem hoff hok]
  decide

theorem mem_tables (h : Open cr3 s lab) (hn : lab n = some l) : n ∈ s.tables :=
  (h.labels.tables n).2 ⟨l, hn⟩

/-! ## A mapping -/

theorem tableFor_eq (h : Open cr3 s lab) (ht : lab t = some []) (v : ℕ) :
    tableFor cr3 s v t = do
      let (s, _, pte) ← s.tablesFor v t 1
      return (s, pte) := by
  unfold tableFor Vm.tablesFor Vm.allocPdpe Vm.allocPde Vm.allocPte
  rw [load_eq (h.tables (h.mem_tables ht))]
  dsimp only [bind, Except.bind]
  by_cases h4 : isPresentPage (s.mem t (pml4Off v)) = true
  · have hpdpe := h.labels.tree _ _ _ _ ht (by simp) (entryChild_eq_some h4)
    rw [if_pos h4, if_pos h4, load_eq (h.tables (h.mem_tables hpdpe))]
    dsimp only
    by_cases h3 : isPresentPage (s.mem (entryPage (s.mem t (pml4Off v))) (pdpeOff v)) = true
    · have hpde := h.labels.tree _ _ _ _ hpdpe (by simp) (entryChild_eq_some h3)
      rw [if_pos h3, if_pos h3, load_eq (h.tables (h.mem_tables hpde))]
      dsimp only
      split_ifs
      · rfl
      · rw [h.allocTable_eq (h.mem_tables hpde)]
        rcases Vm.allocTable _ _ _ _ with e | r <;> rfl
    · rw [if_neg h3, if_neg h3, h.allocTable_eq (h.mem_tables hpdpe)]
      rcases ha : Vm.allocTable _ _ _ _ with e | ⟨sa, pde⟩
      · rfl
      · obtain ⟨laba, hopen, hlab, hmem, -⟩ := h.allocTable hpdpe (by simp) (pdpeOff_lt v) h3 ha
        dsimp only
        rw [hopen.allocTable_eq hmem]
        rcases Vm.allocTable _ _ _ _ with e | r <;> rfl
  · rw [if_neg h4, if_neg h4, h.allocTable_eq (h.mem_tables ht)]
    rcases ha : Vm.allocTable _ _ _ _ with e | ⟨sa, pdpe⟩
    · rfl
    · obtain ⟨laba, hopen, hlab, hmem, hzero⟩ := h.allocTable ht (by simp) (pml4Off_lt v) h4 ha
      dsimp only
      rw [hopen.allocTable_eq hmem]
      rcases hb : Vm.allocTable _ _ _ _ with e | ⟨sb, pde⟩
      · rfl
      · obtain ⟨labb, hopen', -, hmem', -⟩ :=
          hopen.allocTable hlab (by simp) (pdpeOff_lt v) (hzero _) hb
        dsimp only
        rw [hopen'.allocTable_eq hmem']
        rcases Vm.allocTable _ _ _ _ with e | r <;> rfl

theorem tablesFor {pde pte : ℕ} (h : Open cr3 s lab) (ht : lab t = some [])
    (hok : s.tablesFor v t 1 = .ok (s₁, pde, pte)) :
    ∃ lab₁, Open cr3 s₁ lab₁ ∧ pte ∈ s₁.tables := by
  obtain ⟨sa, sb, pdpe, h4, h3, h2⟩ := Vm.tablesFor_ok h.labels ht hok
  obtain ⟨laba, ha, hla⟩ := h.nextTable ht (by simp) (pml4Off_lt v) h4
  obtain ⟨labb, hb, hlb⟩ := ha.nextTable hla (by simp) (pdpeOff_lt v) h3
  obtain ⟨labc, hc, hlc⟩ := hb.nextTable hlb (by simp) (pdeOff_lt v) h2
  exact ⟨labc, hc, hc.mem_tables hlc⟩

theorem initMap_eq (h : Open cr3 s lab) (ht : lab t = some []) (v p : ℕ) :
    initMapVirtPhysAddr cr3 s v p t = s.initMapVirtPhysAddr v p 1 t 1 := by
  rw [initMapVirtPhysAddr, h.tableFor_eq ht, Vm.initMap_one_eq, bind_assoc]
  refine bind_congr_ok fun ⟨s', pde, pte⟩ hok => ?_
  obtain ⟨lab', h', hpte⟩ := h.tablesFor ht hok
  exact store_eq (h'.tables hpte) (pteOff v) (Vm.leafEntry 1 p)

/-- A mapping at none of the kernel's addresses. -/
theorem initMap {p : ℕ} (h : Open cr3 s lab) (ht : lab t = some [])
    (hapart : ∀ x, x ∈ s.tables ∨ x ∈ s.supply → vpage (VADDR (x * 4096)) ≠ vpage v)
    (hok : s.initMapVirtPhysAddr v p 1 t 1 = .ok s₁) :
    ∃ lab₁, Open cr3 s₁ lab₁ ∧ lab₁ t = some [] := by
  obtain ⟨htakes, -⟩ := Vm.initMap_takes h.labels ht h.clean hok
  obtain ⟨lab₁, hgrow, hframe, -⟩ := Vm.initMap_one (fun _ => trivial) h.labels ht hok
    (htakes.clobbered.trans h.clean)
  refine ⟨lab₁, h.of_takes htakes hgrow.wf (hgrow.ext.mono _ _ h.root) fun x hx => ?_,
    hgrow.ext.mono _ _ ht⟩
  have hwalk : walk s₁.mem cr3 (VADDR (x * 4096)) = walk s.mem cr3 (VADDR (x * 4096)) :=
    hframe cr3 [] _ h.root rfl fun he => hapart x hx ((offsets_eq_iff _ _).1 he)
  rw [translate, hwalk, ← translate]

/-! ## A region -/

theorem mapPages : ∀ {n : ℕ} {s : Vm} {lab : ℕ → Option (List ℕ)} {v : ℕ}, Open cr3 s lab →
    lab t = some [] →
    (∀ x, x ∈ s.tables ∨ x ∈ s.supply → vpage (VADDR (x * 4096)) ∉ Vm.vpages v n) →
    Window.mapPages cr3 t n s v = Vm.mapPages t n s v
  | 0, _, _, _, _, _, _ => rfl
  | n + 1, s, lab, v, h, ht, hapart => by
    rw [Window.mapPages, Vm.mapPages_succ, h.kmalloc_eq]
    refine bind_congr_ok fun ⟨s', addr⟩ hk => ?_
    have h' := h.kmalloc hk
    have hsub := kmalloc_before hk
    simp only [Vm.vpages_succ, List.mem_cons, not_or] at hapart
    dsimp only
    rw [h'.initMap_eq ht]
    refine bind_congr_ok fun s'' hm => ?_
    obtain ⟨lab', h'', ht'⟩ := h'.initMap ht (fun x hx => (hapart x (hsub x hx)).1) hm
    obtain ⟨htakes, -⟩ := Vm.initMap_takes h'.labels ht h'.clean hm
    exact h''.mapPages ht' fun x hx => (hapart x (hsub x (htakes.mem_before hx))).2

/-- A region at none of the kernel's addresses. -/
theorem regionAlloc (h : Open cr3 s lab) (ht : lab t = some []) (hsize : 0 < size)
    (hend : va + size + 4095 < 2 ^ 64) (hhalf : va + size ≤ 2 ^ 47 ∨ 2 ^ 64 - 2 ^ 47 ≤ va)
    (hapart : ∀ x, x ∈ s.tables ∨ x ∈ s.supply → ∀ a, va ≤ a → a < va + size →
      a / 4096 ≠ VADDR (x * 4096) / 4096) :
    Window.regionAlloc cr3 s t va size = s.regionAlloc t va size := by
  rw [Vm.regionAlloc_eq_mapPages, Window.regionAlloc, Vm.pages_eq hend]
  refine h.mapPages ht fun x hx hmem => ?_
  obtain ⟨i, hi, hpage⟩ := List.mem_map.1 hmem
  rw [List.mem_range] at hi
  have hlow := h.low x hx
  -- a page of the region has a byte of it
  refine hapart x hx (max va (va - va % 4096 + 4096 * i)) (by omega) ?_ ?_
  · unfold Vm.regionPages at hi
    omega
  · rw [(System.vaddr_page hlow).1] at hpage ⊢
    unfold Vm.regionPages at hi
    unfold Vm.getStartingPage vpage KERNEL_VADDR at hpage
    unfold KERNEL_VADDR
    omega

end Open

end Window

end Bgox
