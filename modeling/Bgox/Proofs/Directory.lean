import Bgox.Lib.Interval
import Bgox.Proofs.UserSpace

/-!
# Mapping pages of one directory

The translations below a PML4 as a map of virtual pages (`Translates`), and the stores of
`init_map_virt_phys_addr` as changes of it: an entry of a table maps one page, the entries one after
the other an interval (`Directory.fill`), and a new table unmaps the 512 pages of the one it
replaces (`Directory.allocTable`).
-/

namespace Bgox

open Run (bind_eq_ok)

/-- The page with index `i` in the table `c` of the directory of an address. -/
def pageOf (v c i : ℕ) : ℕ := (vpage v / 2 ^ 18 * 512 + c) * 512 + i

theorem pageOf_add (v c i k : ℕ) : pageOf v c (i + k) = pageOf v c i + k :=
  (Nat.add_assoc _ _ _).symm

theorem offsets_vpage (w : ℕ) :
    offsets w = [vpage w / 2 ^ 27, vpage w / 2 ^ 18 % 512, vpage w / 512 % 512, vpage w % 512] := by
  simp only [offsets, pml4Off, pdpeOff, pdeOff, pteOff, off_eq, vpage, List.cons.injEq, and_true]
  omega

theorem offsets_eq_pageOf {v w c i : ℕ} (hc : c < 512) (hi : i < 512) :
    offsets w = [pml4Off v, pdpeOff v, c, i] ↔ vpage w = pageOf v c i := by
  have hv := offsets_vpage v
  simp only [offsets, List.cons.injEq] at hv
  rw [offsets_vpage, hv.1, hv.2.1, pageOf]
  simp only [List.cons.injEq, and_true]
  constructor
  · rintro ⟨h4, h3, h2, h1⟩
    omega
  · intro h
    omega

/-- The addresses that go by one entry of the third level. -/
theorem row_iff {v w c : ℕ} (hc : c < 512) : [pml4Off v, pdpeOff v, c] <+: offsets w ↔
    pageOf v c 0 ≤ vpage w ∧ vpage w < pageOf v c 0 + 512 := by
  constructor
  · rintro ⟨is, his⟩
    obtain ⟨i, rfl⟩ : ∃ i, is = [i] := List.length_eq_one_iff.1 (by
      have hlen := congrArg List.length his
      simp only [List.length_append, List.length_cons, List.length_nil, offsets] at hlen
      omega)
    have hw : offsets w = [pml4Off v, pdpeOff v, c, i] := his.symm
    have hi : i < 512 := by
      have hlast := pteOff_lt w
      simp only [offsets, List.cons.injEq, and_true] at hw
      omega
    have hpage := (offsets_eq_pageOf hc hi).1 hw
    unfold pageOf at hpage ⊢
    omega
  · rintro ⟨hle, hlt⟩
    have hi : vpage w - pageOf v c 0 < 512 := by omega
    have hpage : vpage w = pageOf v c (vpage w - pageOf v c 0) := by
      rw [← Nat.zero_add (vpage w - pageOf v c 0), pageOf_add]
      omega
    rw [(offsets_eq_pageOf hc hi).2 hpage]
    exact ⟨[_], rfl⟩

namespace Vm

variable {s s₁ : Vm} {pml4 v pde pte t c i access : ℕ} {m : ℕ → Option ℕ}

/-! ## Translations as a map of pages -/

/-- The translations below a PML4 are `m`. -/
structure Translates (s : Vm) (pml4 : ℕ) (m : ℕ → Option ℕ) : Prop where
  clean : s.clobbered = []
  tree : ∃ lab, s.Labels lab ∧ lab pml4 = some []
  finds : ∀ w, translate s.mem pml4 w = m (vpage w)

/-- With the table of the third level for an address. -/
structure Directory (s : Vm) (pml4 v pde : ℕ) (m : ℕ → Option ℕ) : Prop where
  clean : s.clobbered = []
  tree : ∃ lab pdpe, s.Labels lab ∧ lab pml4 = some [] ∧
    entryChild (s.mem pml4 (pml4Off v)) = some pdpe ∧
    entryChild (s.mem pdpe (pdpeOff v)) = some pde
  finds : ∀ w, translate s.mem pml4 w = m (vpage w)

theorem Directory.translates (h : s.Directory pml4 v pde m) : s.Translates pml4 m := by
  obtain ⟨lab, -, hw, hroot, -⟩ := h.tree
  exact ⟨h.clean, ⟨lab, hw, hroot⟩, h.finds⟩

theorem translate_eq_of_page {mem : ℕ → ℕ → ℕ} {w pdpe : ℕ} (hc : c < 512) (hi : i < 512)
    (h4 : entryChild (mem pml4 (pml4Off v)) = some pdpe)
    (h3 : entryChild (mem pdpe (pdpeOff v)) = some pde)
    (h2 : entryChild (mem pde c) = some pte) (hpage : vpage w = pageOf v c i) :
    translate mem pml4 w = entryChild (mem pte i) := by
  rw [translate, walk, (offsets_eq_pageOf hc hi).2 hpage, Radix.trail_cons_some h4,
    Radix.trail_cons_some h3, Radix.trail_cons_some h2]
  rcases h1 : entryChild (mem pte i) with _ | f
  · rw [Radix.trail_cons_none h1]
    rfl
  · rw [Radix.trail_cons_some h1]
    simp [(isPresentPage_of_entryChild h1).2]

/-- An entry of a table of the last level. -/
theorem Directory.write (h : s.Directory pml4 v pde m) (hc : c < 512) (hi : i < 512)
    (hpte : entryChild (s.mem pde c) = some pte) {e f : ℕ} (he : entryChild e = some f) :
    (s.write pte i e).Directory pml4 v pde (Function.update m (pageOf v c i) (some f)) ∧
      entryChild ((s.write pte i e).mem pde c) = some pte := by
  obtain ⟨lab, pdpe, hw, hroot, h4, h3⟩ := h.tree
  have hl3 := hw.tree _ _ _ _ hroot (by simp) h4
  have hl2 := hw.tree _ _ _ _ hl3 (by simp) h3
  have hl1 := hw.tree _ _ _ _ hl2 (by simp) hpte
  rw [write_of_lt hi]
  have hclean : (s.write pte i e).clobbered = [] := by
    rw [write_of_lt hi]
    exact h.clean
  have hgrow := write_leaf (k := 3) hw hl1 rfl hclean
  rw [write_of_lt hi] at hgrow
  obtain ⟨-, hframe⟩ := hw.tree.leaf (k := 3) hl1 rfl i e
  have hk4 := hgrow.ext.keep _ _ _ _ hroot (by simp) (by simp) h4
  have hk3 := hgrow.ext.keep _ _ _ _ hl3 (by simp) (by simp) h3
  have hk2 := hgrow.ext.keep _ _ _ _ hl2 (by simp) (by simp) hpte
  rw [← hk4] at h4
  rw [← hk3] at h3
  rw [← hk2] at hpte
  refine ⟨⟨h.clean, ⟨lab, pdpe, hgrow.wf, hroot, h4, h3⟩, fun w => ?_⟩, hpte⟩
  by_cases hpage : vpage w = pageOf v c i
  · rw [hpage, Function.update_self, translate_eq_of_page hc hi h4 h3 hpte hpage]
    simp only [Radix.set_same]
    exact he
  · rw [Function.update_of_ne hpage, ← h.finds w, translate, translate, walk, walk,
      hframe pml4 [] (offsets w) hroot rfl fun heq => hpage ((offsets_eq_pageOf hc hi).1 heq)]

/-- The frame `k` pages after an address. -/
def frame (p k : ℕ) : Option ℕ := some (entryPage ((p + 4096 * k) % 2 ^ 64))

/-- One frame is the first one of any number. -/
theorem update_frame (a : ℕ) {p : ℕ} (hp : p < 2 ^ 64) (m : ℕ → Option ℕ) :
    Function.update m a (some (entryPage p)) = Interval.put a 1 (frame p) m := by
  rw [Interval.update_eq_put]
  refine Interval.put_congr fun k hk => ?_
  rw [Nat.lt_one_iff.1 hk, frame, Nat.mul_zero, Nat.add_zero, Nat.mod_eq_of_lt hp]

/-- Frames that go on where others end. -/
theorem put_frame (a n k p : ℕ) (m : ℕ → Option ℕ) :
    Interval.put (a + n) k (frame ((p + 4096 * n) % 2 ^ 64)) (Interval.put a n (frame p) m)
      = Interval.put a (n + k) (frame p) m := by
  refine Interval.put_put fun i _ => ?_
  rw [frame, frame]
  congr 2
  omega

theorem put_frame_succ (a n p : ℕ) (m : ℕ → Option ℕ) :
    Interval.put (a + 1) n (frame ((p + 4096) % 2 ^ 64)) (Interval.put a 1 (frame p) m)
      = Interval.put a (n + 1) (frame p) m := by
  have hput := put_frame a 1 n p m
  rwa [Nat.mul_one, Nat.add_comm 1 n] at hput

/-- The entries of a table from `i` on. -/
theorem Directory.fill {entry : ℕ → ℕ} (hentry : ∀ q, entryChild (entry q) = some (entryPage q))
    (hc : c < 512) : ∀ {n : ℕ} {s : Vm} {m : ℕ → Option ℕ} {i p : ℕ}, s.Directory pml4 v pde m →
    entryChild (s.mem pde c) = some pte → i + n ≤ 512 → p < 2 ^ 64 →
    (Vm.fill entry n s pte i p).1.Directory pml4 v pde
        (Interval.put (pageOf v c i) n (frame p) m) ∧
      entryChild ((Vm.fill entry n s pte i p).1.mem pde c) = some pte ∧
      (Vm.fill entry n s pte i p).2 = (p + 4096 * n) % 2 ^ 64
  | 0, s, m, i, p, h, hpte, _, hp =>
    ⟨by rw [Interval.put_zero]; exact h, hpte, (Nat.mod_eq_of_lt hp).symm⟩
  | n + 1, s, m, i, p, h, hpte, hle, hp => by
    obtain ⟨h', hpte'⟩ := h.write hc (by omega : i < 512) hpte (hentry p)
    obtain ⟨h₁, hpte₁, hnext⟩ := Directory.fill hentry hc (n := n) (i := i + 1) h' hpte' (by omega)
      (Nat.mod_lt (p + 4096) (by decide))
    rw [update_frame _ hp, pageOf_add, put_frame_succ] at h₁
    refine ⟨h₁, hpte₁, ?_⟩
    rw [Vm.fill, hnext]
    omega

/-- A new table, in place of one there may have been. -/
theorem Directory.allocTable (h : s.Directory pml4 v pde m) (hc : c < 512)
    (hok : s.allocTable pde c access = .ok (s₁, t)) :
    s₁.Directory pml4 v pde (Interval.put (pageOf v c 0) 512 (fun _ => none) m) ∧
      entryChild (s₁.mem pde c) = some t := by
  obtain ⟨lab, pdpe, hw, hroot, h4, h3⟩ := h.tree
  have hl3 := hw.tree _ _ _ _ hroot (by simp) h4
  have hl2 := hw.tree _ _ _ _ hl3 (by simp) h3
  have hentry := allocTable_entry hc hok
  have hzero := allocTable_zero ((hw.tables pde).2 ⟨_, hl2⟩) hc hok
  obtain ⟨ht, rest, -, rfl⟩ := allocTable_ok hc hok
  obtain ⟨lab₁, hgrow, -⟩ :=
    allocTable_grows (k := 2) (fun _ => trivial) hw hl2 (fun _ => Or.inr (by simp)) hok h.clean
  have hk4 := hgrow.ext.keep _ _ _ _ hroot (by simp) (by simp) h4
  have hk3 := hgrow.ext.keep _ _ _ _ hl3 (by simp) (by simp) h3
  have hpte := hentry ▸ entryChild_table t access
  rw [← hk4] at h4
  rw [← hk3] at h3
  refine ⟨⟨h.clean, ⟨lab₁, pdpe, hgrow.wf, hgrow.ext.mono _ _ hroot, h4, h3⟩, fun w => ?_⟩, hpte⟩
  by_cases hrow : pageOf v c 0 ≤ vpage w ∧ vpage w < pageOf v c 0 + 512
  · -- a walk that comes by the entry finds the new table empty
    have hi : vpage w - pageOf v c 0 < 512 := by omega
    rw [Interval.put_of_mem hrow.1 hrow.2, translate_eq_of_page hc hi h4 h3 hpte
      (by unfold pageOf at hrow ⊢; omega), hzero, entryChild_zero]
  · rw [Interval.put_of_notMem (by omega), ← h.finds w, translate, translate, walk, walk]
    have hclear : ∀ n l, lab n = some l → ∀ i, Radix.clear 0 s.mem t n i = s.mem n i := by
      intro n l hn i
      rw [Radix.clear_of_ne]
      rintro rfl
      exact ht ((hw.tables n).2 ⟨l, hn⟩)
    have htree := (hw.tree.outside (k := 2) hclear).1.tree
    rw [htree.trail_set hl2 hroot rfl, hw.tree.trail_congr (fun n l hn _ => hclear n l hn) hroot
      (Nat.zero_le _) (by simp [offsets])]
    exact fun hentry => hrow ((row_iff hc).1 hentry)

theorem entryChild_or (p access : ℕ) : entryChild (p ||| rwFlags access) = some (entryPage p) := by
  have hbit : isPresentPage (p ||| rwFlags access) = true := by
    rw [isPresentPage, Nat.and_or_distrib_right]
    unfold rwFlags
    split_ifs <;> simp [Nat.or_eq_zero_iff]
  rw [entryChild_eq_some hbit, entryPage, Nat.shiftRight_or_distrib]
  unfold rwFlags
  split_ifs <;> simp [entryPage]

/-- Whole tables, from the one with index `off` on. -/
theorem Directory.fillTables : ∀ {n : ℕ} {s : Vm} {m : ℕ → Option ℕ} {off p last q : ℕ},
    s.Directory pml4 v pde m → off + n ≤ 512 → p < 2 ^ 64 →
    Vm.fillTables access n s pde off p = .ok (s₁, last, q) →
    s₁.Directory pml4 v pde
        (Interval.put (pageOf v off 0) (512 * n) (frame p) m) ∧
      last = off + n ∧ q = (p + 4096 * (512 * n)) % 2 ^ 64
  | 0, s, m, off, p, last, q, h, _, hp, hok => by
    obtain ⟨rfl, hpair⟩ := Prod.mk.inj (Except.ok.inj hok)
    obtain ⟨rfl, rfl⟩ := Prod.mk.inj hpair
    exact ⟨by rw [Nat.mul_zero, Interval.put_zero]; exact h, rfl, (Nat.mod_eq_of_lt hp).symm⟩
  | n + 1, s, m, off, p, last, q, h, hle, hp, hok => by
    obtain ⟨-, s', pte, ha, hok⟩ := fillTables_succ_ok hok
    obtain ⟨h', hpte⟩ := h.allocTable (by omega) ha
    obtain ⟨hfill, -, hnext⟩ := h'.fill (fun q => entryChild_or q access) (by omega : off < 512)
      (n := 512) (i := 0) hpte (by decide) hp
    rw [Interval.put_of_subset (Nat.le_refl _) (Nat.le_refl _)] at hfill
    rw [hnext] at hok
    obtain ⟨h₁, rfl, rfl⟩ :=
      hfill.fillTables (by omega) (Nat.mod_lt _ (by decide)) hok
    have hrow : pageOf v (off + 1) 0 = pageOf v off 0 + 512 := by
      unfold pageOf
      omega
    rw [hrow, put_frame] at h₁
    refine ⟨?_, by omega, by omega⟩
    rw [Nat.mul_succ, Nat.add_comm (512 * n) 512]
    exact h₁

theorem Translates.tablesFor (h : s.Translates pml4 m)
    (hok : s.tablesFor v pml4 access = .ok (s₁, pde, pte)) :
    s₁.Directory pml4 v pde m ∧ entryChild (s₁.mem pde (pdeOff v)) = some pte := by
  obtain ⟨lab, hw, hroot⟩ := h.tree
  have hclean : s₁.clobbered = [] := by
    obtain ⟨sa, sb, pdpe, h4, h3, h2⟩ := tablesFor_ok hw hroot hok
    rw [(nextTable_takes (pdeOff_lt v) h2).1.clobbered,
      (nextTable_takes (pdpeOff_lt v) h3).1.clobbered,
      (nextTable_takes (pml4Off_lt v) h4).1.clobbered, h.clean]
  obtain ⟨lab₁, pdpe, hgrow, hframe, -, -, -, h4, h3, h2⟩ :=
    tablesFor_grows (fun _ => trivial) hw hroot hok hclean
  refine ⟨⟨hclean, ⟨lab₁, pdpe, hgrow.wf, hgrow.ext.mono _ _ hroot, h4, h3⟩, fun w => ?_⟩, h2⟩
  rw [← h.finds w, translate, translate, walk, walk,
    hframe [] pml4 [] (offsets w) hroot rfl (by simp [offsets])]

theorem pageOf_self (v : ℕ) : pageOf v (pdeOff v) (pteOff v) = vpage v := by
  rw [pageOf, pdeOff, pteOff, off_eq, off_eq]
  unfold vpage
  omega

/-! ## One call for each page -/

/-- The calls for `n` pages, one after the other. -/
def mapEach (access pml4 : ℕ) : ℕ → Vm → ℕ → ℕ → Except Trap Vm
  | 0, s, _, _ => .ok s
  | n + 1, s, v, p => do
    let s ← s.initMapVirtPhysAddr v p 1 pml4 access
    mapEach access pml4 n s ((v + 4096) % 2 ^ 64) ((p + 4096) % 2 ^ 64)

theorem Translates.initMap_one {p : ℕ} (h : s.Translates pml4 m)
    (hok : s.initMapVirtPhysAddr v p 1 pml4 access = .ok s₁) :
    s₁.Translates pml4 (Function.update m (vpage v) (some (entryPage p))) := by
  rw [initMap_one_eq] at hok
  obtain ⟨⟨s', pde, pte⟩, ht, hok⟩ := bind_eq_ok.1 hok
  obtain rfl := Except.ok.inj hok
  obtain ⟨hdir, hpte⟩ := h.tablesFor ht
  obtain ⟨h₁, -⟩ := hdir.write (pdeOff_lt v) (pteOff_lt v) hpte (entryChild_leafEntry access p)
  rw [pageOf_self] at h₁
  exact h₁.translates

theorem Translates.mapEach : ∀ {n : ℕ} {s : Vm} {m : ℕ → Option ℕ} {v p : ℕ},
    s.Translates pml4 m → vpage v + n ≤ 2 ^ 36 → p < 2 ^ 64 →
    Vm.mapEach access pml4 n s v p = .ok s₁ →
    s₁.Translates pml4 (Interval.put (vpage v) n (frame p) m)
  | 0, s, m, v, p, h, _, _, hok => by
    obtain rfl := Except.ok.inj hok
    rwa [Interval.put_zero]
  | n + 1, s, m, v, p, h, hle, hp, hok => by
    obtain ⟨s', hs', hok⟩ := bind_eq_ok.1 hok
    have h' := h.initMap_one hs'
    rw [update_frame _ hp] at h'
    cases n with
    | zero =>
      obtain rfl := Except.ok.inj hok
      exact h'
    | succ n =>
      have hnext : vpage ((v + 4096) % 2 ^ 64) = vpage v + 1 := by
        unfold vpage at hle ⊢
        omega
      have hrest := h'.mapEach (by rw [hnext]; omega) (Nat.mod_lt _ (by decide)) hok
      rw [hnext, put_frame_succ] at hrest
      exact hrest

end Vm

end Bgox
