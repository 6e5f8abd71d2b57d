import Mathlib.Data.Nat.Bitwise
import Bgox.Lib.Run
import Bgox.Paging

/-!
# The page tables stay tables

The tables below a PML4 are a `Radix.Tree` of four levels, and every page in `tables` has a place
in it (`Vm.Wf`).  What the code does to memory grows the tree (`Grows`): a request for memory and a
store to another page are not seen, a new table goes below an absent entry, and a mapping is an
entry of the last level.  All of this is up to stores that hit a table by accident; a run in which
`clobbered` stays empty has made none.

`g` is a property of the entries that lead to tables.
-/

namespace Bgox

open Run (bind_eq_ok)

/-! ## Entries -/

theorem and_pow_ne_zero (e i : ℕ) : (e &&& 2 ^ i != 0) = decide (e / 2 ^ i % 2 = 1) := by
  rw [Nat.and_two_pow, ← Nat.testBit_eq_decide_div_mod_eq]
  cases e.testBit i <;> simp

theorem isPresentPage_eq (e : ℕ) : isPresentPage e = decide (e % 2 = 1) := by
  have h := and_pow_ne_zero e 0
  rwa [Nat.pow_zero, Nat.div_one] at h

theorem isPageWritable_eq (e : ℕ) : isPageWritable e = decide (e / 2 % 2 = 1) :=
  and_pow_ne_zero e 1

theorem isPageUser_eq (e : ℕ) : isPageUser e = decide (e / 4 % 2 = 1) := and_pow_ne_zero e 2

theorem entryPage_eq (e : ℕ) : entryPage e = e / 4096 := Nat.shiftRight_eq_div_pow e 12

theorem page_or (t : ℕ) {f : ℕ} (hf : f < 4096) : t * 4096 ||| f = t * 4096 + f := by
  have h := Nat.shiftLeft_add_eq_or_of_lt (i := 12) (b := f) (by simpa using hf) t
  rw [Nat.shiftLeft_eq] at h
  exact h.symm

theorem entryChild_zero : entryChild 0 = none := rfl

theorem entryChild_page_or (t : ℕ) {f : ℕ} (hf : f < 4096) (hp : f % 2 = 1) :
    entryChild (t * 4096 ||| f) = some t := by
  rw [page_or t hf, entryChild, isPresentPage_eq, if_pos (by rw [decide_eq_true_eq]; omega),
    entryPage_eq]
  congr 1
  omega

theorem rwFlags_lt (access : ℕ) : Vm.rwFlags access < 4096 := by
  unfold Vm.rwFlags
  split_ifs <;> decide

theorem entryChild_table (t access : ℕ) : entryChild (t * 4096 ||| Vm.rwFlags access) = some t := by
  refine entryChild_page_or t (rwFlags_lt access) ?_
  unfold Vm.rwFlags
  split_ifs <;> rfl

theorem entryChild_eq_none {e : ℕ} (h : ¬ isPresentPage e = true) : entryChild e = none := if_neg h

theorem entryChild_eq_some {e : ℕ} (h : isPresentPage e = true) :
    entryChild e = some (entryPage e) := if_pos h

theorem off_eq (v i : ℕ) : v >>> i &&& 0x1FF = v / 2 ^ i % 512 := by
  rw [Nat.shiftRight_eq_div_pow]
  exact Nat.and_two_pow_sub_one_eq_mod _ 9

theorem pteOff_lt (v : ℕ) : pteOff v < 512 := by
  rw [pteOff, off_eq]
  exact Nat.mod_lt _ (by decide)

theorem pdeOff_lt (v : ℕ) : pdeOff v < 512 := by
  rw [pdeOff, off_eq]
  exact Nat.mod_lt _ (by decide)

theorem pdpeOff_lt (v : ℕ) : pdpeOff v < 512 := by
  rw [pdpeOff, off_eq]
  exact Nat.mod_lt _ (by decide)

theorem pml4Off_lt (v : ℕ) : pml4Off v < 512 := by
  rw [pml4Off, off_eq]
  exact Nat.mod_lt _ (by decide)

namespace Vm

variable {g : ℕ → Prop} {k : ℕ} {s s₁ s₂ : Vm} {lab lab₁ lab₂ : ℕ → Option (List ℕ)} {l : List ℕ}
  {t off : ℕ}

/-- `lab` is the place of each page table. -/
structure Wf (g : ℕ → Prop) (s : Vm) (lab : ℕ → Option (List ℕ)) : Prop where
  tree : Radix.Tree entryChild 4 s.mem lab
  tables : ∀ t, t ∈ s.tables ↔ ∃ l, lab t = some l
  marks : ∀ n l i c, lab n = some l → l.length < 3 → entryChild (s.mem n i) = some c → g (s.mem n i)

/-- The tables have grown, with no new PML4. -/
structure Grows (g : ℕ → Prop) (k : ℕ) (s : Vm) (lab : ℕ → Option (List ℕ)) (s₁ : Vm)
    (lab₁ : ℕ → Option (List ℕ)) : Prop where
  wf : s₁.Wf g lab₁
  ext : Radix.Ext entryChild 4 k s.mem lab s₁.mem lab₁
  roots : ∀ t, lab₁ t = some [] → lab t = some []

abbrev Frame (ks : List ℕ) (s : Vm) (lab : ℕ → Option (List ℕ)) (s₁ : Vm) : Prop :=
  Radix.Frame entryChild 4 ks s.mem lab s₁.mem

theorem Grows.refl (h : s.Wf g lab) : Grows g k s lab s lab := ⟨h, .refl h.tree, fun _ h => h⟩

theorem Grows.trans (h : Grows g k s lab s₁ lab₁) (h' : Grows g k s₁ lab₁ s₂ lab₂) :
    Grows g k s lab s₂ lab₂ :=
  ⟨h'.wf, h.ext.trans h'.ext, fun t ht => h.roots t (h'.roots t ht)⟩

theorem Grows.weaken {j : ℕ} (h : Grows g k s lab s₁ lab₁) (hj : j ≤ k) :
    Grows g j s lab s₁ lab₁ := ⟨h.wf, h.ext.weaken hj, h.roots⟩

theorem Wf.notMem_tables (h : s.Wf g lab) (ht : t ∉ s.tables) : lab t = none := by
  rcases hl : lab t with _ | l
  · rfl
  · exact absurd ((h.tables t).2 ⟨l, hl⟩) ht

/-- Writes to other pages are not seen. -/
theorem Wf.outside (h : s.Wf g lab) (s₁ : Vm) (htab : s₁.tables = s.tables)
    (hmem : ∀ n l, lab n = some l → ∀ i, s₁.mem n i = s.mem n i) :
    Grows g k s lab s₁ lab ∧ ∀ ks, Frame ks s lab s₁ := by
  obtain ⟨hext, hframe⟩ := h.tree.outside (k := k) hmem
  refine ⟨⟨⟨hext.tree, by rw [htab]; exact h.tables, fun n l i c hn hl hc => ?_⟩, hext,
    fun _ h => h⟩, hframe⟩
  rw [hmem n l hn] at hc ⊢
  exact h.marks n l i c hn hl hc

/-! ## Memory -/

theorem kmalloc_ok {size p : ℕ} (h : s.kmalloc size = .ok (s₁, p)) :
    ∃ rest, s.supply = p :: rest ∧ 0 < pagesFor size ∧
      (∀ t ∈ s.tables, ¬ (p ≤ t ∧ t < p + pagesFor size)) ∧
      s₁ = { s with
        supply := rest
        mem := fun t i => if p ≤ t ∧ t < p + pagesFor size % 2 ^ 20 then 0 else s.mem t i } := by
  unfold kmalloc at h
  split at h
  · cases h
  · rename_i p' rest hsup
    split_ifs at h with hsize htab
    obtain ⟨rfl, rfl⟩ := Prod.mk.inj (Except.ok.inj h)
    refine ⟨rest, hsup, by omega, fun t ht hpt => htab ⟨t, ht, hpt⟩, rfl⟩

theorem kmalloc_clobbered {size p : ℕ} (h : s.kmalloc size = .ok (s₁, p)) :
    s₁.clobbered = s.clobbered ∧ s₁.tables = s.tables := by
  obtain ⟨rest, -, -, -, rfl⟩ := kmalloc_ok h
  exact ⟨rfl, rfl⟩

theorem newTable_ok (h : s.newTable = .ok (s₁, t)) :
    ∃ rest, s.supply = t :: rest ∧ t ∉ s.tables ∧
      s₁ = { s with
        supply := rest, mem := Radix.clear 0 s.mem t, tables := t :: s.tables } := by
  obtain ⟨⟨s', t'⟩, hk, h⟩ := bind_eq_ok.1 h
  obtain ⟨rfl, rfl⟩ := Prod.mk.inj (Except.ok.inj h)
  obtain ⟨rest, hsup, -, htab, rfl⟩ := kmalloc_ok hk
  refine ⟨rest, hsup, fun ht => htab t' ht ⟨Nat.le_refl _, Nat.lt_succ_self _⟩, ?_⟩
  congr 1
  funext n i
  by_cases hn : n = t'
  · subst hn
    simp [Radix.clear, pagesFor]
  · have hne : ¬ (t' ≤ n ∧ n < t' + pagesFor 1 % 2 ^ 20) := by
      rw [show pagesFor 1 % 2 ^ 20 = 1 from rfl]
      omega
    rw [Radix.clear_of_ne hn]
    exact if_neg hne

/-! ## Stores to table entries -/

theorem write_of_lt (hoff : off < 512) (e : ℕ) :
    s.write t off e = { s with mem := Radix.set s.mem t off e } := by
  simp [write, Nat.div_eq_of_lt hoff, Nat.mod_eq_of_lt hoff, Nat.not_le.2 hoff]

theorem write_tables (e : ℕ) : (s.write t off e).tables = s.tables := rfl

theorem write_clobbered (s : Vm) (t off e : ℕ) : s.clobbered ⊆ (s.write t off e).clobbered := by
  simp only [write]
  split_ifs
  · exact List.subset_cons_self _ _
  · exact List.Subset.refl _

theorem clobbered_of_subset (h : s.clobbered ⊆ s₁.clobbered) (hc : s₁.clobbered = []) :
    s.clobbered = [] :=
  List.eq_nil_of_subset_nil (hc ▸ h)

/-- Past its end a table is written only at pages that are no tables. -/
theorem write_outside (hoff : 512 ≤ off) {e : ℕ} (hc : (s.write t off e).clobbered = [])
    (hw : s.Wf g lab) : Grows g k s lab (s.write t off e) lab := by
  have hpage : t + off / 512 ∉ s.tables := by
    intro hp
    simp [write, hoff, hp] at hc
  refine (hw.outside _ (write_tables e) fun n l hn i => Radix.set_of_ne e (Or.inl ?_)).1
  rintro rfl
  exact hpage ((hw.tables _).2 ⟨l, hn⟩)

/-- An entry of a table of the last level. -/
theorem write_leaf (hw : s.Wf g lab) (ht : lab t = some l) (hl : l.length = 3) {e : ℕ}
    (hc : (s.write t off e).clobbered = []) : Grows g k s lab (s.write t off e) lab := by
  by_cases hoff : off < 512
  · rw [write_of_lt hoff]
    obtain ⟨hext, -⟩ := hw.tree.leaf (k := k) ht (by omega) off e
    refine ⟨⟨hext.tree, hw.tables, fun n l' i c hn hl' hc => ?_⟩, hext, fun _ h => h⟩
    have hne : Radix.set s.mem t off e n i = s.mem n i := by
      refine Radix.set_of_ne e (Or.inl ?_)
      rintro rfl
      rw [ht] at hn
      cases hn
      omega
    simp only [hne] at hc ⊢
    exact hw.marks n l' i c hn hl' hc
  · exact write_outside (Nat.not_lt.1 hoff) hc hw

theorem fill_clobbered (entry : ℕ → ℕ) : ∀ (n : ℕ) (s : Vm) (t i phys : ℕ),
    s.clobbered ⊆ (fill entry n s t i phys).1.clobbered
  | 0, _, _, _, _ => List.Subset.refl _
  | n + 1, s, t, i, _ =>
    List.Subset.trans (write_clobbered s t i _) (fill_clobbered entry n _ t _ _)

theorem clobbered_of_fill {entry : ℕ → ℕ} {n : ℕ} {s : Vm} {t i phys : ℕ}
    (h : (fill entry n s t i phys).1.clobbered = []) : s.clobbered = [] :=
  clobbered_of_subset (fill_clobbered entry n s t i phys) h

theorem fill_grows {entry : ℕ → ℕ} (hl : l.length = 3) : ∀ {n : ℕ} {s : Vm} {t i phys : ℕ},
    s.Wf g lab → lab t = some l → (fill entry n s t i phys).1.clobbered = [] →
    Grows g k s lab (fill entry n s t i phys).1 lab
  | 0, _, _, _, _, hw, _, _ => .refl hw
  | n + 1, s, t, i, phys, hw, ht, hc => by
    have hg := write_leaf (k := k) hw ht hl (clobbered_of_fill hc)
    exact hg.trans (fill_grows hl hg.wf ht hc)

/-- An entry that leads to the table in its place. -/
theorem write_link {n e c : ℕ} (hw : s.Wf g lab) (hn : lab n = some l) (hoff : off < 512)
    (hge : g e) (he : entryChild e = some c) (hlc : lab c = some (l ++ [off]))
    (habs : entryChild (s.mem n off) = none ∨ k ≤ l.length) :
    Grows g k s lab (s.write n off e) lab := by
  rw [write_of_lt hoff]
  have hext := hw.tree.link (k := k) hn he hlc habs
  refine ⟨⟨hext.tree, hw.tables, fun m l' i c hm hl' hc => ?_⟩, hext, fun _ h => h⟩
  by_cases hmn : m = n ∧ i = off
  · obtain ⟨rfl, rfl⟩ := hmn
    simp only [Radix.set_same]
    exact hge
  · have hold : Radix.set s.mem n off e m i = s.mem m i := Radix.set_of_ne e (by tauto)
    simp only [hold] at hc ⊢
    exact hw.marks m l' i c hm hl' hc

/-! ## New tables -/

/-- A page that is no table yet is given a place. -/
theorem Wf.label (hw : s.Wf g lab) (ht : t ∉ s.tables)
    (hrow : ∀ i c, entryChild (s.mem t i) = some c → lab c = some (l ++ [i]) ∧ g (s.mem t i)) :
    Radix.Ext entryChild 4 k s.mem lab s.mem (Function.update lab t (some l)) ∧
      Wf g { s with tables := t :: s.tables } (Function.update lab t (some l)) := by
  have hlt : lab t = none := hw.notMem_tables ht
  have hext := hw.tree.label (k := k) hlt (l := l) fun i c _ hc => (hrow i c hc).1
  refine ⟨hext, hext.tree, fun tab => ?_, fun m l' i c hm hl' hc => ?_⟩
  · by_cases htab : tab = t
    · simp [htab]
    · simp [htab, hw.tables]
  · by_cases hmt : m = t
    · rw [hmt] at hc ⊢
      exact (hrow i c hc).2
    · exact hw.marks m l' i c (by simpa [hmt] using hm) hl' hc

theorem newTable_grows (hw : s.Wf g lab) (h : s.newTable = .ok (s₁, t)) (hl : l ≠ []) :
    Grows g k s lab s₁ (Function.update lab t (some l)) := by
  obtain ⟨rest, -, ht, rfl⟩ := newTable_ok h
  have hout := (hw.outside (k := k)
    { s with supply := rest, mem := Radix.clear 0 s.mem t } rfl fun n l' hn i => by
      have hnt : n ≠ t := by
        rintro rfl
        exact ht ((hw.tables n).2 ⟨l', hn⟩)
      simp only [Radix.clear_of_ne hnt]).1
  have hzero : ∀ i, Radix.clear 0 s.mem t t i = 0 := fun i => by simp [Radix.clear]
  obtain ⟨hext, hwf⟩ := hout.wf.label (k := k) (l := l) ht fun i c hc => by
    simp only [hzero, entryChild_zero] at hc
    cases hc
  refine ⟨hwf, hout.ext.trans hext, fun m hm => ?_⟩
  by_cases hmt : m = t
  · subst hmt
    exact absurd (by simpa using hm) hl
  · simpa [hmt] using hm

theorem clobbered_of_newTable (h : s.newTable = .ok (s₁, t)) : s₁.clobbered = s.clobbered := by
  obtain ⟨rest, -, -, rfl⟩ := newTable_ok h
  rfl

variable {n access : ℕ}

theorem allocTable_clobbered (h : s.allocTable n off access = .ok (s₁, t)) :
    s.clobbered ⊆ s₁.clobbered := by
  obtain ⟨⟨s', t'⟩, hk, h⟩ := bind_eq_ok.1 h
  obtain ⟨rfl, rfl⟩ := Prod.mk.inj (Except.ok.inj h)
  rw [← clobbered_of_newTable hk]
  exact write_clobbered s' n off _

theorem clobbered_of_allocTable (h : s.allocTable n off access = .ok (s₁, t))
    (hc : s₁.clobbered = []) : s.clobbered = [] :=
  clobbered_of_subset (allocTable_clobbered h) hc

/-- What a new table is. -/
theorem allocTable_ok (hoff : off < 512) (h : s.allocTable n off access = .ok (s₁, t)) :
    t ∉ s.tables ∧ ∃ rest, s.supply = t :: rest ∧
      s₁ = { s with
        supply := rest
        mem := Radix.set (Radix.clear 0 s.mem t) n off (t * 4096 ||| rwFlags access)
        tables := t :: s.tables } := by
  obtain ⟨⟨s', t'⟩, hk, h⟩ := bind_eq_ok.1 h
  obtain ⟨rfl, rfl⟩ := Prod.mk.inj (Except.ok.inj h)
  obtain ⟨rest, hsup, ht, rfl⟩ := newTable_ok hk
  exact ⟨ht, rest, hsup, by rw [write_of_lt hoff]⟩

/-- A new table below an entry that is absent, or below the first `k` levels. -/
theorem allocTable_grows (hg : ∀ t, g (t * 4096 ||| rwFlags access)) (hw : s.Wf g lab)
    (hn : lab n = some l) (habs : off < 512 → entryChild (s.mem n off) = none ∨ k ≤ l.length)
    (h : s.allocTable n off access = .ok (s₁, t)) (hc : s₁.clobbered = []) :
    ∃ lab₁, Grows g k s lab s₁ lab₁ ∧ lab₁ t = some (l ++ [off]) := by
  obtain ⟨⟨s', t'⟩, hk, h⟩ := bind_eq_ok.1 h
  obtain ⟨rfl, rfl⟩ := Prod.mk.inj (Except.ok.inj h)
  have hnew := newTable_grows (k := k) hw hk (l := l ++ [off]) (by simp)
  obtain ⟨rest, -, ht, rfl⟩ := newTable_ok hk
  refine ⟨Function.update lab t' (some (l ++ [off])), hnew.trans ?_, by simp⟩
  by_cases hoff : off < 512
  · have hnt : n ≠ t' := by
      rintro rfl
      exact ht ((hw.tables n).2 ⟨l, hn⟩)
    refine write_link hnew.wf (hnew.ext.mono n l hn) hoff (hg t') (entryChild_table t' access)
      (by simp) ?_
    simp only [Radix.clear_of_ne hnt]
    exact habs hoff
  · exact write_outside (Nat.not_lt.1 hoff) hc hnew.wf

theorem allocTable_frame (hw : s.Wf g lab) (hn : lab n = some l) (hl : l.length < 3)
    (hoff : off < 512) (habs : entryChild (s.mem n off) = none)
    (h : s.allocTable n off access = .ok (s₁, t)) (ks : List ℕ) : Frame ks s lab s₁ := by
  obtain ⟨ht, rest, -, rfl⟩ := allocTable_ok hoff h
  exact hw.tree.alloc_frame entryChild_zero hn (by omega) (hw.notMem_tables ht)
    (entryChild_table t access) habs ks

theorem allocTable_entry (hoff : off < 512) (h : s.allocTable n off access = .ok (s₁, t)) :
    s₁.mem n off = t * 4096 ||| rwFlags access := by
  obtain ⟨-, rest, -, rfl⟩ := allocTable_ok hoff h
  exact Radix.set_same n off _

end Vm

end Bgox
