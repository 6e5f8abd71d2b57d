import Mathlib.Data.List.Nodup
import Bgox.Proofs.UserSpace

/-!
# What `region_alloc` maps

Every page with a byte of the region gets a page of its own that `kmalloc` has handed out and
cleared, and no other page is touched (`Ready.regionAlloc`).  The tables that are missing on the way
come from `kmalloc` too, between the pages of the region; so it is carried along that a page once
mapped stays out of the supply and of the tables.
-/

namespace Bgox

open Run (bind_eq_ok)

namespace Vm

variable {s s₁ : Vm} {lab : ℕ → Option (List ℕ)} {t va size : ℕ}

/-- `n` pages from `v` on have been mapped. -/
structure Fills (n : ℕ) (s : Vm) (t v : ℕ) (s₁ : Vm) : Prop where
  keeps : ∀ x, s.Taken x → s₁.Taken x ∧ s₁.mem x = s.mem x
  here : ∀ i < n, ∃ page ∈ s.supply, translate s₁.mem t (v + 4096 * i) = some page ∧
    s₁.Taken page ∧ ∀ j, s₁.mem page j = 0
  apart : ∀ i j, i < j → j < n →
    translate s₁.mem t (v + 4096 * i) ≠ translate s₁.mem t (v + 4096 * j)
  others : ∀ w, vpage w ∉ vpages v n → translate s₁.mem t w = translate s.mem t w

theorem Ready.fills : ∀ {n : ℕ} {s s₁ : Vm} {v : ℕ}, s.Ready t → (vpages v n).Nodup →
    mapPages t n s v = .ok s₁ → Fills n s t v s₁
  | 0, s, s₁, v, _, _, hm => by
    obtain rfl := Except.ok.inj hm
    exact ⟨fun x hx => ⟨hx, rfl⟩, by simp, by simp, fun _ _ => rfl⟩
  | n + 1, s, s₁, v, h, hnodup, hm => by
    obtain ⟨sa, addr, sb, hk, hone, hm⟩ := mapPages_succ_ok.1 hm
    obtain ⟨hb, hmap⟩ := h.mapPage hk hone
    rw [vpages_succ, List.nodup_cons] at hnodup
    have hrest := hb.fills hnodup.2 hm
    have hlater : ∀ x ∈ sb.supply, x ∈ s.supply := fun x hx => by
      obtain ⟨used, hsup⟩ := hmap.next
      rw [hsup]
      exact List.mem_cons_of_mem _ (List.mem_append_right _ hx)
    have hfirst : translate s₁.mem t v = some addr := by
      rw [hrest.others v hnodup.1, hmap.here]
    have hshift : ∀ i, v + 4096 * (i + 1) = v + 4096 + 4096 * i := fun i => by omega
    refine ⟨fun x hx => ?_, fun i hi => ?_, fun i j hij hj => ?_, fun w hw => ?_⟩
    · obtain ⟨hx', hmem⟩ := hmap.keeps.1 x hx
      obtain ⟨hx'', hmem'⟩ := hrest.keeps x hx'
      exact ⟨hx'', hmem'.trans hmem⟩
    · cases i with
      | zero =>
        obtain ⟨htaken, hmem⟩ := hrest.keeps addr hmap.taken
        exact ⟨addr, hmap.mem_supply, hfirst, htaken, fun j => by rw [hmem, hmap.zero]⟩
      | succ i =>
        obtain ⟨page, hpage, hrest⟩ := hrest.here i (by omega)
        rw [hshift]
        exact ⟨page, hlater page hpage, hrest⟩
    · obtain ⟨j, rfl⟩ : ∃ k, j = k + 1 := ⟨j - 1, by omega⟩
      cases i with
      | zero =>
        -- the first page is taken when the others are handed out
        obtain ⟨page, hpage, htrans, -⟩ := hrest.here j (by omega)
        rw [hshift, htrans, Nat.mul_zero, Nat.add_zero, hfirst]
        rintro ⟨⟩
        exact hmap.taken.2 hpage
      | succ i =>
        rw [hshift, hshift]
        exact hrest.apart i j (by omega) (by omega)
    · rw [vpages_succ, List.mem_cons, not_or] at hw
      rw [hrest.others w hw.2, hmap.others w hw.1]

/-! ## The pages of a region -/

/-- The number of pages with a byte of a region. -/
def regionPages (va size : ℕ) : ℕ := (va % 4096 + size + 4095) / 4096

theorem pages_eq (hend : va + size + 4095 < 2 ^ 64) :
    (getEndingPage ((va + size) % 2 ^ 64) - getStartingPage va) / 4096 = regionPages va size := by
  unfold getEndingPage getStartingPage regionPages
  omega

theorem regionAlloc_eq (hend : va + size + 4095 < 2 ^ 64) :
    s.regionAlloc t va size = mapPages t (regionPages va size) s (va - va % 4096) := by
  rw [regionAlloc_eq_mapPages, pages_eq hend, getStartingPage]

theorem vpages_nodup {v n : ℕ} (h : n ≤ 2 ^ 36) : (vpages v n).Nodup := by
  refine List.Nodup.map_on (fun i hi j hj heq => ?_) List.nodup_range
  rw [List.mem_range] at hi hj
  unfold vpage at heq
  omega

/-- An address whose bits from 47 on are all equal. -/
def Canonical (a : ℕ) : Prop := a < 2 ^ 47 ∨ 2 ^ 64 - 2 ^ 47 ≤ a ∧ a < 2 ^ 64

/-- A region has come into an address space, and nothing else has changed in it. -/
structure Covers (s : Vm) (t va size : ℕ) (s₁ : Vm) : Prop where
  frames : ∀ a, va ≤ a → a < va + size → ∃ page ∈ s.supply, translate s₁.mem t a = some page ∧
    s₁.Taken page ∧ ∀ i, s₁.mem page i = 0
  apart : ∀ a b, va ≤ a → a < va + size → va ≤ b → b < va + size → a / 4096 ≠ b / 4096 →
    translate s₁.mem t a ≠ translate s₁.mem t b
  others : ∀ w, Canonical w → (∀ a, va ≤ a → a < va + size → a / 4096 ≠ w / 4096) →
    translate s₁.mem t w = translate s.mem t w

/-- The page of a byte of the region. -/
theorem vpage_region {a : ℕ} (ha : va ≤ a) :
    vpage (va - va % 4096 + 4096 * (a / 4096 - va / 4096)) = vpage a := by
  unfold vpage
  omega

theorem Fills.covers (h : Fills (regionPages va size) s t (va - va % 4096) s₁) (hsize : 0 < size)
    (hend : va + size + 4095 < 2 ^ 64) (hhalf : va + size ≤ 2 ^ 47 ∨ 2 ^ 64 - 2 ^ 47 ≤ va) :
    s.Covers t va size s₁ := by
  have hindex : ∀ a, va ≤ a → a < va + size →
      a / 4096 - va / 4096 < regionPages va size := fun a hle hlt => by
    unfold regionPages
    omega
  refine ⟨fun a hle hlt => ?_, fun a b ha ha' hb hb' hne => ?_, fun w hw hout => h.others w ?_⟩
  · rw [← translate_congr (vpage_region hle)]
    exact h.here _ (hindex a hle hlt)
  · rw [← translate_congr (vpage_region ha), ← translate_congr (vpage_region hb)]
    rcases Nat.lt_or_gt_of_ne hne with hlt | hlt
    · exact h.apart _ _ (by omega) (hindex b hb hb')
    · exact (h.apart _ _ (by omega) (hindex a ha ha')).symm
  · -- a page of the region has a byte of it
    intro hmem
    obtain ⟨i, hi, hpage⟩ := List.mem_map.1 hmem
    rw [List.mem_range] at hi
    unfold regionPages at hi
    unfold vpage at hpage
    unfold Canonical at hw
    refine hout (max va (va - va % 4096 + 4096 * i)) (by omega) (by omega) ?_
    omega

/-- `region_alloc` covers its region and nothing else, and does so whenever there is memory. -/
theorem Ready.regionAlloc (h : s.Ready t) (hsize : 0 < size) (hend : va + size + 4095 < 2 ^ 64)
    (hhalf : va + size ≤ 2 ^ 47 ∨ 2 ^ 64 - 2 ^ 47 ≤ va) :
    (4 * regionPages va size ≤ s.supply.length → ∃ s₁, s.regionAlloc t va size = .ok s₁) ∧
      ∀ s₁, s.regionAlloc t va size = .ok s₁ → s.Covers t va size s₁ := by
  rw [regionAlloc_eq hend]
  refine ⟨fun hlen => h.exists_mapPages _ hlen, fun s₁ hm => ?_⟩
  refine (h.fills (vpages_nodup ?_) hm).covers hsize hend hhalf
  unfold regionPages
  omega

end Vm

end Bgox
