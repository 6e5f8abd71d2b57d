import Bgox.Proofs.Mapping

/-!
# Calls that find memory return

`kmalloc` fails only if there is no page left.  One mapping takes at most three, and all of them
become page tables (`Fresh.initMap`).
-/

namespace Bgox

open Run (bind_eq_ok)

namespace Vm

variable {g : ℕ → Prop} {s s₁ s₂ : Vm} {lab : ℕ → Option (List ℕ)} {n m off p pml4 : ℕ}
  {rest : List ℕ}

/-- The pages to come are distinct and no tables. -/
def Fresh (s : Vm) : Prop := s.supply.Nodup ∧ ∀ f ∈ s.supply, f ∉ s.tables

/-- At most `n` pages have been taken, all of them for tables. -/
def Takes (n : ℕ) (s s₁ : Vm) : Prop :=
  ∃ used, used.length ≤ n ∧ s.supply = used ++ s₁.supply ∧ s₁.tables = used.reverse ++ s.tables ∧
    s₁.clobbered = s.clobbered

theorem Takes.refl (s : Vm) : Takes n s s := ⟨[], by simp, rfl, rfl, rfl⟩

theorem Takes.trans (h : Takes n s s₁) (h' : Takes m s₁ s₂) : Takes (n + m) s s₂ := by
  obtain ⟨used, hlen, hsup, htab, hclob⟩ := h
  obtain ⟨used', hlen', hsup', htab', hclob'⟩ := h'
  refine ⟨used ++ used', ?_, ?_, ?_, hclob'.trans hclob⟩
  · rw [List.length_append]
    omega
  · rw [hsup, hsup', List.append_assoc]
  · rw [htab', htab, List.reverse_append, List.append_assoc]

theorem Takes.clobbered (h : Takes n s s₁) : s₁.clobbered = s.clobbered := by
  obtain ⟨-, -, -, -, hclob⟩ := h
  exact hclob

theorem Takes.length_le (h : Takes n s s₁) : s.supply.length ≤ s₁.supply.length + n := by
  obtain ⟨used, hlen, hsup, -, -⟩ := h
  rw [hsup, List.length_append]
  omega

theorem Takes.fresh (h : Takes n s s₁) (hf : s.Fresh) : s₁.Fresh := by
  obtain ⟨used, -, hsup, htab, -⟩ := h
  obtain ⟨hnodup, hnew⟩ := hf
  rw [hsup] at hnodup hnew
  refine ⟨(List.nodup_append.1 hnodup).2.1, fun f hf ht => ?_⟩
  rw [htab, List.mem_append, List.mem_reverse] at ht
  rcases ht with ht | ht
  · exact (List.nodup_append.1 hnodup).2.2 f ht f hf rfl
  · exact hnew f (List.mem_append_right _ hf) ht

theorem Takes.mem_tables (h : Takes n s s₁) {t : ℕ} (ht : t ∈ s₁.tables) :
    t ∈ s.tables ∨ t ∈ s.supply := by
  obtain ⟨used, -, hsup, htab, -⟩ := h
  rw [htab, List.mem_append, List.mem_reverse] at ht
  rcases ht with ht | ht
  · exact Or.inr (hsup ▸ List.mem_append_left _ ht)
  · exact Or.inl ht

theorem Takes.mem_before (h : Takes n s s₁) {x : ℕ} (hx : x ∈ s₁.tables ∨ x ∈ s₁.supply) :
    x ∈ s.tables ∨ x ∈ s.supply := by
  rcases hx with hx | hx
  · exact h.mem_tables hx
  · obtain ⟨used, -, hsup, -, -⟩ := h
    rw [hsup]
    exact Or.inr (List.mem_append_right _ hx)

/-- A block without tables in it. -/
theorem exists_kmalloc (size : ℕ) (hsup : s.supply = p :: rest)
    (hsize : 0 < pagesFor size ∧ pagesFor size < 2 ^ 31)
    (hblock : ∀ t ∈ s.tables, ¬ (p ≤ t ∧ t < p + pagesFor size)) :
    ∃ mem, s.kmalloc size = .ok ({ s with supply := rest, mem }, p) := by
  have hfree : ¬ ∃ t ∈ s.tables, p ≤ t ∧ t < p + pagesFor size :=
    fun ⟨t, ht, hp⟩ => hblock t ht hp
  refine ⟨fun t i => if p ≤ t ∧ t < p + pagesFor size % 2 ^ 20 then 0 else s.mem t i, ?_⟩
  simp only [kmalloc, hsup]
  rw [if_neg (by omega), if_neg hfree]

theorem exists_kmalloc_page (size : ℕ) (hsup : s.supply = p :: rest) (hsize : pagesFor size = 1)
    (hp : p ∉ s.tables) : ∃ mem, s.kmalloc size = .ok ({ s with supply := rest, mem }, p) := by
  refine exists_kmalloc size hsup (by rw [hsize]; decide) fun t ht hpt => hp ?_
  obtain rfl : p = t := by omega
  exact ht

theorem Fresh.newTable (h : s.Fresh) (hlen : s.supply ≠ []) :
    ∃ s₁ t, s.newTable = .ok (s₁, t) ∧ Takes 1 s s₁ := by
  obtain ⟨t, rest, hsup⟩ := List.exists_cons_of_ne_nil hlen
  obtain ⟨mem, hk⟩ := exists_kmalloc_page 1 hsup rfl
    (h.2 t (by rw [hsup]; exact List.mem_cons_self))
  exact ⟨⟨mem, rest, t :: s.tables, s.clobbered⟩, t, by rw [Vm.newTable, hk]; rfl, [t], by simp,
    hsup, rfl, rfl⟩

theorem Fresh.allocTable (h : s.Fresh) (hlen : s.supply ≠ []) (n access : ℕ) (hoff : off < 512) :
    ∃ s₁ t, s.allocTable n off access = .ok (s₁, t) ∧ Takes 1 s s₁ := by
  obtain ⟨s₁, t, hnew, htakes⟩ := h.newTable hlen
  refine ⟨s₁.write n off (t * 4096 ||| rwFlags access), t, by rw [Vm.allocTable, hnew]; rfl, ?_⟩
  rw [write_of_lt hoff]
  exact htakes

theorem Fresh.nextTable (h : s.Fresh) (hlen : s.supply ≠ []) (n access : ℕ) (hoff : off < 512) :
    ∃ s₁ t, s.nextTable n off access = .ok (s₁, t) ∧ Takes 1 s s₁ := by
  unfold Vm.nextTable
  split_ifs
  · exact ⟨s, _, rfl, .refl s⟩
  · exact h.allocTable hlen n access hoff

/-- Three pages are enough for the tables of one address. -/
theorem Fresh.tablesFor (h : s.Fresh) (hlen : 3 ≤ s.supply.length) (hw : s.Wf g lab)
    (hroot : lab pml4 = some []) (v access : ℕ) :
    ∃ s₁ pde pte, s.tablesFor v pml4 access = .ok (s₁, pde, pte) ∧ Takes 3 s s₁ := by
  have hne : ∀ {l : List ℕ}, 0 < l.length → l ≠ [] := fun h => List.length_pos_iff.1 h
  obtain ⟨sa, pdpe, ha, hta⟩ := h.nextTable (hne (by omega)) pml4 access (pml4Off_lt v)
  have hla := hta.length_le
  obtain ⟨sb, pde, hb, htb⟩ :=
    (hta.fresh h).nextTable (hne (by omega)) pdpe access (pdpeOff_lt v)
  have hlb := htb.length_le
  obtain ⟨sc, pte, hc, htc⟩ :=
    (htb.fresh (hta.fresh h)).nextTable (hne (by omega)) pde access (pdeOff_lt v)
  refine ⟨sc, pde, pte, ?_, (hta.trans htb).trans htc⟩
  rw [tablesFor_eq hw hroot]
  simp only [bind, Except.bind, ha, hb, hc, pure, Except.pure]

theorem Fresh.initMap (h : s.Fresh) (hlen : 3 ≤ s.supply.length) (hw : s.Wf g lab)
    (hroot : lab pml4 = some []) (v p access : ℕ) :
    ∃ s₁, s.initMapVirtPhysAddr v p 1 pml4 access = .ok s₁ ∧ Takes 3 s s₁ := by
  obtain ⟨s', pde, pte, ht, htakes⟩ := h.tablesFor hlen hw hroot v access
  refine ⟨s'.write pte (pteOff v) (leafEntry access p), ?_, ?_⟩
  · rw [initMap_one_eq, ht]
    rfl
  · rw [write_of_lt (pteOff_lt v)]
    exact htakes

end Vm

end Bgox
