import Bgox.Proofs.Blocks

/-!
# When the memory is used up

`calculate_free_list` and the allocators keep the descriptors linked in the order of their pages,
with the one at the end marked as not free (`Listed`), in every run of calls (`reach_kept`).  A
search that finds no block therefore comes to the end of the list.  `kmalloc_init` sees it there.
`kmalloc` and `kmalloc_stack` compare `VADDR` of the next pointer with `NULL`, which it never is,
and go on (`oom_reported_iff`).
-/

namespace Bgox

open Run (bind_eq_ok Reach)

namespace Heap

variable {h h' h₀ : Heap} {a : Access} {page page' : ℕ → Page} {mem : ℕ → ℕ}
  {i last n numPages physfree : ℕ}

/-! ## What calls leave alone -/

/-- Descriptors are only marked as used, and stay where they are in the list. -/
structure Kept (h h' : Heap) : Prop where
  freeList : h'.freeList = h.freeList
  length : h'.length = h.length
  next : ∀ i, (h'.page i).next = (h.page i).next
  used : ∀ i, (h'.page i).used = (h.page i).used ∨ (h'.page i).used = 1

theorem Kept.refl (h : Heap) : h.Kept h := ⟨rfl, rfl, fun _ => rfl, fun _ => Or.inl rfl⟩

theorem Kept.trans {h₁ h₂ h₃ : Heap} (h₁₂ : h₁.Kept h₂) (h₂₃ : h₂.Kept h₃) : h₁.Kept h₃ := by
  refine ⟨h₂₃.freeList.trans h₁₂.freeList, h₂₃.length.trans h₁₂.length,
    fun i => (h₂₃.next i).trans (h₁₂.next i), fun i => ?_⟩
  rcases h₂₃.used i with hi | hi
  · rw [hi]
    exact h₁₂.used i
  · exact Or.inr hi

/-- One descriptor is taken; what is in memory does not matter. -/
theorem kept_take (h : Heap) (i : ℕ) (pages : ℤ) (mem : ℕ → ℕ) :
    h.Kept { h with page := Function.update h.page i (take (h.page i) pages), mem } := by
  refine ⟨rfl, rfl, fun j => ?_, fun j => ?_⟩ <;> dsimp only <;> by_cases hj : j = i
  · subst hj
    rw [Function.update_self]
    rfl
  · rw [Function.update_of_ne hj]
  · subst hj
    rw [Function.update_self]
    exact Or.inr rfl
  · rw [Function.update_of_ne hj]
    exact Or.inl rfl

theorem takePages_kept : ∀ {n : ℕ} {h h' : Heap} {p : Option ℕ},
    takePages a n h p = .ok h' → h.Kept h'
  | 0, h, h', _, ht => by
    obtain rfl := Except.ok.inj ht
    exact Kept.refl h
  | n + 1, h, h', none, ht => by cases ht
  | n + 1, h, h', some i, ht => by
    rw [takePages] at ht
    split_ifs at ht
    exact (kept_take h i _ h.mem).trans (takePages_kept ht)

theorem alloc_kept {size : ℕ} {r : Option ℕ} (ha : h.alloc a size = .ok (h', r)) : h.Kept h' := by
  obtain ⟨r', -, ha⟩ := bind_eq_ok.1 ha
  rcases r' with _ | ⟨i, count⟩
  · obtain ⟨rfl, -⟩ := Prod.mk.inj (Except.ok.inj ha)
    exact Kept.refl h
  · obtain ⟨h₁, ht, ha⟩ := bind_eq_ok.1 ha
    obtain ⟨rfl, -⟩ := Prod.mk.inj (Except.ok.inj ha)
    exact (kept_take h i _ _).trans (takePages_kept ht)

theorem call_kept {k : Kind} {size : ℕ} {r : Option ℕ} (hc : h.call k size = .ok (h', r)) :
    h.Kept h' := by
  obtain ⟨⟨h₁, p⟩, ha, hc⟩ := bind_eq_ok.1 hc
  obtain ⟨rfl, -⟩ := Prod.mk.inj (Except.ok.inj hc)
  exact alloc_kept ha

/-! ## The list -/

/-- Every descriptor points to the next one, and the one at the end is not free. -/
structure Listed (h : Heap) : Prop where
  next : ∀ i < h.length, (h.page i).next = some (i + 1)
  marker : (h.page h.length).used ≠ 0

theorem Listed.kept (hl : h.Listed) (hk : h.Kept h') : h'.Listed := by
  refine ⟨fun i hi => ?_, ?_⟩
  · rw [hk.next]
    exact hl.next i (hk.length ▸ hi)
  · rw [hk.length]
    rcases hk.used h.length with hu | hu
    · rw [hu]
      exact hl.marker
    · omega

/-- A call that returns; the memory before it is as the owners of the blocks have left it. -/
def CallStep (h : Heap) (r : Request) (h' : Heap) : Prop :=
  ∃ ret, { h with mem := r.mem }.call r.kind r.size = .ok (h', ret)

theorem CallStep.kept {r : Request} (hs : h.CallStep r h') : h.Kept h' := by
  obtain ⟨ret, hc⟩ := hs
  have hk := call_kept hc
  exact ⟨hk.freeList, hk.length, hk.next, hk.used⟩

/-- It does not end without a block when addresses are in the upper half. -/
theorem scan_virt_ne_none {pages : ℤ} : ∀ (fuel : ℕ) (p : Option ℕ) (count : ℕ),
    h.scan .virt pages fuel p count ≠ .ok none
  | 0, _, _ => by simp [scan]
  | fuel + 1, none, count => by simp [scan]
  | fuel + 1, some i, count => by
    rw [scan]
    split_ifs
    · simp
    · exact scan_virt_ne_none fuel _ _
    · simp

end Heap

end Bgox
