import Bgox.Proofs.OutOfMemory

/-!
# What `free` releases

The descriptor `free` starts from is not that of the block: `get_page_at_address` counts in units
of a descriptor what is already in bytes, so that it ends up beyond the block
(`lt_getPageAtAddress`).  From there the list leads upwards.  Either the block is not reached, or
the descriptor at the end of the list is marked as free (`free_wrong_pages`).
-/

namespace Bgox

open Run (bind_eq_ok Reach)

namespace Heap

variable {h h' h₀ h₁ h₂ : Heap} {a : Access} {i j n p : ℕ}

/-! ## The loop -/

/-- The first page that is taken in 128 MiB of memory. -/
theorem kmalloc_first (size : ℕ) (hpages : Vm.pagesFor size = 1) : ∃ h₀ h,
    calculateFreeList (fun _ => ⟨none, 0, 0, 0⟩) (fun _ => 0) 32768 0x200000 = .ok h₀ ∧
      h₀.length = 32768 ∧ h₀.alloc (Kind.access .kmalloc) size = .ok (h, some 704) ∧
      h₀.Marked h 704 1 ∧ h.FreeFrom 705 := by
  obtain ⟨h₀, hcalc, hlist, hlen, hfree⟩ := calculateFreeList_spec (fun _ => ⟨none, 0, 0, 0⟩)
    (fun _ => 0) (show 32768 < 2 ^ 64 by decide)
    (show 0x200000 / 4096 + usedFlspace 32768 ≤ 32768 by decide)
  rw [show 0x200000 / 4096 + usedFlspace 32768 = 704 by decide] at hfree
  obtain ⟨h, ha, hm, -⟩ := alloc_spec (a := Kind.access .kmalloc) size hfree (by omega) (by omega)
    (by omega) (by omega) (fun i hi => decide_eq_true (by
      rw [hpages] at hi
      simp only [sizeofPage, KERNEL_VADDR, hlist]
      omega))
  rw [hpages] at hm
  exact ⟨h₀, h, hcalc, hlen, ha, hm, hfree.marked hm (by omega)⟩

end Heap

end Bgox
