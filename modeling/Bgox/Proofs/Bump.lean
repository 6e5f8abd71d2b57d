import Bgox.Proofs.Isolation
import Bgox.Proofs.Nodes

/-!
# The allocator as a counter

Without `free` the blocks of a run follow one another, so all that matters of the descriptors is the
number of the first free page (`bump`).  The proofs about address spaces take the pages `kmalloc`
returns as given, and the memory by words.  Both models do the same, call by call, with these pages
(`agree_bump`), and these are in ascending order (`kmalloc_ascends`).

Here the descriptors are apart from the memory.  They are so in the machine if the array fills its
last page: then it ends where the first block starts, but for the descriptor behind the last one,
which no call comes to that finds a block.  Otherwise the first block is on some of the descriptors.
-/

namespace Bgox

open Mmaps (word word_congr word_zero)
open Run (bind_eq_ok)

namespace Heap

variable {h h' : Heap} {p : ℕ} {r : Request} {vm : Vm}

/-- The pages, word by word, are the memory. -/
def Backs (h : Heap) (vm : Vm) : Prop :=
  ∀ page i, i < 512 → vm.mem page i = word h.mem (page * 4096 + 8 * i)

/-- The blocks that are handed out from the page `p` on. -/
def bump (p : ℕ) : List Request → List ℕ
  | [] => []
  | r :: rs => p :: bump (p + r.pages) rs

def total (rs : List Request) : ℕ := (rs.map Request.pages).sum

/-- Calls in both models, with the memory as it is in them by then: they return the same pages, and
clear the same words. -/
def Agree : Heap → List (Request × Vm) → List ℕ → Prop
  | _, [], ps => ps = []
  | _, _ :: _, [] => False
  | h, (r, vm) :: cs, p :: ps =>
    Backs { h with mem := r.mem } vm → (∀ t ∈ vm.tables, t < p) →
    ∃ h' vm', { h with mem := r.mem }.call r.kind r.size = .ok (h', some (r.kind.ret p)) ∧
      { vm with supply := p :: ps }.kmalloc r.size = .ok (vm', p) ∧ vm'.supply = ps ∧
      Backs h' vm' ∧ Agree h' cs ps

/-- The memory up to the page `n` has addresses in the upper half, and its descriptors have. -/
structure Within (h : Heap) (n : ℕ) : Prop where
  length : n ≤ h.length
  int : h.length < 2 ^ 31
  pages : n < 2 ^ 19
  list : h.freeList + sizeofPage * n ≤ 2 ^ 31

/-- One call: the block is at the first free page. -/
theorem exists_call (hfree : h.FreeFrom p) (hpos : 0 < r.size) (hn : h.Within (p + r.pages)) :
    ∃ h', { h with mem := r.mem }.call r.kind r.size = .ok (h', some (r.kind.ret p)) ∧
      h.Marked h' p r.pages ∧
      h'.mem = fun x => if p * 4096 ≤ x ∧ x < (p + r.pages) * 4096 then 0 else r.mem x := by
  obtain ⟨hlen, hint, hlow, hlist⟩ := hn
  have hsafe : h.Safe r := by
    rw [Safe, hfree.free_eq, show h.length - (h.length - p) = p by omega]
    exact ⟨by omega, fun _ => ⟨by omega, hlist⟩⟩
  obtain ⟨hlimit, hreach⟩ := hsafe.reach hfree (by omega) hlen
  have hfree' : { h with mem := r.mem }.FreeFrom p := ⟨hfree.le, hfree.next, hfree.used, hfree.free⟩
  have hpages : 0 < r.pages := by
    unfold Request.pages
    omega
  have hk := r.pagesFor_eq
  obtain ⟨h', halloc, hm, hmem⟩ := alloc_spec r.size hfree' (by dsimp only; omega)
    (by dsimp only; omega) (by omega) (by dsimp only; omega) (by rw [hk]; exact hreach)
  rw [hk] at hm hmem
  refine ⟨h', call_of_alloc halloc, ⟨hm.freeList, hm.length, hm.inside, hm.outside⟩, ?_⟩
  funext x
  rw [Nat.add_mul] at hlimit ⊢
  rw [hmem, Nat.mod_eq_of_lt (by omega : r.pages * 4096 < 2 ^ 32), memset_apply _ _ hlimit]

/-- The same call in the model of the address spaces. -/
theorem exists_vm_kmalloc {ps : List ℕ} (hpos : 0 < r.size) (hlow : r.pages < 2 ^ 19)
    (htab : ∀ t ∈ vm.tables, t < p) :
    ({ vm with supply := p :: ps } : Vm).kmalloc r.size = .ok ({ vm with
      supply := ps
      mem := fun t i => if p ≤ t ∧ t < p + r.pages then 0 else vm.mem t i }, p) := by
  have hpages : 0 < r.pages := by
    unfold Request.pages
    omega
  have hnone : ¬ ∃ t ∈ vm.tables, p ≤ t ∧ t < p + r.pages := by
    rintro ⟨t, ht, hp, -⟩
    exact absurd (htab t ht) (Nat.not_lt.2 hp)
  simp only [Vm.kmalloc, r.pagesFor_eq]
  rw [if_neg (by omega), if_neg hnone, Nat.mod_eq_of_lt (by omega)]

/-- Blocks are whole pages, so a word is cleared or is as it was. -/
theorem Backs.clear {k : ℕ} {mem : ℕ → ℕ} (hb : Backs { h with mem } vm)
    (hmem : h'.mem = fun x => if p * 4096 ≤ x ∧ x < (p + k) * 4096 then 0 else mem x)
    (ps : List ℕ) :
    Backs h' { vm with
      supply := ps
      mem := fun t i => if p ≤ t ∧ t < p + k then 0 else vm.mem t i } := by
  intro page i hi
  dsimp only
  rw [hmem]
  by_cases hp : p ≤ page ∧ page < p + k
  · rw [if_pos hp, ← word_zero (page * 4096 + 8 * i)]
    exact (word_congr fun j hj => if_pos (by omega)).symm
  · rw [if_neg hp, hb page i hi]
    refine (word_congr fun j hj => ?_).symm
    exact if_neg (by omega)

theorem agree_bump : ∀ {cs : List (Request × Vm)} {h : Heap} {p : ℕ}, h.FreeFrom p →
    (∀ c ∈ cs, 0 < c.1.size) → h.Within (p + total (cs.map Prod.fst)) →
    Agree h cs (bump p (cs.map Prod.fst))
  | [], _, _, _, _, _ => rfl
  | (r, vm) :: cs, h, p, hfree, hpos, hn => by
    intro hb htab
    have hsum : p + total (((r, vm) :: cs).map Prod.fst)
        = p + r.pages + total (cs.map Prod.fst) := by
      simp only [total, List.map_cons, List.sum_cons]
      omega
    rw [hsum] at hn
    obtain ⟨hlen, hint, hlow, hlist⟩ := hn
    have hcall : h.Within (p + r.pages) := ⟨by omega, hint, by omega, by
      refine Nat.le_trans (Nat.add_le_add_left (Nat.mul_le_mul_left _ ?_) _) hlist
      exact Nat.le_add_right _ _⟩
    obtain ⟨h', hcall', hm, hmem⟩ := exists_call hfree (hpos _ List.mem_cons_self) hcall
    refine ⟨h', _, hcall', exists_vm_kmalloc (hpos _ List.mem_cons_self)
      (by have := hcall.pages; omega) htab, rfl, hb.clear hmem _, ?_⟩
    refine agree_bump (hfree.marked hm hcall.length)
      (fun c hc => hpos c (List.mem_cons_of_mem _ hc)) ⟨?_, ?_, hlow, ?_⟩
    · rw [hm.length]
      exact hlen
    · rw [hm.length]
      exact hint
    · rw [hm.freeList]
      exact hlist

theorem bump_bounds : ∀ {rs : List Request} {p : ℕ}, (∀ r ∈ rs, 0 < r.size) →
    (bump p rs).Pairwise (· < ·) ∧ ∀ x ∈ bump p rs, p ≤ x ∧ x < p + total rs
  | [], _, _ => ⟨.nil, by simp [bump]⟩
  | r :: rs, p, hpos => by
    obtain ⟨hsorted, hbounds⟩ := bump_bounds (p := p + r.pages)
      fun r hr => hpos r (List.mem_cons_of_mem _ hr)
    have hr : 0 < r.pages := by
      have := hpos r List.mem_cons_self
      unfold Request.pages
      omega
    have hsum : total (r :: rs) = r.pages + total rs := by simp [total]
    refine ⟨List.pairwise_cons.2 ⟨fun x hx => ?_, hsorted⟩, fun x hx => ?_⟩
    · have := (hbounds x hx).1
      omega
    · rcases List.mem_cons.1 hx with rfl | hx
      · omega
      · have := hbounds x hx
        omega

/-- From the list `calculate_free_list` makes on, if it fills its pages, calls that stay below 2 GiB
do to the memory what they do in the model of the address spaces, with pages in ascending order from
the end of the list on. -/
theorem kmalloc_ascends (page : ℕ → Page) (mem : ℕ → ℕ) {numPages physfree first : ℕ}
    (hint : numPages < 2 ^ 31) (halign : physfree % 4096 = 0)
    (hwhole : sizeofPage * numPages % 4096 = 0)
    (hfirst : first = physfree / 4096 + numPages * 24 / 4096)
    (cs : List (Request × Vm)) (hpos : ∀ c ∈ cs, 0 < c.1.size)
    (hfits : first + total (cs.map Prod.fst) ≤ numPages)
    (hlow : first + total (cs.map Prod.fst) < 2 ^ 19)
    (hlist : physfree + sizeofPage * (first + total (cs.map Prod.fst)) ≤ 2 ^ 31) :
    ∃ h, calculateFreeList page mem numPages physfree = .ok h ∧
      Agree h cs (bump first (cs.map Prod.fst)) ∧
      System.HandedOut first (bump first (cs.map Prod.fst))
        (first + total (cs.map Prod.fst)) ∧
      ∀ p ∈ bump first (cs.map Prod.fst), h.freeList + sizeofPage * h.length ≤ p * 4096 := by
  have hspace : physfree / 4096 + usedFlspace numPages = first := by
    rw [usedFlspace_of_lt (by omega) (by omega), hfirst]
  obtain ⟨h, hcalc, hptr, hlen, hfree⟩ := calculateFreeList_spec page mem
    (show numPages < 2 ^ 64 by omega) (by omega : physfree / 4096 + usedFlspace numPages ≤ numPages)
  rw [hspace] at hfree
  have hsizes : ∀ r ∈ cs.map Prod.fst, 0 < r.size := by
    intro r hr
    obtain ⟨c, hc, rfl⟩ := List.mem_map.1 hr
    exact hpos c hc
  obtain ⟨hsorted, hbounds⟩ := bump_bounds (p := first) hsizes
  refine ⟨h, hcalc, agree_bump hfree hpos ⟨hlen ▸ hfits, hlen ▸ hint, hlow, hptr ▸ hlist⟩,
    ⟨hsorted, fun x hx => (hbounds x hx).1, fun x hx => (hbounds x hx).2, Nat.le_add_right _ _⟩,
    fun x hx => ?_⟩
  have hend : physfree + sizeofPage * numPages = first * 4096 := by
    unfold sizeofPage at hwhole ⊢
    omega
  rw [hptr, hlen, hend]
  exact Nat.mul_le_mul_right _ (hbounds x hx).1

/-- The PML4, the `task_struct` and the stack of a process, in 4 MiB of memory. -/
theorem kmalloc_ascends_small : ∃ h h' vm,
    calculateFreeList (fun _ => ⟨none, 0, 0, 0⟩) (fun _ => 0) 1024 0x200000 = .ok h ∧
      { h with mem := fun _ => 0 }.kmalloc 24 = .ok (h', some (Kind.ret .kmalloc 518)) ∧
      Vm.kmalloc ⟨fun _ _ => 0, [518, 519, 528], [], []⟩ 24 = .ok (vm, 518) ∧ Backs h' vm ∧
      System.HandedOut 518 [518, 519, 528] 529 := by
  obtain ⟨h, hcalc, hagree, hout, -⟩ := kmalloc_ascends (fun _ => ⟨none, 0, 0, 0⟩) (fun _ => 0)
    (show 1024 < 2 ^ 31 by decide) (show 0x200000 % 4096 = 0 by decide) (by decide)
    (show 518 = 0x200000 / 4096 + 1024 * 24 / 4096 by decide)
    ([24, 32976, 1].map fun size => (⟨.kmalloc, size, fun _ => 0⟩, ⟨fun _ _ => 0, [], [], []⟩))
    (by decide) (by decide) (by decide) (by decide)
  obtain ⟨h', vm, hcall, hvm, -, hbacks, -⟩ :=
    hagree (fun _ _ _ => (word_zero _).symm) (by simp)
  exact ⟨h, h', vm, hcalc, hcall, hvm, hbacks, hout⟩

end Heap

end Bgox
