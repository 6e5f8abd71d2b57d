import Mathlib.Data.List.Count
import Bgox.Proofs.FreeList

/-!
# What the allocators hand out

After `calculate_free_list` the free pages are those from some page `p` on (`FreeFrom`).  All three
allocators take the first `k` of them, and leave the free pages from `p + k` on (`alloc_spec`).  So
the blocks of a run follow one another.

A block is zero-filled when the length passed to `memset` fits in an `int`, and, for the two
functions that use addresses in the upper half, when it lies below 2 GiB (`blocks_disjoint`).
-/

namespace Bgox

open Run (bind_eq_ok)

namespace Heap

variable {h h' : Heap} {a : Access} {i j k n p : ℕ}

/-! ## The loops -/

theorem scan_spec (hfree : h.FreeFrom p) (hp : p < h.length) (pages : ℤ)
    (hpages : pages ≤ int (h.length - p : ℕ)) (hreach : ∀ i ≤ p, h.reaches a i = true) :
    ∀ fuel i count : ℕ, i ≤ p → p < i + fuel →
      h.scan a pages fuel (some i) count = .ok (some (p, count + (p - i)))
  | 0, i, count, hi, hfuel => by omega
  | fuel + 1, i, count, hi, hfuel => by
    rw [scan, if_pos (hreach i hi)]
    by_cases hip : i = p
    · subst hip
      obtain ⟨hused, hsize⟩ := hfree.free i (Nat.le_refl _) hp
      rw [if_pos ⟨hused, hsize ▸ hpages⟩, Nat.sub_self, Nat.add_zero]
    · rw [if_neg (by rw [hfree.used i (by omega)]; omega), hfree.next i (by omega),
        scan_spec hfree hp pages hpages hreach fuel (i + 1) (count + 1) (by omega) (by omega),
        show count + 1 + (p - (i + 1)) = count + (p - i) by omega]

/-- The descriptors of `n` pages from `i` on are taken, with a count that goes down to 1. -/
theorem takePages_spec : ∀ {n i : ℕ} {h : Heap},
    (∀ j, i ≤ j → j < i + n → (h.page j).next = some (j + 1)) →
    (∀ j, i ≤ j → j < i + n → h.reaches a j = true) →
    ∃ page', takePages a n h (some i) = .ok { h with page := page' } ∧
      (∀ j, i ≤ j → j < i + n → page' j = take (h.page j) (int (i + n - j : ℕ))) ∧
      ∀ j, j < i ∨ i + n ≤ j → page' j = h.page j
  | 0, i, h, _, _ => ⟨h.page, rfl, fun j hle hlt => by omega, fun _ _ => rfl⟩
  | n + 1, i, h, hnext, hreach => by
    obtain ⟨page', ht, hin, hout⟩ := takePages_spec (n := n) (i := i + 1)
      (h := { h with page := Function.update h.page i (take (h.page i) (int (n + 1 : ℕ))) })
      (fun j hle hlt => by
        dsimp only
        rw [Function.update_of_ne (by omega)]
        exact hnext j (by omega) (by omega))
      (fun j hle hlt => hreach j (by omega) (by omega))
    dsimp only at ht hin hout
    refine ⟨page', ?_, fun j hle hlt => ?_, fun j hj => ?_⟩
    · rw [takePages, if_pos (hreach i (Nat.le_refl _) (by omega)),
        hnext i (Nat.le_refl _) (by omega)]
      exact ht
    · by_cases hji : j = i
      · subst hji
        rw [hout j (by omega), Function.update_self, show j + (n + 1) - j = n + 1 by omega]
      · rw [hin j (by omega) (by omega), Function.update_of_ne hji,
          show i + 1 + n - j = i + (n + 1) - j by omega]
    · rw [hout j (by omega), Function.update_of_ne (by omega)]

/-- The physical addresses that are reached without wrapping around. -/
def Access.limit : Access → ℕ
  | .phys => 2 ^ 64
  | .virt => 2 ^ 64 - KERNEL_VADDR

theorem toPhys_addr {q : ℕ} (hq : q < a.limit) : a.toPhys (a.addr q) = q := by
  cases a with
  | phys => rfl
  | virt =>
    have haddr : Access.virt.addr q = KERNEL_VADDR + q := by
      simp only [Access.limit, Access.addr, VADDR, KERNEL_VADDR] at hq ⊢
      omega
    rw [haddr, Access.toPhys, if_pos (Nat.le_add_right _ _), Nat.add_sub_cancel_left]

theorem memset_apply : ∀ {n q : ℕ} (mem : ℕ → ℕ) (x : ℕ), q + n ≤ a.limit →
    memset a n mem (a.addr q) x = if q ≤ x ∧ x < q + n then 0 else mem x
  | 0, q, mem, x, _ => by
    rw [if_neg (by omega)]
    rfl
  | n + 1, q, mem, x, hq => by
    -- the address after the last one may be 0
    have hnext : memset a n (Function.update mem q 0) ((a.addr q + 1) % 2 ^ 64)
        = memset a n (Function.update mem q 0) (a.addr (q + 1)) := by
      rcases Nat.eq_zero_or_pos n with rfl | hn
      · rfl
      · congr 1
        cases a <;> simp only [Access.limit, Access.addr, VADDR, KERNEL_VADDR] at hq ⊢ <;> omega
    rw [memset, toPhys_addr (by omega), hnext, memset_apply _ _ (by omega)]
    by_cases hx : x = q
    · subst hx
      rw [if_neg (by omega), if_pos (by omega), Function.update_self]
    · rw [Function.update_of_ne hx]
      exact if_congr (by omega) rfl rfl

/-! ## One call -/

/-- The block of `k` pages at `p` is marked in the descriptors, and nothing else is. -/
structure Marked (h h' : Heap) (p k : ℕ) : Prop where
  freeList : h'.freeList = h.freeList
  length : h'.length = h.length
  inside : ∀ i, p ≤ i → i < p + k → h'.page i = take (h.page i) (p + k - i : ℕ)
  outside : ∀ i, i < p ∨ p + k ≤ i → h'.page i = h.page i

theorem FreeFrom.marked (hfree : h.FreeFrom p) (hm : h.Marked h' p k) (hk : p + k ≤ h.length) :
    h'.FreeFrom (p + k) := by
  refine ⟨hm.length ▸ hk, fun i hi => ?_, fun i hi => ?_, fun i hki hi => ?_⟩
  · rw [hm.length] at hi
    by_cases hin : p ≤ i ∧ i < p + k
    · rw [hm.inside i hin.1 hin.2]
      exact hfree.next i hi
    · rw [hm.outside i (by omega)]
      exact hfree.next i hi
  · by_cases hpi : p ≤ i
    · rw [hm.inside i hpi hi]
      rfl
    · rw [hm.outside i (by omega)]
      exact hfree.used i (by omega)
  · rw [hm.length] at hi ⊢
    rw [hm.outside i (Or.inr hki)]
    exact hfree.free i (by omega) hi

/-- The first `k` of the free pages are taken. -/
theorem alloc_spec (size : ℕ) (hfree : h.FreeFrom p) (hint : h.length - p < 2 ^ 31)
    (hmem : h.length ≤ 2 ^ 52) (hpos : 0 < Vm.pagesFor size)
    (hfits : p + Vm.pagesFor size ≤ h.length)
    (hreach : ∀ i < p + Vm.pagesFor size, h.reaches a i = true) :
    ∃ h', h.alloc a size = .ok (h', some p) ∧ h.Marked h' p (Vm.pagesFor size) ∧
      h'.mem = memset a (Vm.pagesFor size * 4096 % 2 ^ 32) h.mem (a.addr (p * 4096)) := by
  generalize hk : Vm.pagesFor size = k at *
  have hpages : int k = k := int_natCast_of_lt (by omega)
  have hscan := scan_spec hfree (by omega) k (by rw [int_natCast_of_lt hint]; omega)
    (fun i hi => hreach i (by omega)) (h.length + 2) 0 0 (Nat.zero_le _) (by omega)
  obtain ⟨page', ht, hin, hout⟩ := takePages_spec (a := a) (n := k - 1) (i := p + 1)
    (h := { h with
      page := Function.update h.page p (take (h.page p) k)
      mem := memset a (k * 4096 % 2 ^ 32) h.mem (a.addr (p * 4096)) })
    (fun j hle hlt => by
      dsimp only
      rw [Function.update_of_ne (by omega)]
      exact hfree.next j (by omega))
    (fun j hle hlt => hreach j (by omega))
  dsimp only at ht hin hout
  refine ⟨{ h with
      page := page'
      mem := memset a (k * 4096 % 2 ^ 32) h.mem (a.addr (p * 4096)) }, ?_,
    ⟨rfl, rfl, fun i hpi hi => ?_, fun i hi => ?_⟩, rfl⟩
  · have hmemset : ((k : ℤ) * 4096 % 2 ^ 32).toNat = k * 4096 % 2 ^ 32 := by omega
    have htake : (((k : ℤ) - 1) % 2 ^ 32).toNat = k - 1 := by omega
    have hret : p * 4096 % 2 ^ 64 = p * 4096 := by omega
    rw [Nat.sub_zero, Nat.zero_add] at hscan
    rw [alloc, hk, hpages]
    refine bind_eq_ok.2 ⟨_, hscan, bind_eq_ok.2 ⟨_, ?_, rfl⟩⟩
    rw [hmemset, htake, hret, hfree.next p (by omega)]
    exact ht
  · dsimp only
    by_cases hip : i = p
    · subst hip
      rw [hout i (by omega), Function.update_self, Nat.add_sub_cancel_left]
    · rw [hin i (by omega) (by omega), Function.update_of_ne hip, int_natCast_of_lt (by omega),
        show p + 1 + (k - 1) - i = p + k - i by omega]
  · dsimp only
    rw [hout i (by omega), Function.update_of_ne (by omega)]

theorem call_of_alloc {c : Kind} {size : ℕ} (hcall : h.alloc c.access size = .ok (h', some p)) :
    h.call c size = .ok (h', some (c.ret p)) :=
  bind_eq_ok.2 ⟨_, hcall, rfl⟩

/-! ## Runs -/

/-- A call, with the memory as the owners of the blocks have left it. -/
structure Request where
  kind : Kind
  size : ℕ
  mem : ℕ → ℕ

/-- The size in whole pages, rounded up. -/
def Request.pages (r : Request) : ℕ := (r.size + 4095) / 4096

/-- The number of pages that are free. -/
def free (h : Heap) : ℕ := (List.range h.length).countP fun i => (h.page i).used = 0

/-- What is asked of a block of `k` pages at `p`, when `blocks` have been handed out before. -/
structure Handed (lo : ℕ) (h h' : Heap) (blocks : List (ℕ × ℕ)) (p k : ℕ) : Prop where
  lower : lo ≤ p
  upper : p + k ≤ h.length
  zero : ∀ x, p * 4096 ≤ x → x < (p + k) * 4096 → h'.mem x = 0
  disjoint : ∀ b ∈ blocks, p + k ≤ b.1 ∨ b.1 + b.2 ≤ p
  marked : h.Marked h' p k

/-- Every request that fits, and meets `cond`, gets a block of its own. -/
def Served (cond : Heap → Request → Prop) (lo : ℕ) : Heap → List (ℕ × ℕ) → List Request → Prop
  | _, _, [] => True
  | h, blocks, r :: rs => r.pages ≤ h.free → cond h r →
    ∃ h' p, { h with mem := r.mem }.call r.kind r.size = .ok (h', some (r.kind.ret p)) ∧
      Handed lo h h' blocks p r.pages ∧ Served cond lo h' ((p, r.pages) :: blocks) rs

/-- The length of the block fits in an `int`; for the functions that use addresses in the upper half
the block and the descriptors up to its end lie below 2 GiB. -/
def Safe (h : Heap) (r : Request) : Prop :=
  r.pages < 2 ^ 19 ∧ (r.kind ≠ .kmallocInit → h.length - h.free + r.pages ≤ 2 ^ 19 ∧
    h.freeList + sizeofPage * (h.length - h.free + r.pages) ≤ 2 ^ 31)

theorem FreeFrom.free_eq (hfree : h.FreeFrom p) : h.free = h.length - p := by
  have hsplit : List.range h.length = List.range p ++ (List.range (h.length - p)).map (p + ·) := by
    rw [← List.range_add, Nat.add_sub_cancel' hfree.le]
  rw [Heap.free, hsplit, List.countP_append, List.countP_eq_zero.2, List.countP_eq_length.2]
  · simp
  · simp only [List.mem_map, List.mem_range, decide_eq_true_eq]
    rintro _ ⟨j, hj, rfl⟩
    exact (hfree.free (p + j) (by omega) (by omega)).1
  · simp only [List.mem_range, decide_eq_true_eq]
    intro i hi
    rw [hfree.used i hi]
    decide

theorem Request.pagesFor_eq (r : Request) : Vm.pagesFor r.size = r.pages := by
  unfold Vm.pagesFor Request.pages
  split_ifs <;> omega

/-- What `Safe` is for: every address of the call is in reach. -/
theorem Safe.reach {r : Request} (hsafe : h.Safe r) (hfree : h.FreeFrom p)
    (hmem : h.length ≤ 2 ^ 52) (hfits : p + r.pages ≤ h.length) :
    (p + r.pages) * 4096 ≤ r.kind.access.limit ∧
      ∀ i < p + r.pages, h.reaches r.kind.access i = true := by
  have hvirt := hsafe.2
  rw [hfree.free_eq, show h.length - (h.length - p) = p by omega] at hvirt
  unfold sizeofPage at hvirt
  rcases r with ⟨kind | kind | kind, size, mem⟩
  · exact ⟨by simp only [Kind.access, Access.limit]; omega, fun i hi => rfl⟩
  all_goals
    obtain ⟨hblock, hlist⟩ := hvirt (by simp)
    refine ⟨by simp only [Kind.access, Access.limit, KERNEL_VADDR]; omega, fun i hi => ?_⟩
    refine decide_eq_true ?_
    simp only [sizeofPage, KERNEL_VADDR]
    omega

/-- One request: its block is the first part of the free pages. -/
theorem exists_handed {r : Request} {lo : ℕ} {blocks : List (ℕ × ℕ)} (hfree : h.FreeFrom p)
    (hlo : lo ≤ p) (hblocks : ∀ b ∈ blocks, b.1 + b.2 ≤ p) (hint : h.length - p < 2 ^ 31)
    (hmem : h.length ≤ 2 ^ 52) (hpos : 0 < r.size) (hfits : r.pages ≤ h.free) (hsafe : h.Safe r) :
    ∃ h', { h with mem := r.mem }.call r.kind r.size = .ok (h', some (r.kind.ret p)) ∧
      Handed lo h h' blocks p r.pages := by
  have hle := hfree.le
  have hk : p + r.pages ≤ h.length := by
    rw [hfree.free_eq] at hfits
    omega
  obtain ⟨hlimit, hreach⟩ := hsafe.reach hfree hmem hk
  have hfree' : { h with mem := r.mem }.FreeFrom p := ⟨hle, hfree.next, hfree.used, hfree.free⟩
  have hpages : 0 < r.pages := by
    unfold Request.pages
    omega
  rw [← r.pagesFor_eq] at hk hreach hpages
  obtain ⟨h', halloc, hm, hzero⟩ := alloc_spec r.size hfree' hint hmem hpages hk hreach
  rw [r.pagesFor_eq] at hk hm hzero
  refine ⟨h', call_of_alloc halloc, hlo, hk, fun x hx hxk => ?_, fun b hb =>
    Or.inr (hblocks b hb), hm.freeList, hm.length, hm.inside, hm.outside⟩
  have hlen : r.pages * 4096 % 2 ^ 32 = r.pages * 4096 := by
    have := hsafe.1
    omega
  rw [Nat.add_mul] at hlimit hxk
  rw [hzero, hlen, memset_apply _ _ hlimit, if_pos ⟨hx, hxk⟩]

/-- The blocks of a run follow one another. -/
theorem served_of_freeFrom {lo : ℕ} : ∀ {rs : List Request} {h : Heap} {p : ℕ}
    {blocks : List (ℕ × ℕ)}, h.FreeFrom p → lo ≤ p → (∀ b ∈ blocks, b.1 + b.2 ≤ p) →
    h.length - p < 2 ^ 31 → h.length ≤ 2 ^ 52 → (∀ r ∈ rs, 0 < r.size) → Served Safe lo h blocks rs
  | [], _, _, _, _, _, _, _, _, _ => trivial
  | r :: rs, h, p, blocks, hfree, hlo, hblocks, hint, hmem, hpos => by
    intro hfits hsafe
    obtain ⟨h', hcall, hh⟩ := exists_handed hfree hlo hblocks hint hmem
      (hpos r (List.mem_cons_self ..)) hfits hsafe
    have hlen := hh.marked.length
    refine ⟨h', p, hcall, hh, served_of_freeFrom (hfree.marked hh.marked hh.upper) (by omega) ?_
      (by omega) (by omega) fun r hr => hpos r (List.mem_cons_of_mem _ hr)⟩
    intro b hb
    rcases List.mem_cons.1 hb with rfl | hb
    · exact Nat.le_refl _
    · exact Nat.le_add_right_of_le (hblocks b hb)

theorem usedFlspace_of_lt {numPages : ℕ} (hmem : numPages ≤ 2 ^ 52)
    (hF : numPages * 24 / 4096 < 2 ^ 32) : usedFlspace numPages = numPages * 24 / 4096 := by
  rw [usedFlspace, sizeofPage, Nat.mod_eq_of_lt (a := numPages * 24) (by omega),
    Nat.mod_eq_of_lt hF]

/-- No memory is handed out twice, by any mix of the three functions. -/
theorem blocks_disjoint (page : ℕ → Page) (mem : ℕ → ℕ) {numPages physfree : ℕ}
    (hmem : numPages ≤ 2 ^ 52) (hF : numPages * 24 / 4096 < 2 ^ 32)
    (hle : physfree / 4096 + numPages * 24 / 4096 ≤ numPages)
    (hint : numPages - (physfree / 4096 + numPages * 24 / 4096) < 2 ^ 31)
    (rs : List Request) (hpos : ∀ r ∈ rs, 0 < r.size) :
    ∃ h, calculateFreeList page mem numPages physfree = .ok h ∧
      Served Safe (physfree / 4096 + numPages * 24 / 4096) h [] rs := by
  have hspace := usedFlspace_of_lt hmem hF
  obtain ⟨h, hcalc, -, hlen, hfree⟩ := calculateFreeList_spec page mem (by omega)
    (hspace ▸ hle)
  rw [hspace] at hfree
  exact ⟨h, hcalc, served_of_freeFrom hfree (Nat.le_refl _) (by simp) (by omega) (by omega) hpos⟩

/-- A block of 4 GiB: the length passed to `memset` is 0. -/
theorem large_block_not_zeroed : ∃ h,
    calculateFreeList (fun _ => ⟨none, 0, 0, 0⟩) (fun _ => 0) (2 ^ 21) 0x200000 = .ok h ∧
      ¬ Served (fun _ _ => True) (0x200000 / 4096 + 2 ^ 21 * 24 / 4096) h []
        [⟨.kmallocInit, 2 ^ 32, fun _ => 1⟩] := by
  obtain ⟨h, hcalc, -, hlen, hfree⟩ := calculateFreeList_spec (fun _ => ⟨none, 0, 0, 0⟩)
    (fun _ => 0) (show 2 ^ 21 < 2 ^ 64 by decide)
    (show 0x200000 / 4096 + usedFlspace (2 ^ 21) ≤ 2 ^ 21 by decide)
  rw [show 0x200000 / 4096 + usedFlspace (2 ^ 21) = 12800 by decide] at hfree
  refine ⟨h, hcalc, fun hserved => ?_⟩
  have hfree' : { h with mem := fun _ => 1 }.FreeFrom 12800 :=
    ⟨hfree.le, hfree.next, hfree.used, hfree.free⟩
  have hpages : Vm.pagesFor (2 ^ 32) = 2 ^ 20 := by decide
  obtain ⟨h₁, halloc, -, hmem⟩ := alloc_spec (a := Kind.access .kmallocInit) (2 ^ 32) hfree'
    (by dsimp only; omega) (by dsimp only; omega) (by omega) (by dsimp only; omega)
    (fun i hi => rfl)
  obtain ⟨h₂, p, hcall, hh, -⟩ := hserved (by rw [hfree.free_eq, hlen]; decide) trivial
  obtain rfl : h₁ = h₂ :=
    (Prod.mk.inj (Except.ok.inj ((call_of_alloc halloc).symm.trans hcall))).1
  have hpos : 0 < Request.pages ⟨.kmallocInit, 2 ^ 32, fun _ => 1⟩ := by decide
  have hzero := hh.zero (p * 4096) (Nat.le_refl _) (by omega)
  rw [hmem, hpages, show 2 ^ 20 * 4096 % 2 ^ 32 = 0 by decide, memset] at hzero
  exact absurd hzero Nat.one_ne_zero

/-- Three requests in 4 MiB of memory; the first of them gets its block. -/
theorem blocks_disjoint_small : ∃ h h' p,
    calculateFreeList (fun _ => ⟨none, 0, 0, 0⟩) (fun _ => 0) 1024 0x200000 = .ok h ∧
      { h with mem := fun _ => 1 }.kmalloc 8500 = .ok (h', some (Kind.ret .kmalloc p)) ∧
      Handed 518 h h' [] p 3 := by
  obtain ⟨h, hcalc, hserved⟩ := blocks_disjoint (fun _ => ⟨none, 0, 0, 0⟩) (fun _ => 0)
    (show 1024 ≤ 2 ^ 52 by decide) (by decide)
    (show 0x200000 / 4096 + 1024 * 24 / 4096 ≤ 1024 by decide) (by decide)
    [⟨.kmalloc, 8500, fun _ => 1⟩, ⟨.kmallocStack, 4096, fun _ => 2⟩, ⟨.kmallocInit, 1, fun _ => 3⟩]
    (by decide)
  obtain ⟨h₁, hcalc₁, hlist, hlen, hfree⟩ := calculateFreeList_spec (fun _ => ⟨none, 0, 0, 0⟩)
    (fun _ => 0) (show 1024 < 2 ^ 64 by decide)
    (show 0x200000 / 4096 + usedFlspace 1024 ≤ 1024 by decide)
  obtain rfl : h₁ = h := Except.ok.inj (hcalc₁.symm.trans hcalc)
  have hsafe : Safe h₁ ⟨.kmalloc, 8500, fun _ => 1⟩ := by
    rw [Safe, hfree.free_eq, hlen, hlist]
    decide
  obtain ⟨h', p, hcall, hh, -⟩ := hserved (by rw [hfree.free_eq, hlen]; decide) hsafe
  exact ⟨h₁, h', p, hcalc, hcall, hh⟩

end Heap

end Bgox
