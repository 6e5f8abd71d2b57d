import Bgox.Proofs.Bump

/-!
# The two models of memory maps

`vma_malloc` and `region_alloc` are in two models: with the descriptors of the allocator and the
memory by bytes, for the question who owns a node, and with address spaces and the memory by words,
for what a process sees.  If the memory is the same and the next pages are the same, `vma_malloc`
does the same in both, as long as the nodes are at pages below 2 GiB (`vmaMalloc_agree`), and
`region_alloc` takes the same pages (`regionAlloc_agree`).
-/

namespace Bgox

open Run (bind_eq_ok)

/-! ## The pages `region_alloc` takes -/

namespace Vm

variable {s s₁ : Vm} {n off access t v pml4 : ℕ}

theorem allocTable_suffix (h : s.allocTable n off access = .ok (s₁, t)) :
    s₁.supply <:+ s.supply := by
  obtain ⟨⟨s', t'⟩, hnew, h⟩ := bind_eq_ok.1 h
  obtain ⟨rfl, rfl⟩ := Prod.mk.inj (Except.ok.inj h)
  obtain ⟨⟨s'', t''⟩, hk, hnew⟩ := bind_eq_ok.1 hnew
  obtain ⟨rfl, rfl⟩ := Prod.mk.inj (Except.ok.inj hnew)
  exact ⟨[t''], (kmalloc_supply hk).symm⟩

theorem tablesFor_suffix {pde pte : ℕ} (h : s.tablesFor v pml4 access = .ok (s₁, pde, pte)) :
    s₁.supply <:+ s.supply := by
  refine (tablesFor_reach h).invariant (P := fun s' => s'.supply <:+ s.supply) List.suffix_rfl ?_
  rintro s' entry s'' ih ⟨t, ha⟩
  exact (allocTable_suffix ha).trans ih

theorem initMap_suffix {p : ℕ} (h : s.initMapVirtPhysAddr v p 1 pml4 access = .ok s₁) :
    s₁.supply <:+ s.supply := by
  rw [initMap_one_eq] at h
  obtain ⟨⟨s', pde, pte⟩, ht, h⟩ := bind_eq_ok.1 h
  obtain rfl := Except.ok.inj h
  show s'.supply <:+ s.supply
  exact tablesFor_suffix ht

theorem calls_congr {f g : ℕ → ℕ} : ∀ {n v : ℕ}, (∀ u, v ≤ u → f u = g u) →
    Mmaps.calls f n v = Mmaps.calls g n v
  | 0, _, _ => rfl
  | n + 1, v, h => by
    rw [Mmaps.calls, Mmaps.calls, h v (Nat.le_refl v),
      calls_congr fun u hu => h u (Nat.le_trans (Nat.le_add_right v 4096) hu)]

/-- One page for every page of the region, and as many as there are tables to make. -/
theorem mapPages_takes : ∀ {n : ℕ} {s s₁ : Vm} {v : ℕ}, mapPages pml4 n s v = .ok s₁ →
    ∃ tables used, s.supply = used ++ s₁.supply ∧ used.length = Mmaps.calls tables n v
  | 0, s, s₁, v, h => by
    obtain rfl := Except.ok.inj h
    exact ⟨fun _ => 0, [], rfl, rfl⟩
  | n + 1, s, s₁, v, h => by
    obtain ⟨sa, addr, sb, ha, hb, h⟩ := mapPages_succ_ok.1 h
    obtain ⟨tables, used, hused, hlen⟩ := mapPages_takes h
    obtain ⟨new, hnew⟩ := initMap_suffix hb
    refine ⟨fun u => if u = v then new.length else tables u, addr :: (new ++ used), ?_, ?_⟩
    · rw [kmalloc_supply ha, ← hnew, hused, List.cons_append, List.append_assoc]
    · have hrest : Mmaps.calls (fun u => if u = v then new.length else tables u) n (v + 4096)
          = Mmaps.calls tables n (v + 4096) := calls_congr fun u hu => if_neg (by omega)
      rw [Mmaps.calls, if_pos rfl, hrest, List.length_cons, List.length_append, hlen]

end Vm

namespace Mmaps

variable {s : Mmaps} {vm vm' : Vm} {i p : ℕ}

/-- With the same pages to come, `region_alloc` takes the same ones in both models, for the right
numbers of page tables. -/
theorem regionAlloc_agree {pml4 va size n : ℕ} (hi : s.Inv p) (hroom : s.heap.Room n)
    (hsup : vm.supply = List.range' p n) (h : vm.regionAlloc pml4 va size = .ok vm') :
    ∃ tables s' k, s.regionAlloc va size tables = .ok s' ∧
      vm'.supply = List.range' (p + k) (n - k) ∧ s'.Inv (p + k) ∧
      s'.blocks = ((List.range' p k).map Block.page).reverse ++ s.blocks := by
  rw [Vm.regionAlloc_eq_mapPages] at h
  obtain ⟨tables, used, hused, hlen⟩ := Vm.mapPages_takes h
  obtain ⟨k, hk, rfl, hrest⟩ := List.range'_eq_append_iff.1 (hsup.symm.trans hused)
  rw [List.length_range'] at hlen
  rw [Nat.mul_one] at hrest
  obtain ⟨s', hs, hi', hblocks⟩ := exists_kmallocs hi (hi.free.room_of_le hroom hk)
  refine ⟨tables, s', k, ?_, hrest, hi', hblocks⟩
  rw [regionAlloc, mapPages_eq, regionPages, ← hlen]
  exact hs

/-! ## Nodes -/

/-- The nodes of a memory map from the one at the page `p` on, each at the start of a page. -/
def NodesFrom (vm : Vm) : ℕ → List ℕ → Prop
  | p, [] => p < 2 ^ 19 ∧ vm.mem p 7 = 0
  | p, q :: qs => p < 2 ^ 19 ∧ vm.mem p 7 = VADDR (q * 4096) ∧ NodesFrom vm q qs

theorem NodesFrom.lt : ∀ {p : ℕ} {qs : List ℕ}, NodesFrom vm p qs → p < 2 ^ 19
  | _, [], h => h.1
  | _, _ :: _, h => h.1

theorem nextAt_vaddr {p : ℕ} (hp : p < 2 ^ 19) : nextAt (VADDR (p * 4096)) = p * 4096 + 56 := by
  have hadd : (VADDR (p * 4096) + vmNext) % 2 ^ 64 = KERNEL_VADDR + (p * 4096 + 56) := by
    rw [(System.vaddr_page hp).1, vmNext, KERNEL_VADDR]
    omega
  rw [nextAt, hadd, Heap.Access.toPhys, if_pos (Nat.le_add_right _ _), Nat.add_sub_cancel_left]

/-- Both find the same last node. -/
theorem lastVma_agree (hb : s.heap.Backs vm) : ∀ {fuel p : ℕ} {qs : List ℕ}, NodesFrom vm p qs →
    qs.length < fuel → ∃ last < 2 ^ 19, Vm.lastVma fuel vm p = .ok last ∧
      lastVma s.heap.mem fuel (VADDR (p * 4096)) = .ok (VADDR (last * 4096))
  | 0, _, _, _, hfuel => absurd hfuel (Nat.not_lt_zero _)
  | fuel + 1, p, [], ⟨hp, hnext⟩, _ => by
    have hword := hb p 7 (by decide)
    rw [hnext] at hword
    refine ⟨p, hp, by simp [Vm.lastVma, hnext], ?_⟩
    rw [lastVma, nextAt_vaddr hp, if_pos hword.symm]
  | fuel + 1, p, q :: qs, ⟨hp, hnext, hq⟩, hfuel => by
    have hword := hb p 7 (by decide)
    rw [hnext] at hword
    obtain ⟨hnull, hpage⟩ := Vm.node_address q hq.lt
    obtain ⟨last, hlt, hvm, hmem⟩ := lastVma_agree hb hq (Nat.lt_of_succ_lt_succ hfuel)
    refine ⟨last, hlt, ?_, ?_⟩
    · rw [Vm.lastVma]
      simp only [hnext, hnull, if_false, hpage, Nat.mul_mod_left, if_true]
      rw [Nat.mul_div_cancel _ (by decide)]
      exact hvm
    · rw [lastVma, nextAt_vaddr hp, ← hword, if_neg hnull]
      exact hmem

/-- A word of a page is stored. -/
theorem backs_poke {h : Heap} (hb : h.Backs vm) {page j w : ℕ} (hj : j < 512) (hw : w < 2 ^ 64) :
    Heap.Backs { h with mem := setWord h.mem (page * 4096 + 8 * j) w } (vm.poke page j w) := by
  intro page' j' hj'
  dsimp only [Vm.poke]
  by_cases hsame : page' = page ∧ j' = j
  · obtain ⟨rfl, rfl⟩ := hsame
    rw [word_setWord_self _ _ hw, Radix.set_same]
  · rw [word_setWord_of_disjoint _ _ (by omega), ← hb page' j' hj', Radix.set_of_ne]
    rwa [ne_eq, ne_eq, ← not_and_or]

/-- An `mm_struct` in both models. -/
def SameMm (m : MmStruct) (m' : Vm.Mm) : Prop :=
  m.count = m'.count ∧ m.mmap = m'.mmap.elim 0 fun p => VADDR (p * 4096)

/-- The first node of an `mm_struct`. -/
theorem vmaMalloc_agree_none {m : Vm.Mm} {ps : List ℕ} (hfree : s.heap.FreeFrom p)
    (hn : s.heap.Within (p + 1)) (hb : s.heap.Backs vm) (hsup : vm.supply = p :: ps)
    (htab : ∀ t ∈ vm.tables, t < p) (hmm : SameMm (s.mm i) m) (hnone : m.mmap = none) :
    ∃ s' vm' m' node, s.vmaMalloc i = .ok s' ∧ vm.vmaMalloc m = .ok (vm', m', node) ∧
      s'.heap.Backs vm' ∧ SameMm (s'.mm i) m' ∧
      s'.nodes = ⟨i, VADDR (node * 4096)⟩ :: s.nodes := by
  obtain ⟨hcount, hmmap⟩ := hmm
  rw [hnone, Option.elim_none] at hmmap
  have hpos : 0 < sizeofVma := by decide
  have hpages : Heap.Request.pages ⟨.kmalloc, sizeofVma, s.heap.mem⟩ = 1 := by
    simp [Heap.Request.pages, sizeofVma]
  have hret : Heap.Kind.ret .kmalloc p = VADDR (p * 4096) := by
    have hlow := hn.pages
    rw [Heap.Kind.ret, Nat.mod_eq_of_lt (by omega)]
  obtain ⟨h', hcall, -, hmem⟩ := Heap.exists_call (r := ⟨.kmalloc, sizeofVma, s.heap.mem⟩) hfree
    hpos (by rwa [hpages])
  rw [hret] at hcall
  have hk : s.heap.kmalloc sizeofVma = .ok (h', some (VADDR (p * 4096))) := hcall
  have hvm : ({ vm with supply := p :: ps } : Vm).kmalloc sizeofVma = _ :=
    Heap.exists_vm_kmalloc (r := ⟨.kmalloc, sizeofVma, s.heap.mem⟩) hpos
      (by rw [hpages]; decide) htab
  rw [← hsup] at hvm
  have hstep : s.vmaMalloc i = .ok { s with
      heap := h'
      mm := Function.update s.mm i ⟨m.count + 1, VADDR (p * 4096)⟩
      nodes := ⟨i, VADDR (p * 4096)⟩ :: s.nodes
      blocks := ⟨some i, VADDR (p * 4096), Vm.pagesFor sizeofVma * 4096⟩ :: s.blocks } := by
    rw [vmaMalloc, if_neg (not_not.2 hmmap), hcount]
    simp only [Mmaps.kmalloc, hk, bind, Except.bind, pure, Except.pure]
  refine ⟨_, _, _, p, hstep, Vm.vmaMalloc_first hnone hvm, hb.clear hmem ps, ?_, rfl⟩
  simp [SameMm]

/-- Any other one. -/
theorem vmaMalloc_agree_some {m : Vm.Mm} {q : ℕ} {qs : List ℕ} (hb : s.heap.Backs vm)
    (hmm : SameMm (s.mm i) m) (hsome : m.mmap = some q) (hq : NodesFrom vm q qs)
    (hlen : qs.length ≤ m.count) :
    ∃ s' vm' m' node, s.vmaMalloc i = .ok s' ∧ vm.vmaMalloc m = .ok (vm', m', node) ∧
      s'.heap.Backs vm' ∧ SameMm (s'.mm i) m' ∧
      s'.nodes = ⟨i, VADDR (node * 4096)⟩ :: s.nodes := by
  obtain ⟨hcount, hmmap⟩ := hmm
  rw [hsome, Option.elim_some] at hmmap
  obtain ⟨last, hlt, hvm, hlast⟩ := lastVma_agree hb hq (Nat.lt_succ_of_le hlen)
  have hnode : (VADDR (last * 4096) + sizeofVma * sizeofVma) % 2 ^ 64
      = VADDR ((last + 1) * 4096) := by
    rw [(System.vaddr_page hlt).1, VADDR, Nat.succ_mul, ← Nat.add_assoc]
    rfl
  have hstep : s.vmaMalloc i = .ok { s with
      heap := { s.heap with
        mem := setWord s.heap.mem (last * 4096 + 8 * 7) (VADDR ((last + 1) * 4096)) }
      mm := Function.update s.mm i ⟨m.count + 1, VADDR (q * 4096)⟩
      nodes := ⟨i, VADDR ((last + 1) * 4096)⟩ :: s.nodes } := by
    rw [vmaMalloc, if_pos (hmmap ▸ (Vm.node_address q hq.lt).1), hmmap, hcount, hlast]
    simp only [bind, Except.bind, hnode, nextAt_vaddr hlt]
    rfl
  refine ⟨_, _, _, last + 1, hstep, Vm.vmaMalloc_last hsome hvm, ?_, ?_, rfl⟩
  · exact backs_poke hb (by decide) (Nat.mod_lt _ (by decide))
  · simp [SameMm, hsome]

/-- With the same memory and the same page to come, `vma_malloc` returns the same node in both
models, and leaves the same memory. -/
theorem vmaMalloc_agree {m : Vm.Mm} {ps : List ℕ} (hfree : s.heap.FreeFrom p)
    (hn : s.heap.Within (p + 1)) (hb : s.heap.Backs vm) (hsup : vm.supply = p :: ps)
    (htab : ∀ t ∈ vm.tables, t < p) (hmm : SameMm (s.mm i) m)
    (hnodes : ∀ q, m.mmap = some q → ∃ qs, NodesFrom vm q qs ∧ qs.length ≤ m.count) :
    ∃ s' vm' m' node, s.vmaMalloc i = .ok s' ∧ vm.vmaMalloc m = .ok (vm', m', node) ∧
      s'.heap.Backs vm' ∧ SameMm (s'.mm i) m' ∧
      s'.nodes = ⟨i, VADDR (node * 4096)⟩ :: s.nodes := by
  rcases hmmap : m.mmap with _ | q
  · exact vmaMalloc_agree_none hfree hn hb hsup htab hmm hmmap
  · obtain ⟨qs, hq, hlen⟩ := hnodes q hmmap
    exact vmaMalloc_agree_some hb hmm hmmap hq hlen

end Mmaps

end Bgox
