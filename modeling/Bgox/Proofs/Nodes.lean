import Bgox.Proofs.Blocks
import Bgox.Vma

/-!
# Who owns the nodes of memory maps

The first node of an `mm_struct` is at the start of a block of its own, and blocks do not overlap
(`Inv`).  As long as `vma_malloc` is called once for each `mm_struct`, its nodes are therefore apart
from everything else.  The second call returns the page after that block, which belongs to somebody
else or to nobody (`nodes_owned`).
-/

namespace Bgox

open Run (bind_eq_ok Reach)

/-! ## Room for a call -/

namespace Heap

variable {h : Heap} {k p size : ℕ}

/-- There are enough free pages, at addresses below 2 GiB. -/
def Room (h : Heap) (pages : ℕ) : Prop :=
  pages ≤ h.free ∧ h.Safe ⟨.kmalloc, pages * 4096, h.mem⟩

theorem FreeFrom.room_iff (hfree : h.FreeFrom p) : h.Room k ↔ p + k ≤ h.length ∧ k < 2 ^ 19 ∧
    p + k ≤ 2 ^ 19 ∧ h.freeList + sizeofPage * (p + k) ≤ 2 ^ 31 := by
  have hle := hfree.le
  have hpages : Request.pages ⟨.kmalloc, k * 4096, h.mem⟩ = k := by
    dsimp only [Request.pages]
    omega
  rw [Room, Safe, hpages, hfree.free_eq, show h.length - (h.length - p) = p by omega]
  constructor
  · rintro ⟨hk, hint, hvirt⟩
    exact ⟨by omega, hint, hvirt (by simp)⟩
  · rintro ⟨hk, hint, hvirt⟩
    exact ⟨by omega, hint, fun _ => hvirt⟩

theorem FreeFrom.room_of_le {n : ℕ} (hfree : h.FreeFrom p) (hroom : h.Room n) (hk : k ≤ n) :
    h.Room k := by
  obtain ⟨hlen, hint, hlow, hlist⟩ := hfree.room_iff.1 hroom
  rw [sizeofPage] at hlist
  exact hfree.room_iff.2 ⟨by omega, by omega, by omega, by rw [sizeofPage]; omega⟩

/-- What is left after a block. -/
theorem FreeFrom.room_marked {h' : Heap} {n : ℕ} (hfree : h.FreeFrom p) (hroom : h.Room (k + n))
    (hm : h.Marked h' p k) : h'.Room n := by
  obtain ⟨hlen, hint, hlow, hlist⟩ := hfree.room_iff.1 hroom
  rw [← Nat.add_assoc] at hlen hlow hlist
  have hfree' := hfree.marked hm (Nat.le_trans (Nat.le_add_right _ _) hlen)
  exact hfree'.room_iff.2 ⟨hm.length ▸ hlen, by omega, hlow, hm.freeList ▸ hlist⟩

theorem exists_kmalloc (mem : ℕ → ℕ) (hfree : h.FreeFrom p) (hlen : h.length < 2 ^ 31)
    (hsize : 0 < size) (hroom : h.Room (Vm.pagesFor size)) :
    ∃ h', { h with mem }.kmalloc size = .ok (h', some (KERNEL_VADDR + p * 4096)) ∧
      h.Marked h' p (Vm.pagesFor size) := by
  have hpages := Request.pagesFor_eq ⟨.kmalloc, size, mem⟩
  dsimp only at hpages
  have hpos : 0 < Vm.pagesFor size := by
    rw [hpages]
    dsimp only [Request.pages]
    omega
  obtain ⟨hk, hint, hlow, hlist⟩ := hfree.room_iff.1 hroom
  have hle := hfree.le
  have hsafe : h.Safe ⟨.kmalloc, size, mem⟩ := by
    rw [Safe, ← hpages, hfree.free_eq, show h.length - (h.length - p) = p by omega]
    exact ⟨hint, fun _ => ⟨hlow, hlist⟩⟩
  obtain ⟨h', hcall, hh⟩ := exists_handed hfree (Nat.zero_le p)
    (show ∀ b ∈ ([] : List (ℕ × ℕ)), b.1 + b.2 ≤ p by simp) (by omega) (by omega) hsize
    (by rw [← hpages, hfree.free_eq]; omega) hsafe
  have hret : Kind.ret .kmalloc p = KERNEL_VADDR + p * 4096 := by
    simp only [Kind.ret, VADDR, KERNEL_VADDR]
    omega
  refine ⟨h', ?_, hpages ▸ hh.marked⟩
  rw [← hret]
  exact hcall

end Heap

namespace Mmaps

variable {s s' : Mmaps} {blocks : List Block} {b : Block} {op : Op} {owner : Option ℕ}
  {i k n p size : ℕ} {mem : ℕ → ℕ}

/-! ## Words -/

theorem word_congr {mem₁ : ℕ → ℕ} (h : ∀ k < 8, mem₁ (p + k) = mem (p + k)) :
    word mem₁ p = word mem p :=
  List.foldr_ext _ _ _ fun k hk w => by rw [h k (List.mem_range.1 hk)]

theorem word_zero (p : ℕ) : word (fun _ => 0) p = 0 := by
  simp [word, List.range, List.range.loop]

theorem word_setWord_self (mem : ℕ → ℕ) (p : ℕ) {w : ℕ} (hw : w < 2 ^ 64) :
    word (setWord mem p w) p = w := by
  have hbyte : ∀ k < 8, setWord mem p w (p + k) = w / 256 ^ k % 256 := by
    intro k hk
    rw [setWord, if_pos (by omega), Nat.add_sub_cancel_left]
  simp only [word, List.range, List.range.loop, List.foldr]
  rw [hbyte 0 (by decide), hbyte 1 (by decide), hbyte 2 (by decide), hbyte 3 (by decide),
    hbyte 4 (by decide), hbyte 5 (by decide), hbyte 6 (by decide), hbyte 7 (by decide)]
  norm_num
  omega

theorem word_setWord_of_disjoint (mem : ℕ → ℕ) {p q : ℕ} (w : ℕ) (h : p + 8 ≤ q ∨ q + 8 ≤ p) :
    word (setWord mem p w) q = word mem q :=
  word_congr fun k hk => if_neg (by omega)

/-! ## Blocks -/

/-- Two blocks have no byte in common. -/
def Apart (b c : Block) : Prop := b.addr + b.size ≤ c.addr ∨ c.addr + c.size ≤ b.addr

/-- Blocks of the pages below `p`, one beside the other. -/
structure Laid (blocks : List Block) (p : ℕ) : Prop where
  bound : ∀ b ∈ blocks, KERNEL_VADDR ≤ b.addr ∧ b.addr + b.size ≤ KERNEL_VADDR + p * 4096
  apart : blocks.Pairwise Apart

theorem Laid.cons (hl : Laid blocks p) (owner : Option ℕ) (k : ℕ) :
    Laid (⟨owner, KERNEL_VADDR + p * 4096, k * 4096⟩ :: blocks) (p + k) := by
  refine ⟨fun b hb => ?_, List.pairwise_cons.2 ⟨fun b hb => Or.inr ?_, hl.apart⟩⟩
  · rcases List.mem_cons.1 hb with rfl | hb
    · exact ⟨Nat.le_add_right _ _, by rw [Nat.add_mul, Nat.add_assoc]⟩
    · obtain ⟨hlo, hhi⟩ := hl.bound b hb
      refine ⟨hlo, hhi.trans (Nat.add_le_add_left ?_ _)⟩
      omega
  · exact (hl.bound b hb).2

/-! ## The invariant -/

/-- Each `mm_struct` that is in use has one node, at the start of a block. -/
structure Placed (s : Mmaps) : Prop where
  node : ∀ n ∈ s.nodes, ⟨some n.mm, n.addr, 4096⟩ ∈ s.blocks
  owner : ∀ b ∈ s.blocks, ∀ i, b.owner = some i → b = ⟨some i, (s.mm i).mmap, 4096⟩
  mmap : ∀ i, (s.mm i).mmap ≠ 0 → ⟨some i, (s.mm i).mmap, 4096⟩ ∈ s.blocks
  distinct : s.nodes.Pairwise fun m n => m.mm ≠ n.mm

structure Inv (s : Mmaps) (p : ℕ) : Prop where
  free : s.heap.FreeFrom p
  length : s.heap.length < 2 ^ 31
  laid : Laid s.blocks p
  placed : s.Placed

theorem Inv.withMem (hi : s.Inv p) (mem : ℕ → ℕ) :
    { s with heap := { s.heap with mem } }.Inv p :=
  ⟨⟨hi.free.le, hi.free.next, hi.free.used, hi.free.free⟩, hi.length, hi.laid, hi.placed.node,
    hi.placed.owner, hi.placed.mmap, hi.placed.distinct⟩

/-- A block of an `mm_struct` is not at 0. -/
theorem Inv.mmap_ne_zero (hi : s.Inv p) (hb : b ∈ s.blocks) (ho : b.owner = some i) :
    (s.mm i).mmap ≠ 0 := by
  have hbound := (hi.laid.bound b hb).1
  rw [hi.placed.owner b hb i ho] at hbound
  intro h0
  rw [h0] at hbound
  dsimp only at hbound
  exact absurd hbound (by decide)

theorem kmalloc_spec (hi : s.Inv p) (owner : Option ℕ) (hsize : 0 < size)
    (hroom : s.heap.Room (Vm.pagesFor size)) : ∃ heap,
    s.kmalloc owner size = .ok ({ s with
        heap
        blocks := ⟨owner, KERNEL_VADDR + p * 4096, Vm.pagesFor size * 4096⟩ :: s.blocks },
      KERNEL_VADDR + p * 4096) ∧
    s.heap.Marked heap p (Vm.pagesFor size) ∧ heap.FreeFrom (p + Vm.pagesFor size) := by
  obtain ⟨heap, hk, hm⟩ := Heap.exists_kmalloc s.heap.mem hi.free hi.length hsize hroom
  have hle := (hi.free.room_iff.1 hroom).1
  exact ⟨heap, bind_eq_ok.2 ⟨_, hk, rfl⟩, hm, hi.free.marked hm hle⟩

theorem Inv.unowned (hi : s.Inv p) {heap : Heap} (hlen : heap.length = s.heap.length)
    (hfree : heap.FreeFrom (p + k)) :
    { s with heap, blocks := ⟨none, KERNEL_VADDR + p * 4096, k * 4096⟩ :: s.blocks }.Inv
      (p + k) := by
  refine ⟨hfree, hlen ▸ hi.length, hi.laid.cons _ _, fun n hn => List.mem_cons_of_mem _
    (hi.placed.node n hn), fun b hb i ho => ?_, fun i h0 => List.mem_cons_of_mem _
    (hi.placed.mmap i h0), hi.placed.distinct⟩
  rcases List.mem_cons.1 hb with rfl | hb
  · cases ho
  · exact hi.placed.owner b hb i ho

theorem Inv.owned (hi : s.Inv p) (h0 : (s.mm i).mmap = 0) {heap : Heap}
    (hlen : heap.length = s.heap.length) (hfree : heap.FreeFrom (p + 1)) (count : ℕ) :
    Inv ⟨heap, Function.update s.mm i ⟨count, KERNEL_VADDR + p * 4096⟩,
      ⟨i, KERNEL_VADDR + p * 4096⟩ :: s.nodes,
      ⟨some i, KERNEL_VADDR + p * 4096, 1 * 4096⟩ :: s.blocks⟩ (p + 1) := by
  refine ⟨hfree, hlen ▸ hi.length, hi.laid.cons _ _, fun n hn => ?_, fun b hb j ho => ?_,
    fun j hj => ?_, List.pairwise_cons.2 ⟨fun n hn heq => ?_, hi.placed.distinct⟩⟩
  · rcases List.mem_cons.1 hn with rfl | hn
    · exact List.mem_cons_self ..
    · exact List.mem_cons_of_mem _ (hi.placed.node n hn)
  · dsimp only at hb ⊢
    rcases List.mem_cons.1 hb with rfl | hold
    · obtain rfl := Option.some.inj ho
      rw [Function.update_self]
    · have hji : j ≠ i := by
        rintro rfl
        exact hi.mmap_ne_zero hold ho h0
      rw [Function.update_of_ne hji]
      exact hi.placed.owner b hold j ho
  · dsimp only at hj ⊢
    by_cases hji : j = i
    · subst hji
      rw [Function.update_self]
      exact List.mem_cons_self ..
    · rw [Function.update_of_ne hji] at hj ⊢
      exact List.mem_cons_of_mem _ (hi.placed.mmap j hj)
  · -- an `mm_struct` with a node is in use
    dsimp only at heq
    subst heq
    exact hi.mmap_ne_zero (hi.placed.node n hn) rfl h0

/-! ## Steps -/

/-- The calls of `kmalloc` in `region_alloc`. -/
def calls (tables : ℕ → ℕ) : ℕ → ℕ → ℕ
  | 0, _ => 0
  | n + 1, v => tables v + calls tables n (v + 4096) + 1

theorem kmallocs_add : ∀ (m n : ℕ) (s : Mmaps),
    kmallocs (m + n) s = kmallocs m s >>= kmallocs n
  | 0, n, s => by
    rw [Nat.zero_add]
    rfl
  | m + 1, n, s => by
    rw [Nat.add_right_comm, kmallocs, kmallocs, bind_assoc]
    exact bind_congr fun r => kmallocs_add m n r.1

theorem mapPages_eq (tables : ℕ → ℕ) : ∀ (n : ℕ) (s : Mmaps) (v : ℕ),
    mapPages tables n s v = kmallocs (calls tables n v) s
  | 0, _, _ => rfl
  | n + 1, s, v => by
    rw [mapPages, calls, kmallocs]
    refine bind_congr fun r => ?_
    obtain ⟨s, -⟩ := r
    dsimp only
    rw [kmallocs_add]
    exact bind_congr fun s => mapPages_eq tables n s (v + 4096)

/-- A page that is not for a node. -/
def Block.page (t : ℕ) : Block := ⟨none, KERNEL_VADDR + t * 4096, 4096⟩

theorem exists_kmallocs : ∀ {n : ℕ} {s : Mmaps} {p : ℕ}, s.Inv p → s.heap.Room n →
    ∃ s', kmallocs n s = .ok s' ∧ s'.Inv (p + n) ∧
      s'.blocks = ((List.range' p n).map Block.page).reverse ++ s.blocks
  | 0, s, p, hi, _ => ⟨s, rfl, hi, rfl⟩
  | n + 1, s, p, hi, hroom => by
    have hpages : Vm.pagesFor 1 = 1 := by decide
    rw [Nat.add_comm] at hroom
    obtain ⟨heap, hk, hm, hfree⟩ := kmalloc_spec hi none Nat.one_pos
      (hpages ▸ hi.free.room_of_le hroom (Nat.le_add_right 1 n))
    rw [hpages] at hm hfree hk
    obtain ⟨s', hs, hi', hblocks⟩ := exists_kmallocs (n := n) (hi.unowned hm.length hfree)
      (hi.free.room_marked hroom hm)
    refine ⟨s', bind_eq_ok.2 ⟨_, hk, hs⟩, ?_, ?_⟩
    · rw [show p + (n + 1) = p + 1 + n by omega]
      exact hi'
    · rw [hblocks, List.range'_succ, List.map_cons, List.reverse_cons, List.append_assoc]
      rfl

/-- The condition on a call: the `mm_struct` has no node yet, and there is memory left. -/
def Allowed (s : Mmaps) : Op → Prop
  | .vmaMalloc mm => (s.mm mm).mmap = 0 ∧ s.heap.Room 1
  | .kmalloc size => 0 < size ∧ s.heap.Room (Vm.pagesFor size)
  | .regionAlloc va size tables =>
    s.heap.Room (calls tables (regionPages va size) (Vm.getStartingPage va))

theorem room_withMem {h : Heap} {mem : ℕ → ℕ} (hroom : h.Room k) : { h with mem }.Room k := hroom

/-- The first node of an `mm_struct` is the next free page. -/
theorem vmaMalloc_first (hi : s.Inv p) (h0 : (s.mm i).mmap = 0) (hroom : s.heap.Room 1) :
    ∃ heap mms, s.vmaMalloc i = .ok ⟨heap, mms, ⟨i, KERNEL_VADDR + p * 4096⟩ :: s.nodes,
        ⟨some i, KERNEL_VADDR + p * 4096, 1 * 4096⟩ :: s.blocks⟩ ∧
      (mms i).mmap = KERNEL_VADDR + p * 4096 ∧ (∀ j ≠ i, mms j = s.mm j) ∧
      s.heap.Marked heap p 1 ∧ Inv ⟨heap, mms, ⟨i, KERNEL_VADDR + p * 4096⟩ :: s.nodes,
        ⟨some i, KERNEL_VADDR + p * 4096, 1 * 4096⟩ :: s.blocks⟩ (p + 1) := by
  have hpages : Vm.pagesFor sizeofVma = 1 := by decide
  obtain ⟨heap, hk, hm, hfree⟩ := kmalloc_spec hi (some i) (show 0 < sizeofVma by decide)
    (hpages ▸ hroom)
  rw [hpages] at hk hm hfree
  refine ⟨heap, Function.update s.mm i ⟨(s.mm i).count + 1, KERNEL_VADDR + p * 4096⟩, ?_, ?_,
    fun j hj => Function.update_of_ne hj _ _, hm, hi.owned h0 hm.length hfree _⟩
  · rw [vmaMalloc, if_neg (not_not.2 h0), hk]
    rfl
  · rw [Function.update_self]

theorem exists_step (hi : s.Inv p) (ha : s.Allowed op) (mem : ℕ → ℕ) :
    ∃ s' q, s.step op mem = .ok s' ∧ s'.Inv q := by
  have hi' := hi.withMem mem
  cases op with
  | vmaMalloc i =>
    obtain ⟨heap, mms, hk, -, -, -, hi''⟩ := vmaMalloc_first hi' ha.1 (room_withMem ha.2)
    exact ⟨_, _, hk, hi''⟩
  | kmalloc size =>
    obtain ⟨hsize, hroom⟩ := ha
    obtain ⟨heap, hk, hm, hfree⟩ := kmalloc_spec hi' none hsize (room_withMem hroom)
    exact ⟨_, _, bind_eq_ok.2 ⟨_, hk, rfl⟩, hi'.unowned hm.length hfree⟩
  | regionAlloc va size tables =>
    obtain ⟨s', hs, hi'', -⟩ := exists_kmallocs hi' (room_withMem ha)
    exact ⟨s', _, (mapPages_eq tables _ _ _).trans hs, hi''⟩

/-! ## Ownership -/

/-- Every node is inside a block of its `mm_struct`, and apart from the other blocks and the other
nodes. -/
structure Owned (s : Mmaps) : Prop where
  inside : ∀ n ∈ s.nodes, ∃ bs b cs, s.blocks = bs ++ b :: cs ∧ b.owner = some n.mm ∧
    b.addr ≤ n.addr ∧ n.addr + sizeofVma ≤ b.addr + b.size ∧
    ∀ c ∈ bs ++ cs, n.addr + sizeofVma ≤ c.addr ∨ c.addr + c.size ≤ n.addr
  apart : s.nodes.Pairwise fun m n =>
    m.addr + sizeofVma ≤ n.addr ∨ n.addr + sizeofVma ≤ m.addr

/-- A block of the list is apart from all others. -/
theorem Laid.apart_of_append {bs cs : List Block} (hl : Laid (bs ++ b :: cs) p) :
    ∀ c ∈ bs ++ cs, Apart b c := by
  obtain ⟨-, hcs, hbs⟩ := List.pairwise_append.1 hl.apart
  intro c hc
  rcases List.mem_append.1 hc with hc | hc
  · exact (hbs c hc b (List.mem_cons_self ..)).symm
  · exact (List.pairwise_cons.1 hcs).1 c hc

theorem Inv.isOwned (hi : s.Inv p) : s.Owned := by
  refine ⟨fun n hn => ?_, ?_⟩
  · obtain ⟨bs, cs, hblocks⟩ := List.append_of_mem (hi.placed.node n hn)
    refine ⟨bs, _, cs, hblocks, rfl, Nat.le_refl _, by simp only [sizeofVma]; omega,
      fun c hc => ?_⟩
    have hl := hi.laid
    rw [hblocks] at hl
    rcases hl.apart_of_append c hc with h | h
    · left
      dsimp only [sizeofVma] at h ⊢
      omega
    · exact Or.inr h
  · refine hi.placed.distinct.imp_of_mem fun {m n} hm hn hne => ?_
    obtain ⟨bs, cs, hblocks⟩ := List.append_of_mem (hi.placed.node m hm)
    have hl := hi.laid
    have hn' := hi.placed.node n hn
    rw [hblocks] at hl hn'
    have hmem : (⟨some n.mm, n.addr, 4096⟩ : Block) ∈ bs ++ cs := by
      rcases List.mem_append.1 hn' with h | h
      · exact List.mem_append_left _ h
      · rcases List.mem_cons.1 h with h | h
        · exact absurd (Option.some.inj (Block.mk.inj h).1).symm hne
        · exact List.mem_append_right _ h
    rcases hl.apart_of_append _ hmem with h | h <;> dsimp only at h <;> unfold sizeofVma <;> omega

theorem vmaMalloc_second (h0 : (s.mm i).mmap ≠ 0)
    (hnext : word s.heap.mem (nextAt (s.mm i).mmap) = 0) : ∃ heap mms, s.vmaMalloc i
      = .ok ⟨heap, mms, ⟨i, ((s.mm i).mmap + 4096) % 2 ^ 64⟩ :: s.nodes, s.blocks⟩ := by
  rw [vmaMalloc, if_pos h0, lastVma, if_pos hnext]
  exact ⟨_, _, rfl⟩

/-- A second node is outside the block of the first. -/
theorem second_not_owned (mem : ℕ → ℕ) (hi : s.Inv p) (h0 : (s.mm i).mmap ≠ 0)
    (hnext : word mem (nextAt (s.mm i).mmap) = 0) :
    ∃ s', s.step (.vmaMalloc i) mem = .ok s' ∧ ¬ s'.Owned := by
  obtain ⟨heap, mms, hstep⟩ := vmaMalloc_second (s := { s with heap := { s.heap with mem } }) h0
    hnext
  refine ⟨_, hstep, fun ho => ?_⟩
  obtain ⟨bs, b, cs, hblocks, howner, hlo, hhi, -⟩ := ho.inside _ (List.mem_cons_self ..)
  dsimp only at hblocks howner hlo hhi
  have hb : b ∈ s.blocks := by
    rw [hblocks]
    exact List.mem_append_right _ (List.mem_cons_self ..)
  have hbound := hi.laid.bound b hb
  rw [hi.placed.owner b hb i howner] at hlo hhi hbound
  dsimp only [sizeofVma] at hlo hhi hbound
  omega

/-- A call that meets the condition. -/
def AllowedStep (s : Mmaps) (call : Op × (ℕ → ℕ)) (s' : Mmaps) : Prop :=
  s.Allowed call.1 ∧ s.step call.1 call.2 = .ok s'

theorem reach_inv {h₀ : Heap} (hfree : h₀.FreeFrom p) (hlen : h₀.length < 2 ^ 31)
    (hr : Reach AllowedStep ⟨h₀, fun _ => ⟨0, 0⟩, [], []⟩ s) : ∃ q, s.Inv q := by
  refine hr.invariant (P := fun s => ∃ q, s.Inv q) ⟨p, hfree, hlen, ⟨by simp, .nil⟩, by simp,
    by simp, by simp, .nil⟩ ?_
  rintro s ⟨op, mem⟩ s' ⟨q, hi⟩ ⟨ha, hs⟩
  obtain ⟨s'', q', hs', hi'⟩ := exists_step hi ha mem
  obtain rfl := Except.ok.inj (hs'.symm.trans hs)
  exact ⟨q', hi'⟩

/-- While every `mm_struct` has at most one node, nodes are in memory of their own, and every call
returns.  The second node of one that has not been written to is not. -/
theorem nodes_owned {page : ℕ → Page} {mem₀ : ℕ → ℕ} {numPages physfree : ℕ} {h₀ : Heap}
    (hc : Heap.calculateFreeList page mem₀ numPages physfree = .ok h₀) (hn : numPages < 2 ^ 31)
    (hle : physfree / 4096 + numPages * 24 / 4096 ≤ numPages)
    (hr : Reach AllowedStep ⟨h₀, fun _ => ⟨0, 0⟩, [], []⟩ s) :
    s.Owned ∧ (∀ op mem, s.Allowed op → ∃ s', s.step op mem = .ok s') ∧
      ∀ i mem, (s.mm i).mmap ≠ 0 → word mem (nextAt (s.mm i).mmap) = 0 →
        ∃ s', s.step (.vmaMalloc i) mem = .ok s' ∧ ¬ s'.Owned := by
  have hspace := Heap.usedFlspace_of_lt (show numPages ≤ 2 ^ 52 by omega) (by omega)
  obtain ⟨h, hcalc, -, hlen, hfree⟩ := Heap.calculateFreeList_spec page mem₀ (by omega)
    (hspace ▸ hle)
  obtain rfl := Except.ok.inj (hcalc.symm.trans hc)
  obtain ⟨q, hi⟩ := reach_inv hfree (hlen ▸ hn) hr
  refine ⟨hi.isOwned, fun op mem ha => ?_, fun i mem h0 hnext => second_not_owned mem hi h0 hnext⟩
  obtain ⟨s', -, hs, -⟩ := exists_step hi ha mem
  exact ⟨s', hs⟩

/-- The first node after boot with 4 MiB of memory. -/
theorem boot_first : ∃ h₀ s,
    Heap.calculateFreeList (fun _ => ⟨none, 0, 0, 0⟩) (fun _ => 0) 1024 0x200000 = .ok h₀ ∧
      AllowedStep ⟨h₀, fun _ => ⟨0, 0⟩, [], []⟩ (.vmaMalloc 0, fun _ => 0) s ∧
      s.nodes = [⟨0, KERNEL_VADDR + 518 * 4096⟩] ∧
      (s.mm 0).mmap = KERNEL_VADDR + 518 * 4096 ∧ (s.mm 1).mmap = 0 ∧ s.Inv 519 ∧
      s.heap.Room 1 := by
  obtain ⟨h₀, hcalc, hlist, hlen, hfree⟩ := Heap.calculateFreeList_spec
    (fun _ => ⟨none, 0, 0, 0⟩) (fun _ => 0) (show 1024 < 2 ^ 64 by decide)
    (show 0x200000 / 4096 + Heap.usedFlspace 1024 ≤ 1024 by decide)
  rw [show 0x200000 / 4096 + Heap.usedFlspace 1024 = 518 by decide] at hfree
  have hi : Inv ⟨h₀, fun _ => ⟨0, 0⟩, [], []⟩ 518 :=
    ⟨hfree, by dsimp only; omega, ⟨by simp, .nil⟩, by simp, by simp, by simp, .nil⟩
  have hroom : h₀.Room (1 + 1) := hfree.room_iff.2 ⟨by omega, by omega, by omega, by
    rw [hlist, sizeofPage]
    omega⟩
  have hone : h₀.Room 1 := hfree.room_of_le hroom (Nat.le_add_right 1 1)
  obtain ⟨heap, mms, hstep, hmmap, hother, hm, hi'⟩ := vmaMalloc_first (hi.withMem fun _ => 0) rfl
    (room_withMem hone) (i := 0)
  exact ⟨h₀, _, hcalc, ⟨⟨rfl, hone⟩, hstep⟩, rfl, hmmap,
    congrArg MmStruct.mmap (hother 1 (by decide)), hi',
    (hi.withMem fun _ => 0).free.room_marked (room_withMem hroom) hm⟩

/-- The first nodes of two processes. -/
theorem nodes_owned_two : ∃ s : Mmaps, s.nodes
    = [⟨1, KERNEL_VADDR + 519 * 4096⟩, ⟨0, KERNEL_VADDR + 518 * 4096⟩] ∧ s.Owned := by
  obtain ⟨h₀, s, hcalc, hstep, hnodes, -, hmmap, hi, hroom⟩ := boot_first
  obtain ⟨heap, mms, hsecond, -⟩ := vmaMalloc_first (hi.withMem fun _ => 0) hmmap
    (room_withMem hroom)
  have hallowed : AllowedStep s (.vmaMalloc 1, fun _ => 0) _ := ⟨⟨hmmap, hroom⟩, hsecond⟩
  refine ⟨_, by rw [hnodes], (nodes_owned hcalc (by decide) (by decide)
    (.step (.step .start hstep) hallowed)).1⟩

/-- The second node is in a page nobody has allocated. -/
theorem second_node : ∃ h₀ s s',
    Heap.calculateFreeList (fun _ => ⟨none, 0, 0, 0⟩) (fun _ => 0) 1024 0x200000 = .ok h₀ ∧
      step ⟨h₀, fun _ => ⟨0, 0⟩, [], []⟩ (.vmaMalloc 0) (fun _ => 0) = .ok s ∧
      s.step (.vmaMalloc 0) (fun _ => 0) = .ok s' ∧
      s'.nodes = [⟨0, KERNEL_VADDR + 519 * 4096⟩, ⟨0, KERNEL_VADDR + 518 * 4096⟩] ∧
      ¬ s'.Owned := by
  obtain ⟨h₀, s, hcalc, ⟨-, hstep⟩, hnodes, hmmap, -, hi, -⟩ := boot_first
  have h0 : (s.mm 0).mmap ≠ 0 := by
    rw [hmmap]
    decide
  obtain ⟨heap, mms, hsecond⟩ := vmaMalloc_second
    (s := { s with heap := { s.heap with mem := fun _ => 0 } }) h0 (word_zero _)
  refine ⟨h₀, s, _, hcalc, hstep, hsecond, ?_, ?_⟩
  · dsimp only
    rw [hnodes, hmmap]
    rfl
  · obtain ⟨s', hs, hnot⟩ := second_not_owned (fun _ => 0) hi h0 (word_zero _)
    rwa [← Except.ok.inj (hs.symm.trans hsecond)]

end Mmaps

end Bgox
