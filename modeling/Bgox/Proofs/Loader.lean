import Bgox.Proofs.UserSpace

/-!
# Loading a program

`elf_run_bin` loads one segment after the other: a region is mapped, the bytes of the file are
copied to it, the rest is cleared, and a VMA is added to the list.

`vma_malloc` asks for memory for the first node only.  Each further one is a page after the last,
whatever that page is used for, so the loader is right as long as nobody else has it.
-/

namespace Bgox

open Run (bind_eq_ok)

namespace Vm

variable {s s₁ : Vm} {t first page : ℕ} {mem mem₁ : ℕ → ℕ → ℕ} {vs : List Vma}

/-! ## The list of VMAs -/

/-- The fields of a node. -/
def vmaAt (mem : ℕ → ℕ → ℕ) (page : ℕ) : Vma :=
  ⟨mem page 1, mem page 2, mem page 3, mem page 4, mem page 5, mem page 6⟩

/-- The nodes from a page on, at most `fuel` of them. -/
def vmaList (mem : ℕ → ℕ → ℕ) : ℕ → ℕ → List Vma
  | 0, _ => []
  | fuel + 1, page =>
    vmaAt mem page :: if mem page 7 = 0 then [] else vmaList mem fuel (PADDR (mem page 7) / 4096)

/-- The list of a process, with room for more nodes than its count. -/
def Mm.vmas (mm : Mm) (mem : ℕ → ℕ → ℕ) : List Vma :=
  match mm.mmap with
  | none => []
  | some page => vmaList mem (mm.count + 1) page

/-- The nodes `vs`, each in the page after the one before. -/
def Chain (mem : ℕ → ℕ → ℕ) : ℕ → List Vma → Prop
  | _, [] => True
  | page, v :: vs => vmaAt mem page = v ∧
      mem page 7 = (if vs.isEmpty then 0 else VADDR ((page + 1) * 4096)) ∧ Chain mem (page + 1) vs

/-- The address of a node is not null, and its page can be told from it. -/
theorem node_address (page : ℕ) (h : page < 2 ^ 19) :
    VADDR (page * 4096) ≠ 0 ∧ PADDR (VADDR (page * 4096)) = page * 4096 := by
  rw [(System.vaddr_page h).1]
  unfold PADDR KERNEL_VADDR
  omega

theorem Chain.vmaList : ∀ {vs : List Vma} {page fuel : ℕ}, Chain mem page vs → vs ≠ [] →
    vs.length ≤ fuel → page + vs.length ≤ 2 ^ 19 → Vm.vmaList mem fuel page = vs
  | [], _, _, _, hne, _, _ => absurd rfl hne
  | [v], page, 0, _, _, hle, _ => absurd hle (by simp)
  | [v], page, fuel + 1, ⟨hv, hnext, _⟩, _, _, _ => by
    rw [Vm.vmaList, hv, hnext]
    rfl
  | v :: v' :: vs, page, 0, _, _, hle, _ => absurd hle (by simp)
  | v :: v' :: vs, page, fuel + 1, ⟨hv, hnext, hrest⟩, _, hle, hlow => by
    simp only [List.length_cons] at hle hlow
    obtain ⟨hnull, hpage⟩ := node_address (page + 1) (by omega)
    have hlink : mem page 7 = VADDR ((page + 1) * 4096) := hnext
    rw [Vm.vmaList, hv, hlink, if_neg hnull, hpage,
      Nat.mul_div_cancel _ (by decide), hrest.vmaList (by simp) (by simp; omega)
        (by simp only [List.length_cons]; omega)]

theorem Chain.lastVma : ∀ {vs : List Vma} {page fuel : ℕ}, Chain s.mem page vs → vs ≠ [] →
    vs.length ≤ fuel → page + vs.length ≤ 2 ^ 19 →
    Vm.lastVma fuel s page = .ok (page + vs.length - 1)
  | [], _, _, _, hne, _, _ => absurd rfl hne
  | [v], page, 0, _, _, hle, _ => absurd hle (by simp)
  | [v], page, fuel + 1, ⟨_, hnext, _⟩, _, _, _ => by
    rw [Vm.lastVma, hnext]
    rfl
  | v :: v' :: vs, page, 0, _, _, hle, _ => absurd hle (by simp)
  | v :: v' :: vs, page, fuel + 1, ⟨_, hnext, hrest⟩, _, hle, hlow => by
    simp only [List.length_cons] at hle hlow
    obtain ⟨hnull, hpage⟩ := node_address (page + 1) (by omega)
    have hlink : s.mem page 7 = VADDR ((page + 1) * 4096) := hnext
    rw [Vm.lastVma, hlink, if_neg hnull, hpage, if_pos (Nat.mul_mod_left _ _),
      Nat.mul_div_cancel _ (by decide),
      hrest.lastVma (by simp) (by simp; omega) (by simp only [List.length_cons]; omega)]
    simp only [List.length_cons]
    rw [show page + 1 + (vs.length + 1) - 1 = page + (vs.length + 1 + 1) - 1 by omega]

theorem Chain.congr : ∀ {vs : List Vma} {page : ℕ}, Chain mem page vs →
    (∀ j < vs.length, mem₁ (page + j) = mem (page + j)) → Chain mem₁ page vs
  | [], _, _, _ => trivial
  | v :: vs, page, ⟨hv, hnext, hrest⟩, hmem => by
    have h0 : mem₁ page = mem page := hmem 0 (by simp)
    refine ⟨by rw [vmaAt, h0, ← hv, vmaAt], by rw [h0, hnext], hrest.congr fun j hj => ?_⟩
    have hj' := hmem (j + 1) (by rw [List.length_cons]; omega)
    rwa [show page + (j + 1) = page + 1 + j by omega] at hj'

/-- A node more at the end. -/
theorem Chain.snoc {v : Vma} : ∀ {vs : List Vma} {page : ℕ}, Chain mem page vs → vs ≠ [] →
    (∀ j i, j < vs.length → (j + 1 = vs.length → i ≠ 7) → mem₁ (page + j) i = mem (page + j) i) →
    mem₁ (page + vs.length - 1) 7 = VADDR ((page + vs.length) * 4096) →
    vmaAt mem₁ (page + vs.length) = v → mem₁ (page + vs.length) 7 = 0 →
    Chain mem₁ page (vs ++ [v])
  | [], _, _, hne, _, _, _, _ => absurd rfl hne
  | [v₀], page, ⟨hv, _, _⟩, _, hmem, hlink, hnew, hend => by
    simp only [List.length_singleton] at hmem hlink hnew hend
    have h0 : ∀ i, i ≠ 7 → mem₁ page i = mem page i := fun i hi => hmem 0 i (by simp) fun _ => hi
    refine ⟨?_, hlink, hnew, hend, trivial⟩
    rw [← hv, vmaAt, vmaAt, h0 1, h0 2, h0 3, h0 4, h0 5, h0 6] <;> decide
  | v₀ :: v₁ :: vs, page, ⟨hv, hnext, hrest⟩, _, hmem, hlink, hnew, hend => by
    simp only [List.length_cons] at hmem hlink hnew hend
    have h0 : ∀ i, mem₁ page i = mem page i := fun i => hmem 0 i (by simp) (by simp)
    rw [show page + (vs.length + 1 + 1) = page + 1 + (vs.length + 1) by omega] at hlink hnew hend
    refine ⟨by rw [← hv, vmaAt, vmaAt]; simp only [h0], by rw [h0, hnext]; rfl,
      hrest.snoc (by simp) (fun j i hj hi => ?_) hlink hnew hend⟩
    rw [List.length_cons] at hj hi
    have hj' := hmem (j + 1) i (by omega) fun he => hi (by omega)
    rwa [show page + (j + 1) = page + 1 + j by omega] at hj'

theorem setVma_node (s : Vm) (node : ℕ) (v : Vma) :
    vmaAt (s.setVma node v).mem node = v ∧ (s.setVma node v).mem node 7 = 0 ∧
      ∀ i, i = 0 ∨ 7 < i → (s.setVma node v).mem node i = s.mem node i := by
  refine ⟨?_, ?_, fun i hi => ?_⟩
  · simp [vmaAt, setVma, poke, Radix.set]
  · simp [setVma, poke, Radix.set]
  · have hne : i ≠ 1 ∧ i ≠ 2 ∧ i ≠ 3 ∧ i ≠ 4 ∧ i ≠ 5 ∧ i ≠ 6 ∧ i ≠ 7 := by omega
    simp [setVma, poke, Radix.set, hne]

/-- Where a node is stored in a page that is seen, only its own bytes are. -/
theorem Space.loadByte_setVma {nodes : List ℕ} {node w : ℕ} (h : s.Space t nodes)
    (hx : node ∉ s.tables) (v : Vma)
    (hw : translate s.mem t w = some node → w % 4096 < 8 ∨ 64 ≤ w % 4096) :
    loadByte (s.setVma node v).mem t w = loadByte s.mem t w := by
  rw [loadByte, loadByte, (h.setVma hx v).2 w]
  rcases hp : translate s.mem t w with _ | page
  · rfl
  · simp only [Option.map_some, byteAt]
    by_cases hpage : page = node
    · subst hpage
      rw [(setVma_node s page v).2.2 _ (by have := hw hp; omega)]
    · rw [setVma_mem hpage]

/-! ## The state between two segments -/

def Mm.nodes (mm : Mm) : List ℕ :=
  match mm.mmap with
  | none => []
  | some first => List.range' first mm.count

/-- All pages are from `pool`, but for the tables there were before. -/
structure Loading (old pool : List ℕ) (s : Vm) (t : ℕ) (mm : Mm) (vs : List Vma) : Prop where
  space : s.Space t mm.nodes
  tables : ∀ x ∈ s.tables, x ∈ old ∨ x ∈ pool
  supply : s.supply <:+ pool
  frames : ∀ v page, pml4Off v ≠ 511 → translate s.mem t v = some page → page ∈ pool
  count : mm.count = vs.length
  empty : mm.mmap = none → vs = []
  list : ∀ first, mm.mmap = some first → vs ≠ [] ∧ first ∈ pool ∧ Chain s.mem first vs

variable {old pool : List ℕ} {mm mm₁ : Mm} {f : Elf} {ph : Phdr} {img : ℕ → Option ℕ}

theorem Loading.region {n v : ℕ} (h : Loading old pool s t mm vs)
    (hok : mapPages t n s v = .ok s₁) : Loading old pool s₁ t mm vs ∧ Region n s t v s₁ := by
  obtain ⟨hspace, hregion⟩ := h.space.mapPages hok
  obtain ⟨hkept, used, -, hsup⟩ := hregion.keeps
  refine ⟨⟨hspace, fun x hx => ?_, .trans ⟨used, hsup.symm⟩ h.supply, fun w page hw hp => ?_,
    h.count, h.empty, fun first hfirst => ?_⟩, hregion⟩
  · rcases hregion.tables x hx with hx | hx
    · exact h.tables x hx
    · exact Or.inr (h.supply.subset hx)
  · rcases hregion.frames w page hp with hp | hp
    · exact h.frames w page hw hp
    · exact h.supply.subset hp
  · obtain ⟨hne, hpool, hchain⟩ := h.list first hfirst
    refine ⟨hne, hpool, hchain.congr fun j hj => (hkept _ (h.space.nodes _ ?_)).2⟩
    simp only [Mm.nodes, hfirst, h.count, List.mem_range'_1]
    omega

theorem Loading.store {bs : List ℕ} {va : ℕ} (h : Loading old pool s t mm vs)
    (huser : ∀ i < bs.length, pml4Off (va + i) ≠ 511) (hok : Vm.store t bs s va = .ok s₁) :
    Loading old pool s₁ t mm vs ∧ s₁.tables = s.tables ∧ s₁.supply = s.supply ∧
      (∀ v, translate s₁.mem t v = translate s.mem t v) ∧
      ∀ img, va % 2 ^ 48 + bs.length ≤ 2 ^ 48 → Shows s.mem t img →
        Shows s₁.mem t (Image.put bs (va % 2 ^ 48) img) := by
  obtain ⟨hspace, htab, hsup, hmem, hwalk, hshows⟩ := h.space.store huser hok
  refine ⟨⟨hspace, by rw [htab]; exact h.tables, by rw [hsup]; exact h.supply,
    fun w page hw hp => ?_, h.count, h.empty, fun first hfirst => ?_⟩, htab, hsup, hwalk, hshows⟩
  · rw [hwalk] at hp
    exact h.frames w page hw hp
  · obtain ⟨hne, hpool, hchain⟩ := h.list first hfirst
    refine ⟨hne, hpool, hchain.congr fun j hj => hmem _ ?_⟩
    simp only [Mm.nodes, hfirst, h.count, List.mem_range'_1]
    omega

/-- The first node is in a page of its own. -/
theorem Loading.firstNode {node : ℕ} (h : Loading old pool s t mm vs) (hnone : mm.mmap = none)
    (hok : s.vmaMalloc mm = .ok (s₁, mm₁, node)) (v : Vma) :
    Loading old pool (s₁.setVma node v) t mm₁ (vs ++ [v]) ∧
      ∀ img, Shows s.mem t img → Shows (s₁.setVma node v).mem t img := by
  obtain rfl := h.empty hnone
  have hnodes : mm.nodes = [] := by simp only [Mm.nodes, hnone]
  simp only [vmaMalloc, hnone] at hok
  obtain ⟨⟨s', p⟩, hk, hok⟩ := bind_eq_ok.1 hok
  obtain ⟨rfl, hpair⟩ := Prod.mk.inj (Except.ok.inj hok)
  obtain ⟨rfl, rfl⟩ := Prod.mk.inj hpair
  obtain ⟨hsup, htab, -, -, -⟩ := kmalloc_page rfl hk
  obtain ⟨hspace, hwalk, hshows⟩ := h.space.kmalloc rfl hk
  rw [hnodes] at hspace
  have hnode : p ∉ s'.tables := (hspace.nodes p List.mem_cons_self).1
  obtain ⟨hset, hwalk'⟩ := hspace.setVma hnode v
  have hcount : mm.count = 0 := h.count
  refine ⟨⟨by simpa [Mm.nodes, hcount] using hset, ?_, .trans ⟨[p], hsup.symm⟩ h.supply,
    fun w page hw hp => ?_, by simp [hcount], by simp, fun first hfirst => ?_⟩,
    fun img hs w hw => ?_⟩
  · show ∀ x ∈ s'.tables, x ∈ old ∨ x ∈ pool
    rw [htab]
    exact h.tables
  · rw [hwalk', hwalk] at hp
    exact h.frames w page hw hp
  · obtain rfl : p = first := Option.some.inj hfirst
    obtain ⟨hv, hend, -⟩ := setVma_node s' p v
    exact ⟨by simp, h.supply.subset (by rw [hsup]; exact List.mem_cons_self), hv, hend, trivial⟩
  · rw [hspace.loadByte_setVma hnode v fun hp => absurd hp ?_]
    · exact hshows img hs w hw
    · intro hp
      exact (hspace.frame w p hw hp).2 List.mem_cons_self

/-- Any other node is in the page after the last one, if only that is no table. -/
theorem Loading.linkNode {node : ℕ} (h : Loading old pool s t mm vs) (hfirst : mm.mmap = some first)
    (hlow : first + vs.length < 2 ^ 19) (hnode : first + vs.length ∉ s.tables)
    (hok : s.vmaMalloc mm = .ok (s₁, mm₁, node)) (v : Vma) :
    node = first + vs.length ∧ mm₁ = ⟨vs.length + 1, some first⟩ ∧
      (s₁.setVma node v).Space t mm.nodes ∧ s₁.tables = s.tables ∧ s₁.supply = s.supply ∧
      (∀ w, translate (s₁.setVma node v).mem t w = translate s.mem t w) ∧
      Chain (s₁.setVma node v).mem first (vs ++ [v]) ∧
      ∀ w, pml4Off w ≠ 511 → (translate s.mem t w = some node → w % 4096 < 8 ∨ 64 ≤ w % 4096) →
        loadByte (s₁.setVma node v).mem t w = loadByte s.mem t w := by
  obtain ⟨hne, -, hchain⟩ := h.list first hfirst
  have hpos : 0 < vs.length := List.length_pos_iff.2 hne
  have hlast : lastVma (mm.count + 1) s first = .ok (first + vs.length - 1) :=
    hchain.lastVma hne (by rw [h.count]; omega) (by omega)
  simp only [vmaMalloc, hfirst, hlast] at hok
  obtain ⟨hs, hpair⟩ := Prod.mk.inj (Except.ok.inj hok)
  obtain ⟨hmm, hnode'⟩ := Prod.mk.inj hpair
  rw [show first + vs.length - 1 + 1 = first + vs.length by omega] at hs hnode'
  subst hs hnode' hmm
  have hmem : first + vs.length - 1 ∈ mm.nodes := by
    simp only [Mm.nodes, hfirst, h.count, List.mem_range'_1]
    omega
  obtain ⟨hlink, hwalk⟩ :=
    h.space.poke (h.space.nodes _ hmem).1 7 (VADDR ((first + vs.length) * 4096))
  obtain ⟨hset, hwalk'⟩ := hlink.setVma hnode v
  obtain ⟨hv, hend, -⟩ := setVma_node
    (s.poke (first + vs.length - 1) 7 (VADDR ((first + vs.length) * 4096))) (first + vs.length) v
  refine ⟨rfl, by rw [h.count], hset, rfl, rfl, fun w => (hwalk' w).trans (hwalk w),
    hchain.snoc hne (fun j i hj hi => ?_) ?_ hv hend, fun w hw hbyte => ?_⟩
  · rw [setVma_mem (by omega)]
    refine Radix.set_of_ne _ ?_
    by_cases hj' : j + 1 = vs.length
    · exact Or.inr (hi hj')
    · exact Or.inl (by omega)
  · rw [setVma_mem (by omega)]
    exact Radix.set_same _ _ _
  · rw [hlink.loadByte_setVma hnode v (by rw [hwalk]; exact hbyte)]
    have hown : translate s.mem t w ≠ some (first + vs.length - 1) := fun hp =>
      (h.space.frame w _ hw hp).2 hmem
    rw [loadByte, loadByte, hwalk]
    rcases hp : translate s.mem t w with _ | page
    · rfl
    · have hne : page ≠ first + vs.length - 1 := by
        rintro rfl
        exact hown hp
      simp only [Option.map_some, byteAt, poke, Radix.set_of_ne _ (Or.inl hne)]

/-- A node in a page nobody has. -/
theorem Loading.nextNode {node : ℕ} (h : Loading old pool s t mm vs) (hfirst : mm.mmap = some first)
    (hlow : first + vs.length < 2 ^ 19)
    (hgap : first + vs.length ∉ old ∧ first + vs.length ∉ pool)
    (hok : s.vmaMalloc mm = .ok (s₁, mm₁, node)) (v : Vma) :
    Loading old pool (s₁.setVma node v) t mm₁ (vs ++ [v]) ∧
      ∀ img, Shows s.mem t img → Shows (s₁.setVma node v).mem t img := by
  have htables : first + vs.length ∉ s.tables := fun hx => by
    rcases h.tables _ hx with hx | hx
    · exact hgap.1 hx
    · exact hgap.2 hx
  have hown : ∀ w, pml4Off w ≠ 511 → translate s.mem t w ≠ some (first + vs.length) :=
    fun w hw hp => hgap.2 (h.frames w _ hw hp)
  obtain ⟨hne, hpool, -⟩ := h.list first hfirst
  obtain ⟨rfl, rfl, hspace, htab, hsup, hwalk, hchain, hbytes⟩ :=
    h.linkNode hfirst hlow htables hok v
  have hnodes : Mm.nodes ⟨vs.length + 1, some first⟩ = mm.nodes ++ [first + vs.length] := by
    simp only [Mm.nodes, hfirst, h.count, List.range'_concat, Nat.one_mul]
  refine ⟨⟨?_, ?_, ?_, fun w page hw hp => ?_, by simp, by simp, fun first' hfirst' => ?_⟩,
    fun img hs w hw => ?_⟩
  · rw [hnodes]
    refine hspace.addNode ⟨?_, ?_⟩ fun w hw => by rw [hwalk]; exact hown w hw
    · show _ ∉ s₁.tables
      rwa [htab]
    · show _ ∉ s₁.supply
      rw [hsup]
      exact fun hx => hgap.2 (h.supply.subset hx)
  · show ∀ x ∈ s₁.tables, _
    rw [htab]
    exact h.tables
  · show s₁.supply <:+ pool
    rw [hsup]
    exact h.supply
  · rw [hwalk] at hp
    exact h.frames w page hw hp
  · obtain rfl : first = first' := Option.some.inj hfirst'
    exact ⟨by simp, hpool, hchain⟩
  · rw [hbytes w hw fun hp => absurd hp (hown w hw)]
    exact hs w hw

/-! ## One segment -/

/-- The pages of a segment. -/
def Phdr.pages (ph : Phdr) : ℕ :=
  (getEndingPage ((ph.pVaddr + ph.pMemsz) % 2 ^ 64) - getStartingPage ph.pVaddr) / 4096

/-- No byte of a segment is in the kernel's half. -/
def Phdr.Outside (ph : Phdr) : Prop :=
  ∀ i, i < ph.pFilesz ∨ i < ph.pMemsz → pml4Off (ph.pVaddr + i) ≠ 511

def Phdr.vpages (ph : Phdr) : List ℕ := Vm.vpages (getStartingPage ph.pVaddr) ph.pages

/-- What a program sees of a segment. -/
def Phdr.load (f : Elf) (img : ℕ → Option ℕ) (ph : Phdr) : ℕ → Option ℕ :=
  Image.put (List.replicate (ph.pMemsz - ph.pFilesz) 0) ((ph.pVaddr + ph.pFilesz) % 2 ^ 48)
    (Image.put (f.bytes ph.pOffset ph.pFilesz) (ph.pVaddr % 2 ^ 48)
      (Image.clear 4096 ph.vpages img))

theorem Phdr.zeros_le (ph : Phdr) : ph.zeros ≤ ph.pMemsz - ph.pFilesz := by
  unfold Phdr.zeros
  split_ifs
  · exact Nat.mod_le _ _
  · exact Nat.zero_le _

/-- A segment that fits in an address space, with sizes that fit in an `int`. -/
structure Phdr.Fits (ph : Phdr) : Prop where
  file : ph.pFilesz ≤ ph.pMemsz
  size : ph.pMemsz < 2 ^ 32
  space : ph.pVaddr % 2 ^ 48 + ph.pMemsz < 2 ^ 48
  top : ph.pVaddr + ph.pMemsz + 4096 ≤ 2 ^ 64

theorem length_bytes (f : Elf) (off n : ℕ) : (f.bytes off n).length = n := by
  simp [Elf.bytes]

/-- The bytes of a segment go to the pages mapped for it. -/
theorem Loading.fill (h : Loading old pool s t mm vs) (hout : ph.Outside)
    (hok : s.fillSegment f t ph = .ok s₁) :
    Loading old pool s₁ t mm vs ∧
      (∃ s', mapPages t ph.pages s (getStartingPage ph.pVaddr) = .ok s' ∧ s₁.tables = s'.tables ∧
        s₁.supply = s'.supply ∧ ∀ v, translate s₁.mem t v = translate s'.mem t v) ∧
      ∀ img, ph.Fits → Shows s.mem t img → Shows s₁.mem t (ph.load f img) := by
  obtain ⟨sa, sb, ha, hb, hok⟩ := fillSegment_ok.1 hok
  obtain ⟨hla, hregion⟩ := h.region ha
  have hzeros := ph.zeros_le
  have hfile := Nat.mod_le ph.pFilesz (2 ^ 32)
  obtain ⟨hlb, htb, hsb, hwb, hshowb⟩ := hla.store (fun i hi => by
    rw [length_bytes] at hi
    exact hout i (Or.inl (by omega))) hb
  obtain ⟨hlc, htc, hsc, hwc, hshowc⟩ := hlb.store (fun i hi => by
    rw [List.length_replicate] at hi
    have hbyte := hout (ph.pFilesz + i) (Or.inr (by omega))
    rw [pml4Off, off_eq] at hbyte ⊢
    omega) hok
  refine ⟨hlc, ⟨sa, ha, htc.trans htb, hsc.trans hsb, fun v => (hwc v).trans (hwb v)⟩,
    fun img hfits hs => ?_⟩
  obtain ⟨hle, hsize, hspace, -⟩ := hfits
  have hzeros' : ph.zeros = ph.pMemsz - ph.pFilesz := by
    unfold Phdr.zeros
    split_ifs
    · exact Nat.mod_eq_of_lt (by omega)
    · omega
  have hput := hshowc _ (by
    rw [List.length_replicate, hzeros']
    omega) (hshowb _ (by rw [length_bytes]; omega) (hregion.shows img hs))
  rw [hzeros', Nat.mod_eq_of_lt (show ph.pFilesz < 2 ^ 32 by omega),
    show (ph.pVaddr + ph.pFilesz) % 2 ^ 64 % 2 ^ 48 = (ph.pVaddr + ph.pFilesz) % 2 ^ 48 by omega]
    at hput
  exact hput

/-- One turn of the loop, where the page for the VMA is nobody's. -/
theorem Loading.segment (h : Loading old pool s t mm vs) (hload : ph.pType = 1) (hout : ph.Outside)
    (hlow : ∀ x ∈ pool, x + vs.length < 2 ^ 19)
    (hgap : vs ≠ [] → ∀ x ∈ pool, x + vs.length ∉ old ∧ x + vs.length ∉ pool)
    (hok : s.loadSegment f t mm ph = .ok (s₁, mm₁)) :
    Loading old pool s₁ t mm₁ (vs ++ [f.vma ph]) ∧
      ∀ img, ph.Fits → Shows s.mem t img → Shows s₁.mem t (ph.load f img) := by
  obtain ⟨sa, sb, node, ha, hb, rfl⟩ := loadSegment_ok hload hok
  obtain ⟨hfill, -, hshows⟩ := h.fill hout ha
  have hnode : Loading old pool (sb.setVma node (f.vma ph)) t mm₁ (vs ++ [f.vma ph]) ∧
      ∀ img, Shows sa.mem t img → Shows (sb.setVma node (f.vma ph)).mem t img := by
    rcases hmm : mm.mmap with _ | first
    · exact hfill.firstNode hmm hb _
    · obtain ⟨hne, hpool, -⟩ := hfill.list first hmm
      exact hfill.nextNode hmm (hlow first hpool) (hgap hne first hpool) hb _
  exact ⟨hnode.1, fun img hfits hs => hnode.2 _ (hshows img hfits hs)⟩

end Vm

end Bgox
