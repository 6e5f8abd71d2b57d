import Bgox.Proofs.PageMap
import Bgox.Proofs.SpaceInv

/-!
# Launching a process

With enough memory `elf_run_bin` and `sys_fork` get as far as the segments or VMAs they are given:
the new PML4 has a stack, and the stores to it go to its page (`exists_store`).
-/

namespace Bgox

open Run (bind_eq_ok)

theorem translate_page {mem : ℕ → ℕ → ℕ} {pml4 base off : ℕ} (hbase : base % 4096 = 0)
    (hoff : off < 4096) : translate mem pml4 (base + off) = translate mem pml4 base := by
  have hpage : offsets (base + off) = offsets base := by
    rw [offsets_eq_iff, vpage, vpage]
    congr 1
    omega
  rw [translate, translate, walk, walk, hpage]

namespace Vm

variable {s s₁ : Vm} {lab : ℕ → Option (List ℕ)} {pml4 page base off : ℕ}

/-! ## Stores to one page -/

/-- The lowest byte of a word, where the bits of an entry are. -/
theorem setByte_low (w k b : ℕ) : setByte w k b % 256 = if k = 0 then b % 256 else w % 256 := by
  unfold setByte
  cases k with
  | zero =>
    simp only [Nat.pow_zero, Nat.div_one, Nat.mul_one, if_true]
    omega
  | succ k =>
    rw [if_neg (Nat.succ_ne_zero k), Nat.pow_succ, ← Nat.mul_assoc, ← Nat.mul_assoc]
    have hle : w / (256 ^ k * 256) % 256 * 256 ^ k * 256 ≤ w := by
      rw [Nat.mul_assoc]
      exact (Nat.mul_le_mul_right _ (Nat.mod_le _ _)).trans (Nat.div_mul_le_self _ _)
    generalize w / (256 ^ k * 256) % 256 * 256 ^ k = x at hle
    generalize b % 256 * 256 ^ k = y
    omega

/-- The bytes `bs` are in a page from `off` on, and nothing else is different. -/
structure Filled (page off : ℕ) (bs : List ℕ) (s s₁ : Vm) : Prop where
  other : ∀ n, n ≠ page → s₁.mem n = s.mem n
  supply : s₁.supply = s.supply
  tables : s₁.tables = s.tables
  clobbered : page ∉ s.tables → s₁.clobbered = s.clobbered
  before : ∀ j, 8 * j < off → s₁.mem page j % 256 = s.mem page j % 256
  /-- For bytes that are all alike. -/
  stored : ∀ c, (∀ b ∈ bs, b % 256 = c) → ∀ j, off ≤ 8 * j → 8 * j < off + bs.length →
    s₁.mem page j % 256 = c

theorem pokeByte_low (b j : ℕ) :
    (s.pokeByte page off b).mem page j % 256
      = if off = 8 * j then b % 256 else s.mem page j % 256 := by
  by_cases hj : j = off / 8
  · subst hj
    simp only [pokeByte, poke, Radix.set_same, setByte_low]
    by_cases h8 : off % 8 = 0
    · rw [if_pos h8, if_pos (by omega)]
    · rw [if_neg h8, if_neg (by omega)]
  · rw [if_neg (by omega)]
    simp only [pokeByte, poke, Radix.set_of_ne _ (Or.inr hj)]

theorem Filled.cons {b : ℕ} {bs : List ℕ}
    (h : Filled page (off + 1) bs (s.pokeByte page off b) s₁) : Filled page off (b :: bs) s s₁ where
  other := fun n hn => by
    rw [h.other n hn]
    funext i
    exact Radix.set_of_ne _ (Or.inl hn)
  supply := h.supply
  tables := h.tables
  clobbered := fun hp => by
    rw [h.clobbered hp]
    simp [pokeByte, poke, hp]
  before := fun j hj => by rw [h.before j (by omega), pokeByte_low, if_neg (by omega)]
  stored := fun c hbs j hle hlt => by
    rw [List.length_cons] at hlt
    by_cases hj : off = 8 * j
    · rw [h.before j (by omega), pokeByte_low, if_pos hj]
      exact hbs b List.mem_cons_self
    · exact h.stored c (fun b hb => hbs b (List.mem_cons_of_mem _ hb)) j (by omega) (by omega)

/-- The page an address is translated to does not depend on what is in that page. -/
def Stable (s : Vm) (pml4 base page : ℕ) : Prop :=
  ∀ mem : ℕ → ℕ → ℕ, (∀ n, n ≠ page → mem n = s.mem n) → translate mem pml4 base = some page

theorem exists_store (hbase : base % 4096 = 0) (hbound : base + 4096 ≤ 2 ^ 64) :
    ∀ (bs : List ℕ) (off : ℕ) {s : Vm}, s.Stable pml4 base page → off + bs.length ≤ 4096 →
    ∃ s₁, store pml4 bs s ((base + off) % 2 ^ 64) = .ok s₁ ∧ Filled page off bs s s₁
  | [], off, s, _, _ =>
    ⟨s, rfl, fun _ _ => rfl, rfl, rfl, fun _ => rfl, fun _ _ => rfl, fun _ _ j hle hlt => by
      simp only [List.length_nil] at hlt
      omega⟩
  | b :: bs, off, s, hstable, hlen => by
    rw [List.length_cons] at hlen
    have hva : (base + off) % 2 ^ 64 = base + off := Nat.mod_eq_of_lt (by omega)
    have htr : translate s.mem pml4 (base + off) = some page := by
      rw [translate_page hbase (by omega)]
      exact hstable s.mem fun _ _ => rfl
    obtain ⟨s₁, hs, hfill⟩ := exists_store hbase hbound bs (off + 1)
      (s := s.pokeByte page off b) (fun mem hmem => hstable mem fun n hn => by
        rw [hmem n hn]
        funext i
        exact Radix.set_of_ne _ (Or.inl hn)) (by omega)
    refine ⟨s₁, ?_, hfill.cons⟩
    rw [hva, store_cons]
    simp only [htr]
    rw [show (base + off) % 4096 = off by omega, Nat.add_assoc]
    exact hs

theorem stable_of_labels (hw : s.Labels lab) (hroot : lab pml4 = some []) (hpage : page ∉ s.tables)
    (h : translate s.mem pml4 base = some page) : s.Stable pml4 base page := by
  intro mem hmem
  rw [translate, walk, hw.tree.trail_congr (j := 0) ?_ hroot (Nat.zero_le _) (by simp [offsets])]
  · exact h
  · intro n l hn _ i
    rw [hmem n]
    rintro rfl
    exact hpage ((hw.tables n).2 ⟨l, hn⟩)

theorem Filled.stable {bs : List ℕ} (h : Filled page off bs s s₁) (hs : s.Stable pml4 base page) :
    s₁.Stable pml4 base page :=
  fun mem hmem => hs mem fun n hn => (hmem n hn).trans (h.other n hn)

theorem Filled.takes {bs : List ℕ} (h : Filled page off bs s s₁) (hpage : page ∉ s.tables) :
    Takes 0 s s₁ := ⟨[], Nat.le_refl 0, h.supply.symm, h.tables, h.clobbered hpage⟩

/-- A page of memory at an address. -/
theorem Fresh.exists_mapPage {rest : List ℕ} (h : s.Fresh) (hc : s.clobbered = [])
    (hw : s.Labels lab) (hroot : lab pml4 = some []) (hsup : s.supply = page :: rest)
    (hlen : 3 ≤ rest.length) (v : ℕ) :
    ∃ s' s₁, s.kmalloc 1 = .ok (s', page) ∧
      s'.initMapVirtPhysAddr v (page * 4096) 1 pml4 1 = .ok s₁ ∧
      Takes 3 { s with supply := rest } s₁ ∧ page ∉ s₁.tables ∧ s₁.Stable pml4 v page ∧
      ∀ r w, lab r = some [] → offsets w ≠ offsets v → walk s₁.mem r w = walk s.mem r w := by
  obtain ⟨hnodup, hnew⟩ := h
  rw [hsup] at hnodup hnew
  obtain ⟨hpage, hnodup⟩ := List.nodup_cons.1 hnodup
  obtain ⟨mem, hk⟩ := exists_kmalloc_page 1 hsup rfl (hnew page List.mem_cons_self)
  have hdata := kmalloc_data hk
  have hwk := (hdata.grows hc hw).wf
  have hfresh : Fresh { s with supply := rest, mem } :=
    ⟨hnodup, fun x hx => hnew x (List.mem_cons_of_mem _ hx)⟩
  obtain ⟨s₁, hm, htakes⟩ := hfresh.initMap hlen hwk hroot v (page * 4096) 1
  obtain ⟨lab₁, hgrow, hframe, e₄, e₃, e₂, hwalk, -⟩ :=
    initMap_one (fun _ => trivial) hwk hroot hm (htakes.clobbered.trans hc)
  have hpage₁ : page ∉ s₁.tables := fun ht => by
    rcases htakes.mem_tables ht with ht | ht
    · exact hnew page List.mem_cons_self ht
    · exact hpage ht
  refine ⟨_, s₁, hk, hm, htakes, hpage₁,
    stable_of_labels hgrow.wf (hgrow.ext.mono _ _ hroot) hpage₁ ?_, fun r w hr hne => ?_⟩
  · simp [translate, hwalk, entryPage_leafEntry_page]
  · rw [walk, hframe r [] (offsets w) hr rfl hne]
    exact hdata.walk hc hw hr w

end Vm

/-! ## A new address space and its stack -/

namespace System

variable {s : System} {lab : ℕ → Option (List ℕ)} {t ret : ℕ} {rest : List ℕ}

/-- The address of a stack. -/
def stackAt (ret : ℕ) : ℕ := (Vm.bumpPtr + ret * 4096) % 2 ^ 64

theorem stackAt_aligned (ret : ℕ) : stackAt ret % 4096 = 0 ∧ stackAt ret + 4096 ≤ 2 ^ 64 := by
  unfold stackAt Vm.bumpPtr
  omega

theorem Inv.exists_newSpace (h : s.Inv lab) (hc : s.vm.clobbered = []) {row : ℕ → ℕ}
    (hrow : ∀ i c, entryChild (row i) = some c → ∃ r, lab r = some [] ∧ row i = s.vm.mem r i)
    (hsup : s.vm.supply = ret :: rest) (hnodup : (t :: ret :: rest).Nodup)
    (hnew : ∀ x ∈ t :: ret :: rest, x ∉ s.vm.tables) (hlen : 3 ≤ rest.length) :
    ∃ vm, (s.vm.addRoot t row).kmallocStack 1 t = .ok (vm, stackAt ret) ∧
      Vm.Takes 3 { s.vm with supply := rest, tables := t :: s.vm.tables } vm ∧
      ret ∉ vm.tables ∧ vm.Stable t (stackAt ret) ret ∧
      ∀ r v, lab r = some [] → offsets v ≠ offsets (stackAt ret) →
        walk vm.mem r v = walk s.vm.mem r v := by
  have ht := hnew t List.mem_cons_self
  obtain ⟨hext, hwf⟩ := Vm.addRoot_labels h.wf ht hrow
  have hlt : Function.update lab t (some []) t = some [] := by simp
  obtain ⟨htsup, hnodup⟩ := List.nodup_cons.1 hnodup
  have hfresh : Vm.Fresh (s.vm.addRoot t row) := by
    rw [Vm.Fresh, Vm.addRoot, hsup]
    refine ⟨hnodup, fun x hx => List.not_mem_cons_of_ne_of_not_mem ?_ (hnew x (by simp [hx]))⟩
    rintro rfl
    exact htsup hx
  obtain ⟨vmk, vm, hk, hm, htakes, hret, hstable, hwalk⟩ :=
    hfresh.exists_mapPage hc hwf hlt hsup hlen (stackAt ret)
  refine ⟨vm, bind_eq_ok.2 ⟨_, hk, bind_eq_ok.2 ⟨vm, hm, rfl⟩⟩, ?_, hret, hstable,
    fun r v hr hne => ?_⟩
  · obtain ⟨used, hlen, hsup, htab, hclob⟩ := htakes
    exact ⟨used, hlen, hsup, htab, hclob⟩
  · rw [hwalk r v (hext.mono _ _ hr) hne]
    refine h.wf.tree.trail_congr (j := 0) (fun n l hn _ i => ?_) hr (Nat.zero_le _)
      (by simp [offsets])
    have hnt : n ≠ t := by
      rintro rfl
      exact ht ((h.wf.tables n).2 ⟨l, hn⟩)
    simp [Vm.addRoot, hnt]

/-- With something on the stack. -/
theorem Inv.exists_stack (h : s.Inv lab) (hc : s.vm.clobbered = []) {row : ℕ → ℕ}
    (hrow : ∀ i c, entryChild (row i) = some c → ∃ r, lab r = some [] ∧ row i = s.vm.mem r i)
    (htop : row 511 = s.vm.mem s.ker 511) (hsup : s.vm.supply = ret :: rest)
    (hnodup : (t :: ret :: rest).Nodup) (hnew : ∀ x ∈ t :: ret :: rest, x ∉ s.vm.tables)
    (hlen : 3 ≤ rest.length) (hlow : ∀ p ∈ ret :: rest, p < 2 ^ 27) {bs : List ℕ}
    (hbs : bs.length = 4096) :
    ∃ vm vm' lab₁, (s.vm.addRoot t row).kmallocStack 1 t = .ok (vm, stackAt ret) ∧
      Vm.store t bs vm (stackAt ret) = .ok vm' ∧
      Inv { s with vm := vm', procs := s.procs ++ [⟨t, stackAt ret⟩] } lab₁ ∧
      Vm.Takes 3 { s.vm with supply := rest, tables := t :: s.vm.tables } vm' ∧
      vm'.Stable t (stackAt ret) ret ∧
      ∀ r v, lab r = some [] → offsets v ≠ offsets (stackAt ret) →
        walk vm'.mem r v = walk s.vm.mem r v := by
  obtain ⟨vm, hs, htakes, hret, hstable, hwalk⟩ := h.exists_newSpace hc hrow hsup hnodup hnew hlen
  have hcv : vm.clobbered = [] := htakes.clobbered.trans hc
  obtain ⟨lab₁, h₁, hext, -⟩ :=
    h.newSpace (hnew t List.mem_cons_self) hrow htop (hsup ▸ hlow) hs hcv
  obtain ⟨halign, hbound⟩ := stackAt_aligned ret
  obtain ⟨vm', hz, hfill⟩ := Vm.exists_store halign hbound bs 0 hstable (by rw [hbs])
  rw [Nat.add_zero, Nat.mod_eq_of_lt (by omega)] at hz
  have hcv' : vm'.clobbered = [] := (hfill.clobbered hret).trans hcv
  refine ⟨vm, vm', lab₁, hs, hz, h₁.data (Vm.store_data hz) hcv', htakes.trans (hfill.takes hret),
    hfill.stable hstable, fun r v hr hne => ?_⟩
  rw [(Vm.store_data hz).walk hcv' h₁.wf (hext.mono _ _ hr) v, hwalk r v hr hne]

theorem Inv.exists_newProcess (h : s.Inv lab) (hc : s.vm.clobbered = []) {pcb : ℕ}
    (hsup : s.vm.supply = t :: pcb :: ret :: rest) (hnodup : (t :: ret :: rest).Nodup)
    (hnew : ∀ x ∈ t :: ret :: rest, x ∉ s.vm.tables)
    (hpcb : ∀ x ∈ s.vm.tables, ¬ (pcb ≤ x ∧ x < pcb + 9)) (hlen : 3 ≤ rest.length)
    (hlow : ∀ p ∈ ret :: rest, p < 2 ^ 27) :
    ∃ vm lab₁, s.newProcess = .ok (vm, t, stackAt ret) ∧
      Inv { s with vm, procs := s.procs ++ [⟨t, stackAt ret⟩] } lab₁ ∧
      Vm.Takes 3 { s.vm with supply := rest, tables := t :: s.vm.tables } vm ∧
      vm.Stable t (stackAt ret) ret ∧
      ∀ r v, lab r = some [] → offsets v ≠ offsets (stackAt ret) →
        walk vm.mem r v = walk s.vm.mem r v := by
  obtain ⟨mema, ha⟩ := Vm.exists_kmalloc_page sizeofPage hsup rfl
    (hnew t List.mem_cons_self)
  obtain ⟨memb, hb⟩ := Vm.exists_kmalloc
    (s := { s.vm with supply := pcb :: ret :: rest, mem := mema }) sizeofTaskStruct rfl (by decide)
    hpcb
  have hdata := (Vm.kmalloc_data ha).trans (Vm.kmalloc_data hb)
  have h₀ := h.data hdata hc
  have hrow := row_of_ker h.ker memb
  obtain ⟨vm, vm', lab₁, hs, hz, h₁, htakes, hstable, hwalk⟩ :=
    h₀.exists_stack hc hrow (by simp) rfl hnodup hnew hlen hlow
      (List.length_replicate : (List.replicate 4096 0).length = 4096)
  refine ⟨vm', lab₁, ?_, h₁, htakes, hstable, fun r v hr hne => ?_⟩
  · simp only [newProcess_eq, ha, hb, hs, hz, bind, Except.bind]
    rfl
  · rw [hwalk r v hr hne, hdata.walk hc h.wf hr v]

/-- `elf_run_bin` with enough memory, up to the segments. -/
theorem Inv.exists_elfRunBin (h : s.Inv lab) (hc : s.vm.clobbered = []) {pcb : ℕ}
    (hsup : s.vm.supply = t :: pcb :: ret :: rest) (hnodup : (t :: ret :: rest).Nodup)
    (hnew : ∀ x ∈ t :: ret :: rest, x ∉ s.vm.tables)
    (hpcb : ∀ x ∈ s.vm.tables, ¬ (pcb ≤ x ∧ x < pcb + 9)) (hlen : 3 ≤ rest.length)
    (hlow : ∀ p ∈ ret :: rest, p < 2 ^ 27) (f : Vm.Elf) :
    ∃ vm lab₁, (s.elfRunBin f = do
        let vm ← vm.loadSegments f t f.phdrs ⟨0, none⟩
        return { s with vm, procs := s.procs ++ [⟨t, stackAt ret⟩] }) ∧
      Inv { s with vm, procs := s.procs ++ [⟨t, stackAt ret⟩] } lab₁ ∧
      Vm.Takes 3 { s.vm with supply := rest, tables := t :: s.vm.tables } vm ∧
      vm.Stable t (stackAt ret) ret ∧
      ∀ r v, lab r = some [] → offsets v ≠ offsets (stackAt ret) →
        walk vm.mem r v = walk s.vm.mem r v := by
  obtain ⟨vm, lab₁, hprocess, hrest⟩ := h.exists_newProcess hc hsup hnodup hnew hpcb hlen hlow
  exact ⟨vm, lab₁, by rw [elfRunBin_eq, hprocess]; rfl, hrest⟩

theorem length_flatMap_bytesOf (ws : List ℕ) :
    (ws.flatMap Vm.bytesOf).length = 8 * ws.length := by
  induction ws with
  | nil => rfl
  | cons w ws ih =>
    simp only [List.flatMap_cons, List.length_append, ih, List.length_cons]
    rw [show (Vm.bytesOf w).length = 8 from rfl]
    omega

/-- The child of a process whose stack is mapped. -/
theorem Inv.exists_newChild (h : s.Inv lab) (hc : s.vm.clobbered = []) (parent : Proc)
    (hparent : lab parent.pml4 = some []) {page : ℕ}
    (hpage : translate s.vm.mem parent.pml4 parent.ustack = some page) {pcb node kstack temp : ℕ}
    (hsup : s.vm.supply = pcb :: node :: t :: kstack :: temp :: ret :: rest)
    (hnodup : (t :: ret :: rest).Nodup)
    (hnew : ∀ x ∈ node :: kstack :: temp :: t :: ret :: rest, x ∉ s.vm.tables)
    (hpcb : ∀ x ∈ s.vm.tables, ¬ (pcb ≤ x ∧ x < pcb + 9)) (hlen : 3 ≤ rest.length)
    (hlow : ∀ p ∈ ret :: rest, p < 2 ^ 27) :
    ∃ vm lab₁ words, s.newChild parent = .ok (vm, t, stackAt ret, words) ∧
      Inv { s with vm, procs := s.procs ++ [⟨t, stackAt ret⟩] } lab₁ ∧
      Vm.Takes 3 { s.vm with supply := rest, tables := t :: s.vm.tables } vm ∧
      ∀ r v, lab r = some [] → offsets v ≠ offsets (stackAt ret) →
        walk vm.mem r v = walk s.vm.mem r v := by
  have hnew' : ∀ x ∈ t :: ret :: rest, x ∉ s.vm.tables := fun x hx =>
    hnew x (List.mem_cons_of_mem _ (List.mem_cons_of_mem _ (List.mem_cons_of_mem _ hx)))
  obtain ⟨mema, ha⟩ := Vm.exists_kmalloc sizeofTaskStruct hsup (by decide) hpcb
  obtain ⟨memb, hb⟩ := Vm.exists_kmalloc_page sizeofPage (p := node)
    (s := ⟨mema, node :: t :: kstack :: temp :: ret :: rest, s.vm.tables, s.vm.clobbered⟩) rfl rfl
    (hnew node (by simp))
  obtain ⟨memt, ht⟩ := Vm.exists_kmalloc_page sizeofPage (p := t)
    (s := ⟨memb, t :: kstack :: temp :: ret :: rest, s.vm.tables, s.vm.clobbered⟩) rfl rfl
    (hnew t (by simp))
  obtain ⟨memd, hd⟩ := Vm.exists_kmalloc_page 1 (p := kstack)
    (s := ⟨memt, kstack :: temp :: ret :: rest, s.vm.tables, s.vm.clobbered⟩) rfl rfl
    (hnew kstack (by simp))
  obtain ⟨meme, he⟩ := Vm.exists_kmalloc_page 1 (p := temp)
    (s := ⟨memd, temp :: ret :: rest, s.vm.tables, s.vm.clobbered⟩) rfl rfl
    (hnew temp (by simp))
  have hdata := (((Vm.kmalloc_data ha).trans (Vm.kmalloc_data hb)).trans
    (Vm.kmalloc_data ht)).trans ((Vm.kmalloc_data hd).trans (Vm.kmalloc_data he))
  have hstack : Vm.loadPage ⟨meme, ret :: rest, s.vm.tables, s.vm.clobbered⟩ parent.pml4
      parent.ustack = .ok ((List.range 512).map (meme page)) := by
    have hwalk := hdata.walk hc h.wf hparent parent.ustack
    rw [translate, ← hwalk] at hpage
    simp only [Vm.loadPage, translate, hpage]
  have htemp := Vm.row_data (s := ⟨meme, ret :: rest, s.vm.tables, s.vm.clobbered⟩)
    (hnew temp (by simp)) fun j => ((List.range 512).map (meme page)).getD j 0
  have h₀ := h.data (hdata.trans htemp) hc
  have hbytes : (((List.range 512).map (meme page)).flatMap Vm.bytesOf).length = 4096 := by
    rw [length_flatMap_bytesOf, List.length_map, List.length_range]
  obtain ⟨vm, vm', lab₁, hs, hz, h₁, htakes, -, hwalk⟩ := h₀.exists_stack hc
    (fun i _ _ => ⟨parent.pml4, hparent, rfl⟩) (h₀.shared _ hparent) rfl hnodup hnew' hlen hlow
    hbytes
  refine ⟨vm', lab₁, (List.range 512).map (meme page), ?_, h₁, htakes, fun r v hr hne => ?_⟩
  · simp only [newChild_eq, forkBlocks, ha, hb, ht, hd, he, hstack, hs, hz, bind, Except.bind, pure,
      Except.pure]
  · rw [hwalk r v hr hne, (hdata.trans htemp).walk hc h.wf hr v]

/-! ## A small machine -/

theorem vaddr_page {page : ℕ} (h : page < 2 ^ 19) :
    VADDR (page * 4096) = KERNEL_VADDR + page * 4096 ∧ pml4Off (VADDR (page * 4096)) = 511 := by
  have hv : VADDR (page * 4096) = KERNEL_VADDR + page * 4096 := by
    unfold VADDR KERNEL_VADDR
    omega
  refine ⟨hv, ?_⟩
  rw [hv, pml4Off, off_eq]
  unfold KERNEL_VADDR
  omega

/-- The kernel's addresses are not among those of the stacks. -/
theorem offsets_vaddr_ne {x : ℕ} (hx : x < 2 ^ 19) (hret : ret < 2 ^ 27) :
    offsets (VADDR (x * 4096)) ≠ offsets (stackAt ret) := by
  intro he
  have heq : pml4Off (VADDR (x * 4096)) = pml4Off (stackAt ret) := (List.cons.inj he).1
  have hlt := pml4Off_stack hret
  rw [(vaddr_page hx).2, stackAt] at heq
  omega

/-- A machine of 640 pages, with its tables among those from 560 to `n`.  The kernel has an address
for each of these. -/
structure Small (s : System) (n : ℕ) : Prop where
  clean : s.vm.clobbered = []
  ker : s.ker = 560
  tables : ∀ x ∈ s.vm.tables, 560 ≤ x ∧ x < n
  view : ∀ x, 560 ≤ x → x < 640 → translate s.vm.mem s.ker (VADDR (x * 4096)) = some x

theorem Small.sound {n : ℕ} (h : s.Small n) (hn : n ≤ 640) : s.Sound := by
  refine ⟨h.clean, fun x hx => h.view x (h.tables x hx).1 ?_⟩
  exact Nat.lt_of_lt_of_le (h.tables x hx).2 hn

theorem Small.notMem {n x : ℕ} (h : s.Small n) (hx : n ≤ x) : x ∉ s.vm.tables :=
  fun ht => absurd (h.tables x ht).2 (Nat.not_lt.2 hx)

/-- A `task_struct` behind the tables. -/
theorem Small.task {n pcb : ℕ} (h : s.Small n) (hn : n ≤ pcb) :
    ∀ x ∈ s.vm.tables, ¬ (pcb ≤ x ∧ x < pcb + 9) :=
  fun x hx hp => absurd (h.tables x hx).2 (Nat.not_lt.2 (hn.trans hp.1))

/-- A new address space. -/
theorem Small.next {n m : ℕ} (h : s.Small n) (hinv : s.Inv lab) (hnm : n ≤ m) {vm : Vm} {p : Proc}
    (htakes : Vm.Takes 3 { s.vm with supply := rest, tables := t :: s.vm.tables } vm)
    (hnew : ∀ x ∈ t :: rest, 560 ≤ x ∧ x < m) (hret : ret < 2 ^ 27)
    (hwalk : ∀ r v, lab r = some [] → offsets v ≠ offsets (stackAt ret) →
      walk vm.mem r v = walk s.vm.mem r v) :
    Small { s with vm, procs := s.procs ++ [p] } m where
  clean := htakes.clobbered.trans h.clean
  ker := h.ker
  tables := fun x hx => by
    rcases htakes.mem_tables hx with hx | hx
    · rcases List.mem_cons.1 hx with rfl | hx
      · exact hnew x List.mem_cons_self
      · exact ⟨(h.tables x hx).1, Nat.lt_of_lt_of_le (h.tables x hx).2 hnm⟩
    · exact hnew x (List.mem_cons_of_mem _ hx)
  view := fun x hle hlt => by
    simp only [translate, hwalk s.ker _ hinv.ker (offsets_vaddr_ne (by omega : x < 2 ^ 19) hret)]
    exact h.view x hle hlt

/-- Other pages are written. -/
theorem Small.data {n : ℕ} {vm : Vm} (h : s.Small n) (hinv : s.Inv lab) (hdata : Vm.Data s.vm vm)
    (hc : vm.clobbered = []) : Small { s with vm } n where
  clean := hc
  ker := h.ker
  tables := by
    rw [(hdata hc).2.1]
    exact h.tables
  view := fun x hle hlt => by
    rw [translate, hdata.walk hc hinv.wf hinv.ker]
    exact h.view x hle hlt

theorem start_small : ∃ s, start (fun _ _ => 0) (List.range' 560 10) 640 = .ok s ∧
    s.procs = [⟨560, 0⟩] ∧ s.Small 569 := by
  have h : (match start (fun _ _ => 0) (List.range' 560 10) 640 with
      | .error _ => false
      | .ok s => decide (s.procs = [⟨560, 0⟩] ∧ s.vm.clobbered = [] ∧ s.ker = 560 ∧
          (∀ x ∈ s.vm.tables, 560 ≤ x ∧ x < 569) ∧
          ∀ x ∈ List.range' 560 80,
            translate s.vm.mem s.ker (VADDR (x * 4096)) = some x)) = true := by
    decide +kernel
  split at h
  · cases h
  · rename_i s hs
    obtain ⟨hp, hc, hk, ht, hv⟩ := of_decide_eq_true h
    refine ⟨s, hs, hp, hc, hk, ht, fun x hle hlt => hv x ?_⟩
    rw [List.mem_range'_1]
    omega

/-- A first process there, of a file without segments. -/
theorem exists_shell : ∃ s₀ s, start (fun _ _ => 0) (List.range' 560 10) 640 = .ok s₀ ∧
    SoundStep s₀ (.elfRunBin ⟨0, fun _ => 0, []⟩, [578, 579, 588, 589, 590, 591]) s ∧ s.Small 592 ∧
    s.procs = [⟨560, 0⟩, ⟨578, stackAt 588⟩] ∧ 588 ∉ s.vm.tables ∧
    translate s.vm.mem 578 (stackAt 588) = some 588 := by
  obtain ⟨s₀, h₀, hprocs, hsmall⟩ := start_small
  obtain ⟨lab, hinv⟩ := start_inv h₀ hsmall.clean
  have hnew : ∀ x ∈ [578, 588, 589, 590, 591], x ∉ s₀.vm.tables := fun x hx =>
    hsmall.notMem ((by decide : ∀ x ∈ [578, 588, 589, 590, 591], 569 ≤ x) x hx)
  obtain ⟨vm, lab₁, helf, h₁, htakes, hstable, hwalk⟩ :=
    (hinv.supply [578, 579, 588, 589, 590, 591]).exists_elfRunBin hsmall.clean rfl (by decide) hnew
      (hsmall.task (by decide)) (by decide) (by decide) ⟨0, fun _ => 0, []⟩
  refine ⟨s₀, _, h₀, ⟨hsmall.sound (by decide), by simp [Op.on], by decide, helf⟩,
    hsmall.next hinv (by decide) htakes (by decide) (by decide) hwalk, by simp [hprocs],
    fun hmem => ?_, hstable vm.mem fun _ _ => rfl⟩
  -- the new tables are the PML4 and pages behind the stack's
  rcases htakes.mem_tables hmem with hmem | hmem
  · rcases List.mem_cons.1 hmem with hmem | hmem
    · cases hmem
    · exact hnew 588 (by simp) hmem
  · simp at hmem

/-- Memory, PML4 and stack of its child. -/
theorem Small.exists_newChild (h : s.Small 592) (hinv : s.Inv lab) (hparent : lab 578 = some [])
    (hpage : translate s.vm.mem 578 (stackAt 588) = some 588) :
    ∃ vm words, newChild
        { s with vm := { s.vm with supply := [592, 601, 602, 603, 604, 605, 606, 607, 608] } }
        ⟨578, stackAt 588⟩ = .ok (vm, 602, stackAt 605, words) ∧
      Small { s with vm, procs := s.procs ++ [⟨602, stackAt 605⟩] } 609 := by
  have hnew : ∀ x ∈ [601, 603, 604, 602, 605, 606, 607, 608], x ∉ s.vm.tables := fun x hx =>
    h.notMem ((by decide : ∀ x ∈ [601, 603, 604, 602, 605, 606, 607, 608], 592 ≤ x) x hx)
  obtain ⟨vm, -, words, hchild, -, htakes, hwalk⟩ :=
    (hinv.supply [592, 601, 602, 603, 604, 605, 606, 607, 608]).exists_newChild h.clean
      ⟨578, stackAt 588⟩ hparent hpage rfl (by decide) hnew (h.task (by decide)) (by decide)
      (by decide)
  exact ⟨vm, words, hchild, h.next hinv (by decide) htakes (by decide) (by decide) hwalk⟩

/-- Its child. -/
theorem exists_child : ∃ s₀ s s', start (fun _ _ => 0) (List.range' 560 10) 640 = .ok s₀ ∧
    SoundStep s₀ (.elfRunBin ⟨0, fun _ => 0, []⟩, [578, 579, 588, 589, 590, 591]) s ∧
    SoundStep s (.sysFork ⟨578, stackAt 588⟩ [] fun _ => 0,
      [592, 601, 602, 603, 604, 605, 606, 607, 608]) s' ∧ s'.Sound := by
  obtain ⟨s₀, s, h₀, hstep, hsmall, hprocs, -, hpage⟩ := exists_shell
  obtain ⟨lab₀, hinv₀⟩ := start_inv h₀ hstep.1.clean
  obtain ⟨lab, hinv⟩ := hinv₀.step hstep.2 hsmall.clean
  have hparent : lab 578 = some [] := hinv.procs ⟨578, stackAt 588⟩ (by simp [hprocs])
  obtain ⟨vm, words, hchild, hsmall'⟩ := hsmall.exists_newChild hinv hparent hpage
  exact ⟨s₀, s, _, h₀, hstep, ⟨hsmall.sound (by decide), by simp [Op.on, hprocs], by decide,
    (sysFork_eq _ _ _ _).trans (bind_eq_ok.2 ⟨_, hchild, rfl⟩)⟩, hsmall'.sound (by decide)⟩

end System

end Bgox
