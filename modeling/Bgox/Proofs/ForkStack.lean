import Bgox.Proofs.ForkCopy

/-!
# Where a child's stack pointer is

`sys_fork` does not look at the stack pointer the parent has come with.  It takes the first word of
the stack page that is not zero for the end of the stack, and lets the child start one word above
it.  That is the parent's place only if the word below the parent's stack pointer is the first that
is not zero (`child_rsp_iff`).
-/

namespace Bgox

open Run (bind_eq_ok)

namespace System

variable {s s' : System} {parent : Proc} {kstack ck : ℕ → ℕ} {isr32 : ℕ} {vmas : List Vm.Vma}
  {file : ℕ → ℕ}

/-- The words of the parent's stack page, as `sys_fork` reads them after its first allocations. -/
def stackRead (s : System) (parent : Proc) : Except Trap (List ℕ) := do
  let (vm, _) ← s.forkBlocks
  vm.loadPage parent.pml4 parent.ustack

/-- The offset of an address in a page. -/
def offsetIn (page a : ℕ) : Option ℕ :=
  if page ≤ a ∧ a < page + 4096 then some (a - page) else none

/-- The word below an offset is the first of the page that is not zero. -/
def TopAt (words : List ℕ) (o : ℕ) : Prop :=
  ∃ i, o = 8 * (i + 1) ∧ words.getD i 0 ≠ 0 ∧ ∀ j < i, words.getD j 0 = 0

/-! ## The child's kernel stack -/

theorem sysFork_kstack (h : s.sysFork parent vmas file = .ok s') (kstack : ℕ → ℕ) (isr32 : ℕ) :
    ∃ t ret words, s.stackRead parent = .ok words ∧ words.length = 512 ∧
      s'.procs = s.procs ++ [⟨t, stackAt ret⟩] ∧
      s.sysForkKstack parent kstack isr32 vmas file
        = .ok (s', childKstack kstack words (stackAt ret) isr32) := by
  obtain ⟨vm, vm', t, u, words, hnew, hcopy, rfl⟩ := sysFork_ok h
  obtain ⟨vma, vmb, temp, hblocks, hload, hstack, -⟩ := newChild_ok hnew
  obtain ⟨vmc, ret, -, rfl, -⟩ := Vm.kmallocStack_ok hstack
  refine ⟨t, ret, words, bind_eq_ok.2 ⟨_, hblocks, hload⟩, length_loadPage hload, rfl, ?_⟩
  have hresult : (s.sysForkTrace parent vmas file).result = .ok _ :=
    (result_sysForkTrace s parent vmas file).trans
      (bind_eq_ok.2 ⟨_, hnew, bind_eq_ok.2 ⟨_, hcopy, rfl⟩⟩)
  rw [sysForkKstack, hresult]
  rfl

/-- The call is `sys_fork`. -/
theorem sysForkKstack_map (s : System) (parent : Proc) (kstack : ℕ → ℕ) (isr32 : ℕ)
    (vmas : List Vm.Vma) (file : ℕ → ℕ) :
    Prod.fst <$> s.sysForkKstack parent kstack isr32 vmas file = s.sysFork parent vmas file := by
  simp only [sysForkKstack, sysFork, Functor.map_map]

theorem childKstack_rsp (kstack : ℕ → ℕ) (words : List ℕ) (ustack isr32 : ℕ)
    (hlen : words.length = 512) : childKstack kstack words ustack isr32 510
      = (ustack + 8 * (words.findIdx (fun w => w != 0) + 1)) % 2 ^ 64 := by
  have hle : words.findIdx (fun w => w != 0) ≤ 512 := hlen ▸ List.findIdx_le_length
  have hindex : (2 ^ 64 + 511 - (2 ^ 64 + 511 - words.findIdx (fun w => w != 0) - 1) % 2 ^ 64)
      % 2 ^ 64 = words.findIdx (fun w => w != 0) + 1 := by
    omega
  have hentry : childKstack kstack words ustack isr32 510 = (ustack + 8 * ((2 ^ 64 + 511 -
      (2 ^ 64 + 511 - words.findIdx (fun w => w != 0) - 1) % 2 ^ 64) % 2 ^ 64)) % 2 ^ 64 := by
    simp [childKstack]
  rw [hentry, hindex]

theorem offsetIn_eq {page a : ℕ} (h : page ≤ a ∧ a < page + 4096) :
    offsetIn page a = some (a - page) :=
  if_pos h

/-- The word above the first that is not zero is at the offset of the parent's stack pointer. -/
theorem findIdx_top {words : List ℕ} {o : ℕ} (hlen : words.length = 512) (ho : o < 4096) :
    8 * (words.findIdx (fun w => w != 0) + 1) = o ↔ TopAt words o := by
  have hget : ∀ i (hi : i < words.length), words.getD i 0 = words[i] := fun i hi => by
    simp [hi]
  constructor
  · intro h
    have hi : words.findIdx (fun w => w != 0) < words.length := by omega
    refine ⟨_, h.symm, ?_, fun j hj => ?_⟩
    · rw [hget _ hi]
      simpa using List.findIdx_getElem (w := hi)
    · rw [hget j (by omega)]
      simpa using List.not_of_lt_findIdx hj
  · rintro ⟨i, rfl, hne, hzero⟩
    have hi : i < words.length := by omega
    rw [(List.findIdx_eq hi).2 ⟨?_, fun j hj => ?_⟩]
    · rw [hget i hi] at hne
      simpa using hne
    · have hj' := hzero j hj
      rw [hget j (by omega)] at hj'
      simpa using hj'

theorem offsetIn_child (kstack : ℕ → ℕ) {words : List ℕ} (hlen : words.length = 512)
    (ret isr32 : ℕ) {o : ℕ} (ho : o < 4096) :
    offsetIn (stackAt ret) (childKstack kstack words (stackAt ret) isr32 510) = some o ↔
      TopAt words o := by
  have hbound := (stackAt_aligned ret).2
  have hle : words.findIdx (fun w => w != 0) ≤ 512 := hlen ▸ List.findIdx_le_length
  rw [childKstack_rsp _ _ _ _ hlen, ← findIdx_top hlen ho]
  generalize words.findIdx (fun w => w != 0) = i at hle ⊢
  unfold offsetIn
  split_ifs with h
  · rw [Option.some.injEq]
    omega
  · simp only [false_iff]
    omega

/-! ## The parent's stack -/

/-- A page in none of the blocks that are left. -/
def InUse (vm : Vm) (page : ℕ) : Prop := ∀ x ∈ vm.supply, ¬ (x ≤ page ∧ page < x + 9)

theorem kmalloc_inUse {vm vm₁ : Vm} {size p page : ℕ} (hsize : Vm.pagesFor size ≤ 9)
    (huse : InUse vm page) (h : vm.kmalloc size = .ok (vm₁, p)) :
    InUse vm₁ page ∧ vm₁.mem page = vm.mem page := by
  obtain ⟨rest, hsup, -, -, rfl⟩ := Vm.kmalloc_ok h
  refine ⟨fun x hx => huse x (hsup ▸ List.mem_cons_of_mem _ hx), ?_⟩
  refine funext fun i => if_neg fun hp => ?_
  refine huse p (hsup ▸ List.mem_cons_self) ⟨hp.1, ?_⟩
  have hmod := Nat.mod_le (Vm.pagesFor size) (2 ^ 20)
  omega

/-- What is read is what was there before the call. -/
theorem stackRead_eq {lab : ℕ → Option (List ℕ)} {page : ℕ} {words : List ℕ}
    (hread : s.stackRead parent = .ok words) (h : s.Inv lab) (hc : s.vm.clobbered = [])
    (hparent : lab parent.pml4 = some [])
    (hpage : translate s.vm.mem parent.pml4 parent.ustack = some page) (huse : InUse s.vm page) :
    words = (List.range 512).map (s.vm.mem page) := by
  obtain ⟨⟨vme, t, temp⟩, hblocks, hread⟩ := bind_eq_ok.1 hread
  obtain ⟨vma, vmb, vmc, vmd, pcb, node, kstack, ha, hb, hc', hd, he⟩ := forkBlocks_ok hblocks
  obtain ⟨hua, hma⟩ := kmalloc_inUse (by decide) huse ha
  obtain ⟨hub, hmb⟩ := kmalloc_inUse (by decide) hua hb
  obtain ⟨huc, hmc⟩ := kmalloc_inUse (by decide) hub hc'
  obtain ⟨hud, hmd⟩ := kmalloc_inUse (by decide) huc hd
  obtain ⟨-, hme⟩ := kmalloc_inUse (by decide) hud he
  have hdata := (((Vm.kmalloc_data ha).trans (Vm.kmalloc_data hb)).trans
    (Vm.kmalloc_data hc')).trans ((Vm.kmalloc_data hd).trans (Vm.kmalloc_data he))
  have hclean : vme.clobbered = [] := by
    rw [(Vm.kmalloc_clobbered he).1, (Vm.kmalloc_clobbered hd).1, (Vm.kmalloc_clobbered hc').1,
      (Vm.kmalloc_clobbered hb).1, (Vm.kmalloc_clobbered ha).1, hc]
  have hwalk := hdata.walk hclean h.wf hparent parent.ustack
  rw [translate, ← hwalk] at hpage
  simp only [Vm.loadPage, translate, hpage, Except.ok.injEq] at hread
  rw [← hread, hme, hmd, hmc, hmb, hma]

/-- The child's stack pointer is in its stack page where the parent's is in the parent's if and only
if the word below the parent's stack pointer is the first of the page that is not zero. -/
theorem child_rsp_iff (h : s.sysForkKstack parent kstack isr32 vmas file = .ok (s', ck))
    (hrsp : parent.ustack ≤ kstack 509 ∧ kstack 509 < parent.ustack + 4096) :
    ∃ child words, s'.procs = s.procs ++ [child] ∧ s.stackRead parent = .ok words ∧
      (offsetIn child.ustack (ck 510) = offsetIn parent.ustack (kstack 509) ↔
        TopAt words (kstack 509 - parent.ustack)) ∧
      ∀ lab page, s.Inv lab → s.vm.clobbered = [] → lab parent.pml4 = some [] →
        translate s.vm.mem parent.pml4 parent.ustack = some page → InUse s.vm page →
        words = (List.range 512).map (s.vm.mem page) := by
  have hfork : s.sysFork parent vmas file = .ok s' := by
    rw [← sysForkKstack_map s parent kstack isr32, h]
    rfl
  obtain ⟨t, ret, words, hread, hlen, hprocs, hk⟩ := sysFork_kstack hfork kstack isr32
  obtain rfl : childKstack kstack words (stackAt ret) isr32 = ck :=
    (Prod.mk.inj (Except.ok.inj (hk.symm.trans h))).2
  refine ⟨_, words, hprocs, hread, ?_, fun lab page hinv hc hparent hpage huse =>
    stackRead_eq hread hinv hc hparent hpage huse⟩
  rw [offsetIn_eq hrsp]
  exact offsetIn_child kstack hlen ret isr32 (by omega)

/-! ## A shell with a stack -/

/-- The first process, with `row` on its stack, and its child. -/
theorem exists_fork (row kstack : ℕ → ℕ) (isr32 : ℕ) : ∃ s s' : System,
    s.sysForkKstack ⟨578, stackAt 588⟩ kstack isr32 [] (fun _ => 0) = .ok (s',
      childKstack kstack ((List.range 512).map row) (stackAt 605) isr32) ∧
    s'.procs = s.procs ++ [⟨602, stackAt 605⟩] ∧
    s.stackRead ⟨578, stackAt 588⟩ = .ok ((List.range 512).map row) := by
  obtain ⟨s₀, s, h₀, hstep, hsmall, hprocs, hnew, hpage⟩ := exists_shell
  obtain ⟨lab₀, hinv₀⟩ := start_inv h₀ hstep.1.clean
  obtain ⟨lab, hinv⟩ := hinv₀.step hstep.2 hsmall.clean
  have hparent : lab 578 = some [] := hinv.procs ⟨578, stackAt 588⟩ (by simp [hprocs])
  have hdata := Vm.row_data hnew row
  have hinv₁ := hinv.data hdata hsmall.clean
  have hstack : translate (Function.update s.vm.mem 588 row) 578 (stackAt 588) = some 588 := by
    rw [translate, hdata.walk hsmall.clean hinv.wf hparent]
    exact hpage
  obtain ⟨vm, read, hchild, -⟩ :=
    (hsmall.data hinv hdata hsmall.clean).exists_newChild hinv₁ hparent hstack
  have hfork := (sysFork_eq _ ⟨578, stackAt 588⟩ [] fun _ => 0).trans
    (bind_eq_ok.2 ⟨_, hchild, rfl⟩)
  obtain ⟨t, ret, words, hread, -, hlast, hk⟩ := sysFork_kstack hfork kstack isr32
  obtain ⟨rfl, hret⟩ := Proc.mk.inj (List.singleton_inj.1 (List.append_cancel_left hlast))
  have hwords : words = (List.range 512).map row := by
    rw [stackRead_eq hread (hinv₁.supply _) hsmall.clean hparent hstack
      (by decide : ∀ x ∈ [592, 601, 602, 603, 604, 605, 606, 607, 608], ¬ (x ≤ 588 ∧ 588 < x + 9))]
    simp
  rw [← hret, hwords] at hk
  exact ⟨_, _, hk, rfl, hwords ▸ hread⟩

/-- A stack of one word. -/
def oneWord (i : ℕ) : ℕ := if i = 510 then 1 else 0

theorem oneWord_top {o : ℕ} : TopAt ((List.range 512).map oneWord) o ↔ o = 4088 := by
  have hget : ∀ i < 512, ((List.range 512).map oneWord).getD i 0 = oneWord i := fun i hi => by
    simp [hi]
  constructor
  · rintro ⟨i, rfl, hne, -⟩
    rcases Nat.lt_or_ge i 512 with hi | hi
    · rw [hget i hi] at hne
      have heq : i = 510 := by
        by_contra hi'
        exact hne (if_neg hi')
      rw [heq]
    · exact absurd (List.getD_eq_default _ _ (by simpa using hi)) hne
  · rintro rfl
    refine ⟨510, rfl, by rw [hget 510 (by decide)]; decide, fun j hj => ?_⟩
    rw [hget j (by omega)]
    exact if_neg (by omega)

/-- The parent's stack pointer is above that word. -/
theorem child_rsp_one : ∃ (s s' : System) (ck : ℕ → ℕ) (child : Proc),
    s.sysForkKstack ⟨578, stackAt 588⟩ (fun _ => stackAt 588 + 4088) 0 [] (fun _ => 0)
      = .ok (s', ck) ∧
    s'.procs = s.procs ++ [child] ∧
    offsetIn child.ustack (ck 510) = offsetIn (stackAt 588) (stackAt 588 + 4088) := by
  obtain ⟨s, s', hk, hprocs, hread⟩ := exists_fork oneWord (fun _ => stackAt 588 + 4088) 0
  obtain ⟨child, words, hchild, hwords, hiff, -⟩ := child_rsp_iff hk (by simp)
  rw [Except.ok.inj (hwords.symm.trans hread), oneWord_top] at hiff
  exact ⟨s, s', _, child, hk, hchild, hiff.2 (by simp)⟩

/-- The parent's stack pointer is at that word, where `pushq` leaves it. -/
theorem child_rsp_above : ∃ (s s' : System) (ck : ℕ → ℕ) (child : Proc),
    s.sysForkKstack ⟨578, stackAt 588⟩ (fun _ => stackAt 588 + 4080) 0 [] (fun _ => 0)
      = .ok (s', ck) ∧
    s'.procs = s.procs ++ [child] ∧ offsetIn child.ustack (ck 510) = some 4088 ∧
    offsetIn (stackAt 588) (stackAt 588 + 4080) = some 4080 := by
  obtain ⟨s, s', hk, hprocs, -⟩ := exists_fork oneWord (fun _ => stackAt 588 + 4080) 0
  refine ⟨s, s', _, _, hk, hprocs, ?_, (offsetIn_eq (by simp)).trans (by simp)⟩
  exact (offsetIn_child _ (by simp) _ _ (by decide)).2 (oneWord_top.2 rfl)

end System

end Bgox
