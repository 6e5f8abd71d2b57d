import Bgox.Lib.Image
import Bgox.Proofs.Launch

/-!
# The memory of a new process

While a program is loaded, the pages of its half of the address space are its own: no two addresses
lead to one page, and none of them is a page table, waits to be handed out or holds a VMA (`Space`).
So what the loader does can be told by what the program will see, a map of bytes (`Shows`): a region
comes into it zeroed, and a store puts its bytes where they are meant to go.
-/

namespace Bgox

open Run (bind_eq_ok)

/-! ## Bytes -/

/-- A byte of a page. -/
def byteAt (mem : ℕ → ℕ → ℕ) (page off : ℕ) : ℕ := mem page (off / 8) / 256 ^ (off % 8) % 256

/-- The byte at a virtual address. -/
def loadByte (mem : ℕ → ℕ → ℕ) (pml4 va : ℕ) : Option ℕ :=
  (translate mem pml4 va).map fun page => byteAt mem page (va % 4096)

/-- A digit does not depend on those above it. -/
theorem digit_eq_of_mod {x y j k : ℕ} (hjk : j < k) (h : x % 256 ^ k = y % 256 ^ k) :
    x / 256 ^ j % 256 = y / 256 ^ j % 256 := by
  have hdvd : 256 ^ j * 256 ∣ 256 ^ k := by
    rw [← Nat.pow_succ]
    exact Nat.pow_dvd_pow 256 hjk
  rw [← Nat.mod_mul_right_div_self, ← Nat.mod_mul_right_div_self, ← Nat.mod_mod_of_dvd x hdvd, h,
    Nat.mod_mod_of_dvd y hdvd]

/-- A digit does not depend on those below it. -/
theorem digit_eq_of_div {x y j k : ℕ} (hjk : k < j) (h : x / 256 ^ (k + 1) = y / 256 ^ (k + 1)) :
    x / 256 ^ j % 256 = y / 256 ^ j % 256 := by
  obtain ⟨i, rfl⟩ := Nat.exists_eq_add_of_le (Nat.succ_le_of_lt hjk)
  rw [Nat.pow_add, ← Nat.div_div_eq_div_mul, ← Nat.div_div_eq_div_mul, h]

theorem Vm.setByte_eq (w k b : ℕ) :
    setByte w k b = w / 256 ^ (k + 1) * 256 ^ (k + 1) + b % 256 * 256 ^ k + w % 256 ^ k := by
  have hlow := Nat.div_add_mod w (256 ^ k)
  have hhigh := Nat.div_add_mod (w / 256 ^ k) 256
  rw [Nat.div_div_eq_div_mul, ← Nat.pow_succ] at hhigh
  have hmul :
      w / 256 ^ (k + 1) * 256 ^ (k + 1) + w / 256 ^ k % 256 * 256 ^ k + w % 256 ^ k = w := by
    rw [Nat.pow_succ, ← Nat.mul_assoc, Nat.mul_right_comm, ← Nat.add_mul,
      Nat.mul_comm _ 256, ← Nat.pow_succ, hhigh, Nat.mul_comm, hlow]
  unfold setByte
  omega

theorem Vm.setByte_digit (w k b j : ℕ) :
    setByte w k b / 256 ^ j % 256 = if j = k then b % 256 else w / 256 ^ j % 256 := by
  have hpos : ∀ i, 0 < 256 ^ i := fun i => Nat.pow_pos (by decide)
  have hbyte : b % 256 * 256 ^ k + w % 256 ^ k < 256 ^ (k + 1) := by
    have hb : b % 256 * 256 ^ k ≤ 255 * 256 ^ k := Nat.mul_le_mul_right _ (by omega)
    have hw := Nat.mod_lt w (hpos k)
    rw [Nat.pow_succ]
    omega
  rcases Nat.lt_trichotomy j k with hjk | rfl | hjk
  · rw [if_neg (Nat.ne_of_lt hjk)]
    refine digit_eq_of_mod hjk ?_
    rw [setByte_eq, Nat.pow_succ, ← Nat.mul_assoc, Nat.mul_right_comm, ← Nat.add_mul,
      Nat.mul_add_mod_self_right, Nat.mod_mod]
  · rw [if_pos rfl, setByte_eq, Nat.pow_succ, ← Nat.mul_assoc, Nat.mul_right_comm, ← Nat.add_mul,
      Nat.add_comm, Nat.add_mul_div_right _ _ (hpos j), Nat.div_eq_of_lt (Nat.mod_lt w (hpos j)),
      Nat.zero_add, Nat.mul_add_mod_self_right, Nat.mod_mod]
  · rw [if_neg (Nat.ne_of_gt hjk)]
    refine digit_eq_of_div hjk ?_
    rw [setByte_eq, Nat.add_assoc, Nat.add_comm, Nat.add_mul_div_right _ _ (hpos _),
      Nat.div_eq_of_lt hbyte, Nat.zero_add]

theorem Vm.byteAt_pokeByte (s : Vm) (page off b page' off' : ℕ) :
    byteAt (s.pokeByte page off b).mem page' off'
      = if page' = page ∧ off' = off then b % 256 else byteAt s.mem page' off' := by
  unfold byteAt
  by_cases hword : page' = page ∧ off' / 8 = off / 8
  · obtain ⟨rfl, hoff⟩ := hword
    simp only [pokeByte, poke, hoff, Radix.set_same, setByte_digit, true_and]
    by_cases hbyte : off' % 8 = off % 8
    · rw [if_pos hbyte, if_pos (by omega)]
    · rw [if_neg hbyte, if_neg (by omega)]
  · have hne : page' ≠ page ∨ off' / 8 ≠ off / 8 := by omega
    simp only [pokeByte, poke, Radix.set_of_ne _ hne]
    rw [if_neg]
    rintro ⟨rfl, rfl⟩
    exact hword ⟨rfl, rfl⟩

namespace Vm

variable {s s₁ s₂ : Vm} {lab : ℕ → Option (List ℕ)} {t v addr x : ℕ} {nodes : List ℕ}
  {img : ℕ → Option ℕ}

/-! ## One mapping -/

theorem nextTable_takes {n off access c : ℕ} (hoff : off < 512)
    (h : s.nextTable n off access = .ok (s₁, c)) :
    Takes 1 s s₁ ∧ ∀ x, x ≠ n → x ∉ s₁.tables → s₁.mem x = s.mem x := by
  unfold nextTable at h
  split_ifs at h
  · obtain ⟨rfl, -⟩ := Prod.mk.inj (Except.ok.inj h)
    exact ⟨.refl s, fun _ _ _ => rfl⟩
  · obtain ⟨-, rest, hsup, rfl⟩ := allocTable_ok hoff h
    refine ⟨⟨[c], Nat.le_refl 1, hsup, rfl, rfl⟩, fun x hxn hx => funext fun i => ?_⟩
    have hxc : x ≠ c := fun he => hx (he ▸ List.mem_cons_self)
    simp only [Radix.set_of_ne _ (Or.inl hxn), Radix.clear_of_ne hxc]

/-- The pages a mapping takes are tables from then on, and no other page is written. -/
theorem initMap_takes {access p : ℕ} (hw : s.Labels lab) (hroot : lab t = some [])
    (hc : s.clobbered = []) (h : s.initMapVirtPhysAddr v p 1 t access = .ok s₁) :
    Takes 3 s s₁ ∧ ∀ x, x ∉ s₁.tables → s₁.mem x = s.mem x := by
  obtain ⟨s', pde, pte, ht, rfl⟩ := initMap_one_ok h
  obtain ⟨sa, sb, pdpe, h4, h3, h2⟩ := tablesFor_ok hw hroot ht
  obtain ⟨hta, hma⟩ := nextTable_takes (pml4Off_lt v) h4
  obtain ⟨htb, hmb⟩ := nextTable_takes (pdpeOff_lt v) h3
  obtain ⟨htc, hmc⟩ := nextTable_takes (pdeOff_lt v) h2
  have hg := fun (t : ℕ) => (trivial : (fun _ => True) (t * 4096 ||| rwFlags access))
  have hca := hta.clobbered.trans hc
  have hcb := htb.clobbered.trans hca
  obtain ⟨laba, hga, -, hla, -⟩ := nextTable_grows hg hw hroot (by simp) (pml4Off_lt v) h4 hca
  obtain ⟨labb, hgb, -, hlb, -⟩ :=
    nextTable_grows hg hga.wf hla (by simp) (pdpeOff_lt v) h3 hcb
  obtain ⟨labc, hgc, -, hlc, -⟩ :=
    nextTable_grows hg hgb.wf hlb (by simp) (pdeOff_lt v) h2 (htc.clobbered.trans hcb)
  -- the tables on the way are tables at the end
  have hmem : ∀ {n l}, labc n = some l → n ∈ s'.tables := fun hn => (hgc.wf.tables _).2 ⟨_, hn⟩
  have hpb : ∀ {n l}, labb n = some l → n ∈ s'.tables := fun hn => hmem (hgc.ext.mono _ _ hn)
  have hpa : ∀ {n l}, laba n = some l → n ∈ s'.tables := fun hn => hpb (hgb.ext.mono _ _ hn)
  have hne : ∀ {x n}, x ∉ s'.tables → n ∈ s'.tables → x ≠ n := fun hx hn he => hx (he ▸ hn)
  refine ⟨(hta.trans htb).trans htc, fun x hx => funext fun i => ?_⟩
  have hxb : x ∉ sb.tables := fun hxb => by
    obtain ⟨l, hl⟩ := (hgb.wf.tables x).1 hxb
    exact hx (hpb hl)
  have hxa : x ∉ sa.tables := fun hxa => by
    obtain ⟨l, hl⟩ := (hga.wf.tables x).1 hxa
    exact hx (hpa hl)
  simp only [Radix.set_of_ne _ (Or.inl (hne hx (hmem hlc)))]
  rw [hmc x (hne hx (hpb hlb)) hx, hmb x (hne hx (hpa hla)) hxb,
    hma x (hne hx (hpa (hga.ext.mono _ _ hroot))) hxa]

/-! ## The pages of a process -/

/-- A page that is no table and is not to be handed out. -/
def Taken (s : Vm) (x : ℕ) : Prop := x ∉ s.tables ∧ x ∉ s.supply

/-- Pages can be mapped below a PML4. -/
structure Ready (s : Vm) (t : ℕ) : Prop where
  clean : s.clobbered = []
  fresh : s.Fresh
  tree : ∃ lab, s.Labels lab ∧ lab t = some []

/-- The pages below a PML4, outside the kernel's half, are its own. -/
structure Space (s : Vm) (t : ℕ) (nodes : List ℕ) : Prop where
  clean : s.clobbered = []
  fresh : s.Fresh
  tree : ∃ lab, s.Labels lab ∧ lab t = some []
  frame : ∀ v page, pml4Off v ≠ 511 → translate s.mem t v = some page →
    s.Taken page ∧ page ∉ nodes
  inj : ∀ v w page, pml4Off v ≠ 511 → pml4Off w ≠ 511 → translate s.mem t v = some page →
    translate s.mem t w = some page → vpage v = vpage w
  nodes : ∀ x ∈ nodes, s.Taken x

theorem Space.ready (h : s.Space t nodes) : s.Ready t := ⟨h.clean, h.fresh, h.tree⟩

/-- What is seen through a PML4 outside the kernel's half. -/
def Shows (mem : ℕ → ℕ → ℕ) (t : ℕ) (img : ℕ → Option ℕ) : Prop :=
  ∀ w, pml4Off w ≠ 511 → loadByte mem t w = img (w % 2 ^ 48)

/-- Some pages, at most `n`, have been handed out; those taken before are as they were. -/
def Keeps (n : ℕ) (s s₁ : Vm) : Prop :=
  (∀ x, s.Taken x → s₁.Taken x ∧ s₁.mem x = s.mem x) ∧
    ∃ used, used.length ≤ n ∧ s.supply = used ++ s₁.supply

theorem Keeps.refl (s : Vm) : Keeps 0 s s := ⟨fun _ hx => ⟨hx, rfl⟩, [], Nat.le_refl 0, rfl⟩

theorem Keeps.trans {n m : ℕ} (h : Keeps n s s₁) (h' : Keeps m s₁ s₂) : Keeps (n + m) s s₂ := by
  obtain ⟨hkept, used, hlen, hsup⟩ := h
  obtain ⟨hkept', used', hlen', hsup'⟩ := h'
  refine ⟨fun x hx => ?_, used ++ used', ?_, by rw [hsup, hsup', List.append_assoc]⟩
  · obtain ⟨hx₁, hmem⟩ := hkept x hx
    obtain ⟨hx₂, hmem'⟩ := hkept' x hx₁
    exact ⟨hx₂, hmem'.trans hmem⟩
  · rw [List.length_append]
    omega

theorem translate_congr {mem : ℕ → ℕ → ℕ} {v w : ℕ} (h : vpage v = vpage w) (t : ℕ) :
    translate mem t v = translate mem t w := by
  rw [translate, translate, walk, walk, (offsets_eq_iff v w).2 h]

/-- A new page in an address space. -/
structure Mapped (s : Vm) (t v addr : ℕ) (s₁ : Vm) : Prop where
  here : translate s₁.mem t v = some addr
  others : ∀ w, vpage w ≠ vpage v → translate s₁.mem t w = translate s.mem t w
  zero : ∀ i, s₁.mem addr i = 0
  taken : s₁.Taken addr
  next : ∃ used, s.supply = addr :: (used ++ s₁.supply)
  keeps : Keeps 4 s s₁
  tables : ∀ x ∈ s₁.tables, x ∈ s.tables ∨ x ∈ s.supply

theorem kmalloc_page {size : ℕ} (hsize : pagesFor size = 1) (h : s.kmalloc size = .ok (s₁, addr)) :
    s.supply = addr :: s₁.supply ∧ s₁.tables = s.tables ∧ s₁.clobbered = s.clobbered ∧
      (∀ i, s₁.mem addr i = 0) ∧ ∀ x, x ≠ addr → s₁.mem x = s.mem x := by
  obtain ⟨rest, hsup, -, -, rfl⟩ := kmalloc_ok h
  rw [hsize]
  refine ⟨hsup, rfl, rfl, fun i => if_pos ?_, fun x hx => funext fun i => if_neg ?_⟩
  · exact ⟨Nat.le_refl _, Nat.lt_succ_self _⟩
  · rw [show 1 % 2 ^ 20 = 1 from rfl]
    omega

theorem Ready.mapPage {s' : Vm} (h : s.Ready t) (hk : s.kmalloc 1 = .ok (s', addr))
    (hm : s'.initMapVirtPhysAddr v (addr * 4096) 1 t 1 = .ok s₁) :
    s₁.Ready t ∧ Mapped s t v addr s₁ := by
  obtain ⟨lab, hw, hroot⟩ := h.tree
  obtain ⟨hsup, htab, hclob, hzero, hother⟩ := kmalloc_page rfl hk
  have hc' : s'.clobbered = [] := hclob.trans h.clean
  have hw' := ((kmalloc_data hk).grows hc' hw).wf
  obtain ⟨htakes, hmem⟩ := initMap_takes hw' hroot hc' hm
  have hc₁ : s₁.clobbered = [] := htakes.clobbered.trans hc'
  obtain ⟨lab₁, hgrow, hframe, e₄, e₃, e₂, hwalk, -⟩ :=
    initMap_one (fun _ => trivial) hw' hroot hm hc₁
  have hnodup := h.fresh.1
  rw [hsup, List.nodup_cons] at hnodup
  have hfresh' : s'.Fresh := ⟨hnodup.2, fun x hx => by
    rw [htab]
    exact h.fresh.2 x (by rw [hsup]; exact List.mem_cons_of_mem _ hx)⟩
  have htables : ∀ x ∈ s₁.tables, x ∈ s.tables ∨ x ∈ s'.supply := fun x hx => by
    rw [← htab]
    exact htakes.mem_tables hx
  have haddr : addr ∉ s₁.tables := fun ha => by
    rcases htables addr ha with ha | ha
    · exact h.fresh.2 addr (by simp [hsup]) ha
    · exact hnodup.1 ha
  have hfresh₁ := htakes.fresh hfresh'
  obtain ⟨used, hlen, hsup', -, -⟩ := htakes
  have hlater : ∀ x ∈ s₁.supply, x ∈ s'.supply := fun x hx => by
    rw [hsup']
    exact List.mem_append_right _ hx
  refine ⟨⟨hc₁, hfresh₁, lab₁, hgrow.wf, hgrow.ext.mono _ _ hroot⟩, ?_, fun w hvw => ?_,
    fun i => ?_, ⟨haddr, fun ha => hnodup.1 (hlater addr ha)⟩, ⟨used, by rw [hsup, hsup']⟩,
    ⟨fun x hx => ?_, ?_⟩, fun x hx => ?_⟩
  · simp [translate, hwalk, entryPage_leafEntry_page]
  · have hsame : walk s₁.mem t w = walk s'.mem t w :=
      hframe t [] (offsets w) hroot rfl fun he => hvw ((offsets_eq_iff w v).1 he)
    rw [translate, hsame, (kmalloc_data hk).walk hc' hw hroot w, ← translate]
  · rw [hmem addr haddr, hzero]
  · have hxa : x ≠ addr := fun he => hx.2 (by rw [hsup, he]; exact List.mem_cons_self)
    have hx' : x ∉ s'.supply := fun hx' => hx.2 (by rw [hsup]; exact List.mem_cons_of_mem _ hx')
    have hxt : x ∉ s₁.tables := fun hxt => by
      rcases htables x hxt with hxt | hxt
      · exact hx.1 hxt
      · exact hx' hxt
    exact ⟨⟨hxt, fun hxs => hx' (hlater x hxs)⟩, by rw [hmem x hxt, hother x hxa]⟩
  · exact ⟨addr :: used, by rw [List.length_cons]; omega, by rw [hsup, hsup', List.cons_append]⟩
  · rcases htables x hx with hx | hx
    · exact Or.inl hx
    · exact Or.inr (by rw [hsup]; exact List.mem_cons_of_mem _ hx)

theorem Mapped.mem_supply (h : Mapped s t v addr s₁) : addr ∈ s.supply := by
  obtain ⟨used, hsup⟩ := h.next
  rw [hsup]
  exact List.mem_cons_self

/-- An address leads to the new page, or to the page it led to before. -/
theorem Mapped.cases {w page : ℕ} (h : Mapped s t v addr s₁)
    (hw : translate s₁.mem t w = some page) :
    vpage w = vpage v ∧ page = addr ∨ vpage w ≠ vpage v ∧ translate s.mem t w = some page := by
  by_cases hvw : vpage w = vpage v
  · rw [translate_congr hvw, h.here] at hw
    exact Or.inl ⟨hvw, (Option.some.inj hw).symm⟩
  · rw [h.others w hvw] at hw
    exact Or.inr ⟨hvw, hw⟩

theorem Space.mapPage {s' : Vm} (h : s.Space t nodes) (hk : s.kmalloc 1 = .ok (s', addr))
    (hm : s'.initMapVirtPhysAddr v (addr * 4096) 1 t 1 = .ok s₁) :
    s₁.Space t nodes ∧ Mapped s t v addr s₁ := by
  obtain ⟨⟨hclean, hfresh, htree⟩, hmap⟩ := h.ready.mapPage hk hm
  have hsupply := hmap.mem_supply
  have hold : ∀ w, pml4Off w ≠ 511 → translate s.mem t w ≠ some addr := fun w hw he =>
    (h.frame w addr hw he).1.2 hsupply
  refine ⟨⟨hclean, hfresh, htree, fun w page hw hpage => ?_,
    fun w w' page hw hw' hpage hpage' => ?_, fun x hx => (hmap.keeps.1 x (h.nodes x hx)).1⟩, hmap⟩
  · rcases hmap.cases hpage with ⟨-, rfl⟩ | ⟨-, hpage⟩
    · exact ⟨hmap.taken, fun hn => (h.nodes page hn).2 hsupply⟩
    · obtain ⟨htaken, hnode⟩ := h.frame w page hw hpage
      exact ⟨(hmap.keeps.1 page htaken).1, hnode⟩
  · rcases hmap.cases hpage with ⟨hv, rfl⟩ | ⟨-, hpage⟩
    · rcases hmap.cases hpage' with ⟨hv', -⟩ | ⟨-, hpage'⟩
      · rw [hv, hv']
      · exact absurd hpage' (hold w' hw')
    · rcases hmap.cases hpage' with ⟨-, rfl⟩ | ⟨-, hpage'⟩
      · exact absurd hpage (hold w hw)
      · exact h.inj w w' page hw hw' hpage hpage'

theorem vpage_mod (w : ℕ) : w % 2 ^ 48 / 4096 = vpage w := by
  unfold vpage
  omega

theorem Mapped.shows (hm : Mapped s t v addr s₁) (h : s.Space t nodes) (hs : Shows s.mem t img) :
    Shows s₁.mem t (Image.clear 4096 [vpage v] img) := by
  intro w hw
  by_cases hvw : vpage w = vpage v
  · rw [Image.clear_of_mem (by rw [vpage_mod, hvw]; exact List.mem_cons_self), loadByte,
      translate_congr hvw, hm.here]
    simp [byteAt, hm.zero]
  · rw [Image.clear_of_notMem (by rwa [vpage_mod, List.mem_singleton]), ← hs w hw, loadByte,
      loadByte, hm.others w hvw]
    rcases hp : translate s.mem t w with _ | page
    · rfl
    · have hkept := (hm.keeps.1 page (h.frame w page hw hp).1).2
      simp only [Option.map_some, byteAt, hkept]

/-! ## A region -/

/-- The virtual pages of `n` pages from an address on. -/
def vpages (v n : ℕ) : List ℕ := (List.range n).map fun i => vpage (v + 4096 * i)

theorem vpages_succ (v n : ℕ) : vpages v (n + 1) = vpage v :: vpages (v + 4096) n := by
  simp only [vpages, List.range_succ_eq_map, List.map_cons, List.map_map, Function.comp_def,
    Nat.mul_zero, Nat.add_zero, Nat.succ_eq_add_one]
  refine congrArg _ (List.map_congr_left fun i _ => ?_)
  rw [Nat.mul_add, Nat.mul_one, Nat.add_comm (4096 * i), Nat.add_assoc]

/-- Pages have come into an address space, all of them handed out for it. -/
structure Region (n : ℕ) (s : Vm) (t v : ℕ) (s₁ : Vm) : Prop where
  keeps : Keeps (4 * n) s s₁
  tables : ∀ x ∈ s₁.tables, x ∈ s.tables ∨ x ∈ s.supply
  frames : ∀ w page, translate s₁.mem t w = some page →
    translate s.mem t w = some page ∨ page ∈ s.supply
  shows : ∀ img, Shows s.mem t img → Shows s₁.mem t (Image.clear 4096 (vpages v n) img)

theorem Space.mapPages : ∀ {n : ℕ} {s s₁ : Vm} {v : ℕ}, s.Space t nodes →
    Vm.mapPages t n s v = .ok s₁ → s₁.Space t nodes ∧ Region n s t v s₁
  | 0, s, s₁, v, h, hm => by
    obtain rfl := Except.ok.inj hm
    exact ⟨h, .refl s, fun _ hx => Or.inl hx, fun _ _ hp => Or.inl hp,
      fun img hs => by simpa [vpages] using hs⟩
  | n + 1, s, s₁, v, h, hm => by
    obtain ⟨sa, addr, sb, hk, hone, hm⟩ := mapPages_succ_ok.1 hm
    obtain ⟨hb, hmap⟩ := h.mapPage hk hone
    obtain ⟨h₁, hregion⟩ := hb.mapPages hm
    obtain ⟨-, used, -, hsup⟩ := hmap.keeps
    have hlater : ∀ x ∈ sb.supply, x ∈ s.supply := fun x hx => by
      rw [hsup]
      exact List.mem_append_right _ hx
    refine ⟨h₁, ?_, fun x hx => ?_, fun w page hp => ?_, fun img hs => ?_⟩
    · rw [show 4 * (n + 1) = 4 + 4 * n by omega]
      exact hmap.keeps.trans hregion.keeps
    · rcases hregion.tables x hx with hx | hx
      · exact hmap.tables x hx
      · exact Or.inr (hlater x hx)
    · rcases hregion.frames w page hp with hp | hp
      · rcases hmap.cases hp with ⟨-, rfl⟩ | ⟨-, hp⟩
        · exact Or.inr hmap.mem_supply
        · exact Or.inl hp
      · exact Or.inr (hlater page hp)
    · rw [vpages_succ, Image.clear_cons]
      exact hregion.shows _ (hmap.shows h hs)

/-- The first page of the supply is the first page of the region. -/
theorem Space.mapPages_head {n : ℕ} {rest : List ℕ} (h : s.Space t nodes)
    (hsup : s.supply = x :: rest) (hm : Vm.mapPages t n s v = .ok s₁) :
    x ∉ s₁.tables ∧ ∀ w, pml4Off w ≠ 511 → translate s₁.mem t w = some x → vpage w = vpage v := by
  have hx : x ∈ s.supply := by
    rw [hsup]
    exact List.mem_cons_self
  have hold : ∀ w, pml4Off w ≠ 511 → translate s.mem t w ≠ some x := fun w hw hp =>
    (h.frame w x hw hp).1.2 hx
  cases n with
  | zero =>
    obtain rfl := Except.ok.inj hm
    exact ⟨h.fresh.2 x hx, fun w hw hp => absurd hp (hold w hw)⟩
  | succ n =>
    obtain ⟨sa, addr, sb, hk, hone, hm⟩ := mapPages_succ_ok.1 hm
    obtain ⟨hb, hmap⟩ := h.mapPage hk hone
    obtain ⟨-, hregion⟩ := hb.mapPages hm
    obtain rfl : x = addr := by
      obtain ⟨used, hnext⟩ := hmap.next
      rw [hsup] at hnext
      exact (List.cons.inj hnext).1
    refine ⟨(hregion.keeps.1 x hmap.taken).1.1, fun w hw hp => ?_⟩
    rcases hregion.frames w x hp with hp | hp
    · rcases hmap.cases hp with ⟨hvw, -⟩ | ⟨-, hp⟩
      · exact hvw
      · exact absurd hp (hold w hw)
    · exact absurd hp hmap.taken.2

/-- With memory for them, the pages are mapped. -/
theorem Ready.exists_mapPages : ∀ {n : ℕ} {s : Vm} (v : ℕ), s.Ready t →
    4 * n ≤ s.supply.length → ∃ s₁, Vm.mapPages t n s v = .ok s₁
  | 0, s, _, _, _ => ⟨s, rfl⟩
  | n + 1, s, v, h, hlen => by
    obtain ⟨addr, rest, hsup⟩ := List.exists_cons_of_ne_nil (l := s.supply) fun hnil => by
      simp [hnil] at hlen
    obtain ⟨lab, hw, hroot⟩ := h.tree
    rw [hsup, List.length_cons] at hlen
    obtain ⟨sa, sb, hk, hm, -⟩ := h.fresh.exists_mapPage h.clean hw hroot hsup (by omega) v
    obtain ⟨hb, hmap⟩ := h.mapPage hk hm
    obtain ⟨-, used, hused, hsup'⟩ := hmap.keeps
    rw [hsup] at hsup'
    have hlen' := congrArg List.length hsup'
    rw [List.length_cons, List.length_append] at hlen'
    obtain ⟨s₁, hrest⟩ := hb.exists_mapPages (n := n) (v + 4096) (by omega)
    exact ⟨s₁, mapPages_succ_ok.2 ⟨sa, addr, sb, hk, hm, hrest⟩⟩

/-! ## Stores -/

theorem Space.poke (h : s.Space t nodes) (hx : x ∉ s.tables) (i w : ℕ) :
    (s.poke x i w).Space t nodes ∧
      ∀ v, translate (s.poke x i w).mem t v = translate s.mem t v := by
  have hc : (s.poke x i w).clobbered = [] := by
    simp only [Vm.poke, if_neg hx, h.clean]
  obtain ⟨lab, hw, hroot⟩ := h.tree
  have hwalk : ∀ v, translate (s.poke x i w).mem t v = translate s.mem t v := fun v => by
    rw [translate, (poke_data x i w).walk hc hw hroot v, ← translate]
  refine ⟨⟨hc, h.fresh, ⟨lab, ((poke_data x i w).grows hc hw).wf, hroot⟩, fun v page hv hp => ?_,
    fun v v' page hv hv' hp hp' => ?_, h.nodes⟩, hwalk⟩
  · rw [hwalk] at hp
    exact h.frame v page hv hp
  · rw [hwalk] at hp hp'
    exact h.inj v v' page hv hv' hp hp'

theorem Space.setVma {node : ℕ} (h : s.Space t nodes) (hx : node ∉ s.tables) (v : Vma) :
    (s.setVma node v).Space t nodes ∧
      ∀ w, translate (s.setVma node v).mem t w = translate s.mem t w := by
  have hfold : ∀ (fs : List (ℕ × ℕ)) {s : Vm}, s.Space t nodes → node ∉ s.tables →
      (fs.foldl (fun s f => s.poke node f.1 f.2) s).Space t nodes ∧
        ∀ w, translate (fs.foldl (fun s f => s.poke node f.1 f.2) s).mem t w
          = translate s.mem t w := by
    intro fs
    induction fs with
    | nil => exact fun h _ => ⟨h, fun _ => rfl⟩
    | cons f fs ih =>
      intro s h hx
      obtain ⟨hpoke, hwalk⟩ := h.poke hx f.1 f.2
      obtain ⟨hrest, hwalk'⟩ := ih hpoke hx
      exact ⟨hrest, fun w => (hwalk' w).trans (hwalk w)⟩
  exact hfold _ h hx

/-- A page that is handed out and not mapped. -/
theorem Space.kmalloc {size : ℕ} (h : s.Space t nodes) (hsize : pagesFor size = 1)
    (hk : s.kmalloc size = .ok (s₁, addr)) :
    s₁.Space t (addr :: nodes) ∧ (∀ w, translate s₁.mem t w = translate s.mem t w) ∧
      ∀ img, Shows s.mem t img → Shows s₁.mem t img := by
  obtain ⟨hsup, htab, hclob, -, hother⟩ := kmalloc_page hsize hk
  obtain ⟨lab, hw, hroot⟩ := h.tree
  have hc : s₁.clobbered = [] := hclob.trans h.clean
  have hwalk : ∀ w, translate s₁.mem t w = translate s.mem t w := fun w => by
    rw [translate, (kmalloc_data hk).walk hc hw hroot w, ← translate]
  have hnodup := h.fresh.1
  rw [hsup, List.nodup_cons] at hnodup
  have hsupply : ∀ x, x ∉ s.supply → x ≠ addr ∧ x ∉ s₁.supply := by
    rw [hsup]
    intro x hx
    rw [List.mem_cons, not_or] at hx
    exact hx
  have haddr : addr ∉ s.tables := kmalloc_notMem hk
  have hframe : ∀ v page, pml4Off v ≠ 511 → translate s.mem t v = some page →
      page ≠ addr ∧ s₁.Taken page ∧ page ∉ nodes := fun v page hv hp => by
    obtain ⟨⟨htables, htaken⟩, hnode⟩ := h.frame v page hv hp
    exact ⟨(hsupply page htaken).1, ⟨htab ▸ htables, (hsupply page htaken).2⟩, hnode⟩
  refine ⟨⟨hc, ⟨hnodup.2, fun x hx => ?_⟩, ⟨lab, ((kmalloc_data hk).grows hc hw).wf, hroot⟩,
    fun v page hv hp => ?_, fun v w page hv hw hp hp' => ?_, fun x hx => ?_⟩, hwalk,
    fun img hs w hw => ?_⟩
  · rw [htab]
    exact h.fresh.2 x (by rw [hsup]; exact List.mem_cons_of_mem _ hx)
  · rw [hwalk] at hp
    obtain ⟨hne, htaken, hnode⟩ := hframe v page hv hp
    exact ⟨htaken, List.not_mem_cons_of_ne_of_not_mem hne hnode⟩
  · rw [hwalk] at hp hp'
    exact h.inj v w page hv hw hp hp'
  · rcases List.mem_cons.1 hx with rfl | hx
    · exact ⟨htab ▸ haddr, hnodup.1⟩
    · exact ⟨htab ▸ (h.nodes x hx).1, (hsupply x (h.nodes x hx).2).2⟩
  · rw [← hs w hw, loadByte, loadByte, hwalk]
    rcases hp : translate s.mem t w with _ | page
    · rfl
    · simp only [Option.map_some, byteAt, hother page (hframe w page hw hp).1]

/-- A page that no address leads to may hold a node. -/
theorem Space.addNode (h : s.Space t nodes) (hx : s.Taken x)
    (hown : ∀ v, pml4Off v ≠ 511 → translate s.mem t v ≠ some x) : s.Space t (nodes ++ [x]) := by
  refine ⟨h.clean, h.fresh, h.tree, fun v page hv hp => ?_, h.inj, fun y hy => ?_⟩
  · obtain ⟨htaken, hnode⟩ := h.frame v page hv hp
    refine ⟨htaken, fun hmem => ?_⟩
    rcases List.mem_append.1 hmem with hmem | hmem
    · exact hnode hmem
    · exact hown v hv (List.mem_singleton.1 hmem ▸ hp)
  · rcases List.mem_append.1 hy with hy | hy
    · exact h.nodes y hy
    · exact List.mem_singleton.1 hy ▸ hx

theorem Space.shows_pokeByte {page b : ℕ} (h : s.Space t nodes) (hv : pml4Off v ≠ 511)
    (hp : translate s.mem t v = some page) (hs : Shows s.mem t img) :
    Shows (s.pokeByte page (v % 4096) b).mem t
      (Function.update img (v % 2 ^ 48) (some (b % 256))) := by
  intro w hw
  have hwalk : translate (s.pokeByte page (v % 4096) b).mem t w = translate s.mem t w :=
    (h.poke (h.frame v page hv hp).1.1 _ _).2 w
  rw [loadByte, hwalk]
  by_cases hvw : w % 2 ^ 48 = v % 2 ^ 48
  · have hpage : vpage w = vpage v := by rw [← vpage_mod, ← vpage_mod, hvw]
    rw [hvw, Function.update_self, translate_congr hpage, hp]
    simp only [Option.map_some, byteAt_pokeByte]
    rw [if_pos ⟨trivial, by omega⟩]
  · rw [Function.update_of_ne hvw, ← hs w hw, loadByte]
    rcases hp' : translate s.mem t w with _ | page'
    · rfl
    · simp only [Option.map_some, byteAt_pokeByte]
      rw [if_neg]
      rintro ⟨rfl, hoff⟩
      have hpage := h.inj w v _ hw hv hp' hp
      unfold vpage at hpage
      omega

/-- A store to addresses outside the kernel's half. -/
theorem Space.store : ∀ {bs : List ℕ} {s s₁ : Vm} {va : ℕ}, s.Space t nodes →
    (∀ i < bs.length, pml4Off (va + i) ≠ 511) → Vm.store t bs s va = .ok s₁ →
    s₁.Space t nodes ∧ s₁.tables = s.tables ∧ s₁.supply = s.supply ∧
      (∀ x ∈ nodes, s₁.mem x = s.mem x) ∧ (∀ v, translate s₁.mem t v = translate s.mem t v) ∧
      ∀ img, va % 2 ^ 48 + bs.length ≤ 2 ^ 48 → Shows s.mem t img →
        Shows s₁.mem t (Image.put bs (va % 2 ^ 48) img)
  | [], s, s₁, _, h, _, hok => by
    obtain rfl := Except.ok.inj hok
    exact ⟨h, rfl, rfl, fun _ _ => rfl, fun _ => rfl, fun _ _ hs => hs⟩
  | b :: bs, s, s₁, va, h, huser, hok => by
    rw [store_cons] at hok
    split at hok
    · cases hok
    · rename_i page hp
      have hva : pml4Off va ≠ 511 := huser 0 (by simp)
      obtain ⟨htaken, hnode⟩ := h.frame va page hva hp
      have hpoke := h.poke htaken.1 (va % 4096 / 8)
        (setByte (s.mem page (va % 4096 / 8)) (va % 4096 % 8) b)
      obtain ⟨h₁, htab, hsup, hmem, hwalk, hshows⟩ := Space.store hpoke.1 (fun i hi => by
        have hnext := huser (i + 1) (by rw [List.length_cons]; omega)
        rw [pml4Off, off_eq] at hnext ⊢
        omega) hok
      refine ⟨h₁, htab, hsup, fun x hx => ?_, fun v => (hwalk v).trans (hpoke.2 v),
        fun img hle hs => ?_⟩
      · have hne : x ≠ page := by
          rintro rfl
          exact hnode hx
        rw [hmem x hx]
        exact funext fun i => Radix.set_of_ne _ (Or.inl hne)
      · rw [List.length_cons] at hle
        have hput := hshows (Function.update img (va % 2 ^ 48) (some (b % 256)))
        rcases bs with _ | ⟨b', bs⟩
        · exact hput (by simp only [List.length_nil]; omega) (h.shows_pokeByte hva hp hs)
        · rw [List.length_cons] at hle
          have hstep : (va + 1) % 2 ^ 64 % 2 ^ 48 = va % 2 ^ 48 + 1 := by omega
          rw [hstep] at hput
          exact hput (by rw [List.length_cons]; omega) (h.shows_pokeByte hva hp hs)

/-- A store to pages that are there. -/
theorem Space.exists_store : ∀ (bs : List ℕ) {s : Vm} (va : ℕ), s.Space t nodes →
    (∀ i < bs.length, pml4Off (va + i) ≠ 511 ∧ ∃ page, translate s.mem t (va + i) = some page) →
    ∃ s₁, Vm.store t bs s va = .ok s₁
  | [], s, _, _, _ => ⟨s, rfl⟩
  | b :: bs, s, va, h, huser => by
    obtain ⟨hva, page, hp⟩ := huser 0 (by simp)
    rw [Nat.add_zero] at hva hp
    have hpoke := h.poke (h.frame va page hva hp).1.1 (va % 4096 / 8)
      (setByte (s.mem page (va % 4096 / 8)) (va % 4096 % 8) b)
    obtain ⟨s₁, hs₁⟩ := Space.exists_store bs ((va + 1) % 2 ^ 64) hpoke.1 fun i hi => by
      obtain ⟨hnext, page', hp'⟩ := huser (i + 1) (by rw [List.length_cons]; omega)
      have hpage : vpage ((va + 1) % 2 ^ 64 + i) = vpage (va + (i + 1)) := by
        unfold vpage
        omega
      refine ⟨?_, page', by rw [hpoke.2, translate_congr hpage, hp']⟩
      rw [pml4Off, off_eq] at hnext ⊢
      omega
    refine ⟨s₁, ?_⟩
    rw [store_cons]
    simp only [hp]
    exact hs₁

end Vm

end Bgox
