import Bgox.Proofs.BulkMap
import Bgox.Proofs.Bump

/-!
# The address space of the kernel

`init_paging` maps the memory twice, at its own address and in the kernel's half.  Both ranges start
with a table of their own, and for these the last loop of `init_map_virt_phys_addr` counts all the
pages after the first table again: it goes on behind the last table, for as many entries as it has
filled in before.  These stores hit no page table as long as `kmalloc_init` returns its pages in
ascending order, since the last table is then the last page that has been taken.  They do have an
effect that can be seen: the rest of the last table is filled in, for pages there may not be.

Below 1 GiB the result is the map that is meant, but for that rest (`boot_maps`).
-/

namespace Bgox

open Run (bind_eq_ok Reach)

namespace Vm

variable {s s₁ : Vm} {pml4 v pte n k p access : ℕ} {m : ℕ → Option ℕ} {entry : ℕ → ℕ}

/-! ## Pages in ascending order -/

/-- The pages to come are in ascending order, and behind the tables there are. -/
structure Ascends (s : Vm) : Prop where
  sorted : s.supply.Pairwise (· < ·)
  above : ∀ t ∈ s.tables, ∀ x ∈ s.supply, t < x

theorem Ascends.fresh (h : s.Ascends) : s.Fresh :=
  ⟨h.sorted.imp fun hlt => Nat.ne_of_lt hlt, fun x hx ht => Nat.lt_irrefl x (h.above x ht x hx)⟩

theorem Takes.ascends (ht : Takes n s s₁) (h : s.Ascends) : s₁.Ascends := by
  obtain ⟨used, -, hsup, htab, -⟩ := ht
  obtain ⟨hsorted, habove⟩ := h
  rw [hsup] at hsorted habove
  obtain ⟨-, hrest, hcross⟩ := List.pairwise_append.1 hsorted
  refine ⟨hrest, fun t hmem x hx => ?_⟩
  rw [htab, List.mem_append, List.mem_reverse] at hmem
  rcases hmem with hmem | hmem
  · exact hcross t hmem x hx
  · exact habove t hmem x (List.mem_append_right _ hx)

/-- A table that has just been made is the last one. -/
theorem Ascends.le_table (h : s.Ascends) {n off t : ℕ} (hoff : off < 512)
    (ha : s.allocTable n off access = .ok (s₁, t)) : ∀ x ∈ s₁.tables, x ≤ t := by
  obtain ⟨-, rest, hsup, rfl⟩ := allocTable_ok hoff ha
  intro x hx
  rcases List.mem_cons.1 hx with rfl | hx
  · exact Nat.le_refl x
  · exact Nat.le_of_lt (h.above x hx t (by rw [hsup]; exact List.mem_cons_self))

/-! ## Stores behind a table -/

theorem fill_add (entry : ℕ → ℕ) (pte : ℕ) : ∀ (a b : ℕ) (s : Vm) (i p : ℕ),
    fill entry (a + b) s pte i p
      = fill entry b (fill entry a s pte i p).1 pte (i + a) (fill entry a s pte i p).2
  | 0, b, s, i, p => by rw [Nat.zero_add]; rfl
  | a + 1, b, s, i, p => by
    rw [Nat.add_right_comm, fill, fill_add entry pte a b, Nat.add_right_comm i, Nat.add_assoc i]
    rfl

/-- Behind the last of the tables nothing is hit. -/
theorem fill_past (entry : ℕ → ℕ) : ∀ (n : ℕ) (s : Vm) (i p : ℕ), 512 ≤ i →
    (∀ t ∈ s.tables, t ≤ pte) →
    Takes 0 s (fill entry n s pte i p).1 ∧ Data s (fill entry n s pte i p).1
  | 0, s, _, _, _, _ => ⟨.refl s, .refl s⟩
  | n + 1, s, i, p, hi, hle => by
    have hpage : pte < pte + i / 512 := by omega
    have hnot : pte + i / 512 ∉ s.tables := fun hmem => Nat.not_lt.2 (hle _ hmem) hpage
    have hwrite : s.write pte i (entry p)
        = { s with mem := Radix.set s.mem (pte + i / 512) (i % 512) (entry p) } := by
      simp only [write, if_neg (fun h : 512 ≤ i ∧ _ => hnot h.2)]
    have hdata : Data s (s.write pte i (entry p)) := by
      rw [hwrite]
      refine fun hc => ⟨hc, rfl, fun t ht => funext fun j => Radix.set_of_ne _ (Or.inl ?_)⟩
      rintro rfl
      exact hnot ht
    have htakes : Takes 0 s (s.write pte i (entry p)) := by
      rw [hwrite]
      exact ⟨[], Nat.le_refl 0, rfl, rfl, rfl⟩
    obtain ⟨htakes', hdata'⟩ := fill_past entry n (s.write pte i (entry p)) (i + 1)
      ((p + 4096) % 2 ^ 64) (by omega) hle
    exact ⟨htakes.trans htakes', hdata.trans hdata'⟩

theorem Translates.data (h : s.Translates pml4 m) (hd : Data s s₁) (hc : s₁.clobbered = []) :
    s₁.Translates pml4 m := by
  obtain ⟨lab, hw, hroot⟩ := h.tree
  refine ⟨hc, ⟨lab, (hd.grows hc hw).wf, hroot⟩, fun w => ?_⟩
  rw [← h.finds w, translate, translate, hd.walk hc hw hroot]

/-- As many entries as there are, and the stores behind them. -/
theorem Directory.fill_over {pde c : ℕ} (h : s.Directory pml4 v pde m) (hc : c < 512)
    (hpte : entryChild (s.mem pde c) = some pte) (hle : ∀ t ∈ s.tables, t ≤ pte)
    (hentry : ∀ q, entryChild (entry q) = some (entryPage q)) (n : ℕ) (hp : p < 2 ^ 64) :
    (Vm.fill entry n s pte 0 p).1.Translates pml4
        (Interval.put (pageOf v c 0) (min n 512) (frame p) m) ∧
      Takes 0 s (Vm.fill entry n s pte 0 p).1 := by
  rcases Nat.le_total n 512 with hn | hn
  · obtain ⟨h₁, -⟩ := h.fill hentry hc (n := n) (i := 0) hpte (by omega) hp
    rw [Nat.min_eq_left hn]
    exact ⟨h₁.translates, fill_takes entry pte n s 0 p (by omega)⟩
  · obtain ⟨k, rfl⟩ := Nat.exists_eq_add_of_le hn
    obtain ⟨h₁, -⟩ := h.fill hentry hc (n := 512) (i := 0) hpte (by decide) hp
    have htakes := fill_takes entry pte 512 s 0 p (by decide)
    have hle₁ : ∀ t ∈ (Vm.fill entry 512 s pte 0 p).1.tables, t ≤ pte := by
      obtain ⟨used, hlen, -, htab, -⟩ := htakes
      rw [htab, List.length_eq_zero_iff.1 (Nat.le_zero.1 hlen)]
      exact hle
    obtain ⟨htakes', hdata⟩ := fill_past entry k (Vm.fill entry 512 s pte 0 p).1 (0 + 512)
      (Vm.fill entry 512 s pte 0 p).2 (by decide) hle₁
    rw [Nat.min_eq_right hn, fill_add]
    exact ⟨h₁.translates.data hdata (htakes'.clobbered.trans h₁.clean), htakes.trans htakes'⟩

/-- A range that goes on behind the first table. -/
theorem Ascends.initMap_beyond (hs : s.Ascends) (h : s.Translates pml4 m)
    (hn : 512 < n + pteOff v) (hn' : n + pteOff v < 2 ^ 64) (hp : p < 2 ^ 64)
    (htables : pdeOff v + noOfPteT v n + 2 ≤ 512) (hlen : 4 + noOfPteT v n ≤ s.supply.length)
    (access : ℕ) : ∃ s₁, s.initMapVirtPhysAddr v p n pml4 access = .ok s₁ ∧
      Takes (4 + noOfPteT v n) s s₁ ∧
      s₁.Translates pml4 (bulkMap v p (noOfPteT v n) (min (lastEntries v n) 512) m) := by
  obtain ⟨lab, hw, hroot⟩ := h.tree
  have hlt := pteOff_lt v
  -- the first table
  obtain ⟨s', pde, pte, ht, htakes⟩ := hs.fresh.tablesFor (by omega) hw hroot v access
  obtain ⟨hdir, hpte⟩ := h.tablesFor ht
  obtain ⟨hfirst, -, hnext⟩ := hdir.fill (fun q => entryChild_or q access) (pdeOff_lt v)
    (n := 512 - pteOff v) (i := pteOff v) hpte (by omega) hp
  have hfill := htakes.trans
    (fill_takes (· ||| rwFlags access) pte (512 - pteOff v) s' (pteOff v) p (by omega))
  have hle := hfill.length_le
  -- the full ones
  obtain ⟨⟨sa, last, q⟩, hf, htakes'⟩ : ∃ r, Vm.fillTables access (noOfPteT v n)
      (s'.fill (· ||| rwFlags access) (512 - pteOff v) pte (pteOff v) p).1 pde (pdeOff v + 1)
      (s'.fill (· ||| rwFlags access) (512 - pteOff v) pte (pteOff v) p).2 = .ok r ∧
        Takes (noOfPteT v n) _ r.1 :=
    (hfill.fresh hs.fresh).fillTables (by omega) (by omega)
  have hle' := htakes'.length_le
  have hascends := htakes'.ascends (hfill.ascends hs)
  have hf' := hf
  rw [hnext] at hf'
  obtain ⟨hfull, hlast, hq⟩ := hfirst.fillTables (by omega) (Nat.mod_lt _ (by decide)) hf'
  have hstart : pageOf v (pdeOff v + 1) 0 = vpage v + (512 - pteOff v) := by
    simpa [fullPages] using pageOf_next v 0
  rw [pageOf_self, hstart, put_frame, ← fullPages] at hfull
  have hq' : q = (p + 4096 * fullPages v (noOfPteT v n)) % 2 ^ 64 := by
    rw [hq, fullPages]
    omega
  -- the last one
  dsimp only at hle' hascends
  obtain ⟨sb, pte', ha, htakes''⟩ := hascends.fresh.allocTable
    (List.length_pos_iff.1 (by omega)) pde access (by omega : last < 512)
  obtain ⟨hnew, hpte'⟩ := hfull.allocTable (by omega) ha
  obtain ⟨h₁, hover⟩ := hnew.fill_over (by omega : last < 512) hpte'
    (hascends.le_table (by omega) ha) (fun q => entryChild_or q access) (lastEntries v n)
    (by rw [hq']; exact Nat.mod_lt _ (by decide) : q < 2 ^ 64)
  rw [hlast, pageOf_next, hq'] at h₁
  refine ⟨(Vm.fill (· ||| rwFlags access) (lastEntries v n) sb pte' 0 q).1, ?_, ?_, ?_⟩
  · rw [Vm.initMap_beyond hn hn']
    refine bind_eq_ok.2 ⟨_, ht, bind_eq_ok.2 ⟨_, hf, ?_⟩⟩
    dsimp only
    rw [if_neg (by omega)]
    exact bind_eq_ok.2 ⟨_, ha, rfl⟩
  · have hall := ((hfill.trans htakes').trans htakes'').trans hover
    rwa [show 3 + 0 + noOfPteT v n + 1 + 0 = 4 + noOfPteT v n by omega] at hall
  · rw [hq']
    exact h₁

/-! ## Ranges that start with a table -/

/-- The pages one call maps then: from two tables on, the last one is full. -/
def reached (n : ℕ) : ℕ := if n < 1024 then n else 512 * (n / 512 + 1)

theorem counts_aligned (hv : pteOff v = 0) (hn : 512 < n) (hlt : n < 2 ^ 31) :
    noOfPteT v n = n / 512 - 1 ∧ lastEntries v n = n - 512 := by
  obtain ⟨hle, hlt', k, hk⟩ := lnoOfPages_spec (v := v) (n := n) (by omega)
  have heq : lnoOfPages v n = (n - 512 : ℕ) := by omega
  obtain ⟨hle'', hlt'', j, hj⟩ := int_spec (lnoOfPages v n - 512 * pteOff v)
  constructor
  · rw [noOfPteT, heq, Int.tdiv_eq_ediv_of_nonneg (Int.natCast_nonneg _), toBound]
    omega
  · rw [lastEntries, toBound]
    omega

theorem bulkMap_aligned (hv : pteOff v = 0) (hn : 512 < n)
    (hnone : ∀ x, vpage v ≤ x → x < vpage v + 1024 → m x = none) :
    bulkMap v p (n / 512 - 1) (min (n - 512) 512) m
      = Interval.put (vpage v) (reached n) (frame p) m := by
  unfold bulkMap
  rcases Nat.lt_or_ge n 1024 with hlt | hge
  · have hfull : fullPages v (n / 512 - 1) = 512 := by
      unfold fullPages
      omega
    have hempty : Interval.put (vpage v + 512) 512 (fun _ => none)
        (Interval.put (vpage v) 512 (frame p) m) = Interval.put (vpage v) 512 (frame p) m := by
      funext x
      by_cases hx : vpage v + 512 ≤ x ∧ x < vpage v + 512 + 512
      · rw [Interval.put_of_mem hx.1 hx.2, Interval.put_of_notMem (by omega),
          hnone x (by omega) (by omega)]
      · rw [Interval.put_of_notMem (by omega)]
    rw [hfull, hempty, put_frame, reached, if_pos hlt, Nat.min_eq_left (by omega),
      Nat.add_sub_cancel' (Nat.le_of_lt hn)]
  · rw [Nat.min_eq_right (by omega), Interval.put_of_subset (Nat.le_refl _) (Nat.le_refl _),
      put_frame, reached, if_neg (by omega),
      show fullPages v (n / 512 - 1) + 512 = 512 * (n / 512 + 1) by unfold fullPages; omega]

theorem Takes.mono (h : Takes n s s₁) (hle : n ≤ k) : Takes k s s₁ := by
  obtain ⟨used, hlen, hrest⟩ := h
  exact ⟨used, Nat.le_trans hlen hle, hrest⟩

/-- One call for a range, where nothing has been mapped. -/
theorem Ascends.initMap_aligned (hs : s.Ascends) (h : s.Translates pml4 m) (hv : pteOff v = 0)
    (hp : p < 2 ^ 64) (hdir : pdeOff v + n / 512 + 1 ≤ 512)
    (hnone : ∀ x, vpage v ≤ x → x < vpage v + 1024 → m x = none)
    (hlen : 4 + n / 512 ≤ s.supply.length) (access : ℕ) :
    ∃ s₁, s.initMapVirtPhysAddr v p n pml4 access = .ok s₁ ∧ Takes (4 + n / 512) s s₁ ∧
      s₁.Translates pml4 (Interval.put (vpage v) (reached n) (frame p) m) := by
  rcases Nat.lt_or_ge 512 n with hn | hn
  · obtain ⟨htables, hlast⟩ := counts_aligned hv hn (by omega)
    obtain ⟨s₁, hok, htakes, h₁⟩ := hs.initMap_beyond (v := v) (n := n) (p := p) h (by omega)
      (by omega) hp (by omega) (by omega) access
    rw [htables, hlast, bulkMap_aligned hv hn hnone] at h₁
    exact ⟨s₁, hok, htakes.mono (by omega), h₁⟩
  · obtain ⟨lab, hw, hroot⟩ := h.tree
    obtain ⟨s', pde, pte, ht, htakes⟩ := hs.fresh.tablesFor (by omega) hw hroot v access
    have hok : s.initMapVirtPhysAddr v p n pml4 access
        = .ok (s'.fill (leafEntry access) n pte (pteOff v) p).1 := by
      rw [Vm.initMap_within (by omega)]
      exact bind_eq_ok.2 ⟨_, ht, rfl⟩
    have hfill := htakes.trans (fill_takes (leafEntry access) pte n s' (pteOff v) p (by omega))
    rw [show reached n = n from if_pos (by omega)]
    exact ⟨_, hok, hfill.mono (by omega), h.initMap_within (by omega) hp hok⟩

/-! ## The kernel's map -/

/-- The page with the number 0, in the kernel's half. -/
def upperPage : ℕ := 2 ^ 36 - 2 ^ 19

/-- What the kernel has mapped, with `n` pages of memory: the memory at its own address, the screen,
and the memory from `physbase` on. -/
def bootMap (n x : ℕ) : Option ℕ :=
  if x < reached n then some x
  else if x = upperPage + 0xB8 then some 0xB8
  else if upperPage + 512 ≤ x ∧ x < upperPage + 512 + reached (n - 511) then some (x - upperPage)
  else none

theorem reached_le (h : n + 2 ≤ 2 ^ 18) : reached n ≤ 2 ^ 18 := by
  unfold reached
  split_ifs <;> omega

theorem frame_eq {q : ℕ} (h : q + k < 2 ^ 52) : frame (q * 4096) k = some (q + k) := by
  rw [frame, entryPage_eq]
  exact congrArg some (by omega)

theorem bootMap_eq (h : n + 2 ≤ 2 ^ 18) :
    Function.update (Interval.put (upperPage + 512) (reached (n - 511)) (frame (512 * 4096))
      (Interval.put 0 (reached n) (frame (0 * 4096)) fun _ => none)) (upperPage + 0xB8)
      (some 0xB8) = bootMap n := by
  have hlow := reached_le h
  have hhigh := reached_le (n := n - 511) (by omega)
  funext x
  unfold bootMap upperPage
  by_cases hscreen : x = 2 ^ 36 - 2 ^ 19 + 0xB8
  · rw [hscreen, Function.update_self, if_neg (by omega), if_pos rfl]
  · rw [Function.update_of_ne hscreen]
    by_cases hx : 2 ^ 36 - 2 ^ 19 + 512 ≤ x ∧ x < 2 ^ 36 - 2 ^ 19 + 512 + reached (n - 511)
    · rw [Interval.put_of_mem hx.1 hx.2, frame_eq (by omega), if_neg (by omega), if_neg hscreen,
        if_pos hx]
      exact congrArg some (by omega)
    · rw [Interval.put_of_notMem (by omega), if_neg hscreen, if_neg hx]
      by_cases hx' : x < reached n
      · rw [Interval.put_of_mem (Nat.zero_le x) (by omega), frame_eq (by omega), if_pos hx']
        exact congrArg some (by omega)
      · rw [Interval.put_of_notMem (by omega), if_neg hx']

theorem exists_initPaging (mem : ℕ → ℕ → ℕ) {supply : List ℕ} (hsorted : supply.Pairwise (· < ·))
    (hmin : 512 ≤ n) (hmax : n + 2 ≤ 2 ^ 18) (hlen : 2 * (n / 512) + 12 ≤ supply.length) :
    ∃ s ker, initPaging ⟨mem, supply, [], []⟩ n = .ok (s, ker) ∧
      Takes (2 * (n / 512) + 12) ⟨mem, supply, [], []⟩ s ∧ s.Translates ker (bootMap n) := by
  have hs : Ascends ⟨mem, supply, [], []⟩ := ⟨hsorted, by simp⟩
  obtain ⟨sa, ker, ha, htakes⟩ := hs.fresh.newTable (List.length_pos_iff.1 (by simp only; omega))
  have hsa := htakes.ascends hs
  have hla := htakes.length_le
  have hempty : sa.Translates ker fun _ => none := by
    obtain ⟨rest, -, -, rfl⟩ := newTable_ok ha
    have hzero : ∀ i, Radix.clear 0 mem ker ker i = 0 := fun i => by simp [Radix.clear]
    refine ⟨rfl, ⟨_, wf_empty _ hzero rest, if_pos rfl⟩, fun w => ?_⟩
    rw [translate, walk_empty hzero]
    rfl
  obtain ⟨sb, hb, htb, hmapb⟩ := hsa.initMap_aligned (v := 0) (p := 0 * 4096) (n := n) hempty rfl
    (by decide) (by rw [show pdeOff 0 = 0 from rfl]; omega) (fun _ _ _ => rfl)
    (by simp only at hla; omega) 0
  have hsb := htb.ascends hsa
  have hlb := htb.length_le
  have hcount : (n + 2 ^ 64 - physbase / 4096 + 1) % 2 ^ 64 = n - 511 := by
    unfold physbase
    omega
  have hupper : vpage (VADDR physbase) = upperPage + 512 := by decide
  have hnone : ∀ x, vpage (VADDR physbase) ≤ x → x < vpage (VADDR physbase) + 1024 →
      Interval.put (vpage 0) (reached n) (frame (0 * 4096)) (fun _ => none) x = none := by
    intro x hx _
    have hle := reached_le hmax
    rw [hupper, upperPage] at hx
    exact Interval.put_of_notMem (Or.inr (by rw [show vpage 0 = 0 from rfl]; omega))
  obtain ⟨sc, hc, htc, hmapc⟩ := hsb.initMap_aligned (v := VADDR physbase) (p := 512 * 4096)
    (n := n - 511) hmapb (by decide) (by decide)
    (by rw [show pdeOff (VADDR physbase) = 1 by decide]; omega) hnone
    (by simp only at hla; omega) 0
  have hlc := htc.length_le
  obtain ⟨lab, hw, hroot⟩ := hmapc.tree
  obtain ⟨sd, hd, htd⟩ := (htc.ascends hsb).fresh.initMap (by simp only at hla; omega) hw hroot
    0xFFFFFFFF800B8000 0xB8000 0
  have hmapd := hmapc.initMap_one hd
  rw [hupper, show vpage 0xFFFFFFFF800B8000 = upperPage + 0xB8 by decide,
    show entryPage 0xB8000 = 0xB8 by decide, show vpage 0 = 0 from rfl, bootMap_eq hmax] at hmapd
  refine ⟨sd, ker, ?_, (((htakes.trans htb).trans htc).trans htd).mono (by omega), hmapd⟩
  refine bind_eq_ok.2 ⟨_, ha, bind_eq_ok.2 ⟨sb, hb, bind_eq_ok.2 ⟨sc, ?_, bind_eq_ok.2
    ⟨sd, hd, rfl⟩⟩⟩⟩
  rw [hcount]
  exact hc

/-! ## More tables than a directory has room for -/

variable {pde off t : ℕ}

theorem fill_tables : ∀ (n : ℕ) (s : Vm) (i p : ℕ), (fill entry n s pte i p).1.tables = s.tables
  | 0, _, _, _ => rfl
  | n + 1, s, i, p => fill_tables n (s.write pte i (entry p)) (i + 1) _

/-- The page behind the directory is a table itself, and its first entry would be hit. -/
theorem allocTable_inside (h : s.allocTable pde off access = .ok (s₁, t))
    (hc : pde + 1 ∉ s₁.clobbered) (hpde : pde + 1 ∈ s.tables) (hle : off ≤ 512) :
    off < 512 ∧ pde + 1 ∈ s₁.tables := by
  obtain ⟨⟨s', t'⟩, hk, h⟩ := bind_eq_ok.1 h
  obtain ⟨rfl, rfl⟩ := Prod.mk.inj (Except.ok.inj h)
  obtain ⟨rest, -, -, rfl⟩ := newTable_ok hk
  refine ⟨Nat.lt_of_le_of_ne hle ?_, List.mem_cons_of_mem _ hpde⟩
  rintro rfl
  simp only [write] at hc
  rw [if_pos ⟨Nat.le_refl _, List.mem_cons_of_mem _ hpde⟩] at hc
  exact hc List.mem_cons_self

theorem fillTables_inside : ∀ {n : ℕ} {s : Vm} {off p : ℕ} {r : Vm × ℕ × ℕ},
    fillTables access n s pde off p = .ok r → pde + 1 ∉ r.1.clobbered → pde + 1 ∈ s.tables →
    off ≤ 512 → r.2.1 ≤ 512 ∧ pde + 1 ∈ r.1.tables
  | 0, s, off, p, r, h, _, hpde, hle => by
    obtain rfl := Except.ok.inj h
    exact ⟨hle, hpde⟩
  | n + 1, s, off, p, r, h, hc, hpde, hle => by
    obtain ⟨-, s', pte, ha, h⟩ := fillTables_succ_ok h
    have hc' : pde + 1 ∉ s'.clobbered := fun hmem =>
      hc (fillTables_clobbered h (fill_clobbered _ 512 s' pte 0 p hmem))
    obtain ⟨hlt, hpde'⟩ := allocTable_inside ha hc' hpde hle
    rw [← fill_tables 512 s' 0 p] at hpde'
    exact fillTables_inside h hc hpde' hlt

theorem initMap_inside (hn : 512 < n + pteOff v) (hn' : n + pteOff v < 2 ^ 64)
    (hok : s.initMapVirtPhysAddr v p n pml4 access = .ok s₁) (hc : pde + 1 ∉ s₁.clobbered)
    (hnext : ∀ s' pde' pte, s.tablesFor v pml4 access = .ok (s', pde', pte) →
      pde' = pde ∧ pde + 1 ∈ s'.tables) :
    pdeOff v + noOfPteT v n + 2 ≤ 512 := by
  rw [Vm.initMap_beyond hn hn'] at hok
  obtain ⟨⟨s', pde', pte⟩, ht, hok⟩ := bind_eq_ok.1 hok
  obtain ⟨⟨sa, last, q⟩, hf, hok⟩ := bind_eq_ok.1 hok
  dsimp only at hok
  split_ifs at hok
  obtain ⟨⟨sb, pte'⟩, ha, hok⟩ := bind_eq_ok.1 hok
  obtain rfl := Except.ok.inj hok
  obtain ⟨rfl, hpde⟩ := hnext s' pde' pte ht
  dsimp only at hc
  have hcb : pde' + 1 ∉ sb.clobbered := fun hmem => hc (fill_clobbered _ _ sb pte' 0 q hmem)
  have hca : pde' + 1 ∉ sa.clobbered := fun hmem => hcb (allocTable_clobbered ha hmem)
  rw [← fill_tables (512 - pteOff v) s' (pteOff v) p] at hpde
  obtain ⟨hle, hpde'⟩ := fillTables_inside hf hca hpde (pdeOff_lt v)
  have hlt := (allocTable_inside ha hcb hpde' hle).1
  obtain ⟨-, hlast⟩ := fillTables_log hf
  dsimp only at hlast
  omega

/-- Whatever is hit, the call returns if there are pages for the tables. -/
theorem Ascends.exists_allocTable (hs : s.Ascends) (hlen : 0 < s.supply.length)
    (pde off access : ℕ) : ∃ s₁ t, s.allocTable pde off access = .ok (s₁, t) ∧ s₁.Ascends ∧
      s.supply.length ≤ s₁.supply.length + 1 := by
  obtain ⟨s', t, hnew, htakes⟩ := hs.fresh.newTable (List.length_pos_iff.1 hlen)
  obtain ⟨hsorted, habove⟩ := htakes.ascends hs
  exact ⟨_, t, bind_eq_ok.2 ⟨_, hnew, rfl⟩, ⟨hsorted, habove⟩, htakes.length_le⟩

theorem fill_supply (entry : ℕ → ℕ) (pte : ℕ) : ∀ (n : ℕ) (s : Vm) (i p : ℕ),
    (fill entry n s pte i p).1.supply = s.supply
  | 0, _, _, _ => rfl
  | n + 1, s, i, p => fill_supply entry pte n (s.write pte i (entry p)) (i + 1) _

theorem Ascends.fill (hs : s.Ascends) (entry : ℕ → ℕ) (n pte i p : ℕ) :
    (Vm.fill entry n s pte i p).1.Ascends := by
  refine ⟨?_, ?_⟩
  · rw [fill_supply]
    exact hs.sorted
  · rw [fill_supply, fill_tables]
    exact hs.above

theorem Ascends.exists_fillTables (access pde : ℕ) : ∀ (n : ℕ) {s : Vm} (off p : ℕ), s.Ascends →
    off + n < 2 ^ 31 → n ≤ s.supply.length →
    ∃ r, Vm.fillTables access n s pde off p = .ok r ∧ r.1.Ascends ∧
      s.supply.length ≤ r.1.supply.length + n ∧ r.2.1 = off + n
  | 0, s, off, p, hs, _, _ => ⟨(s, off, p), rfl, hs, Nat.le_refl _, rfl⟩
  | n + 1, s, off, p, hs, hlt, hlen => by
    obtain ⟨s', pte, ha, hs', hlen'⟩ := hs.exists_allocTable (by omega) pde off access
    have hsup := fill_supply (· ||| rwFlags access) pte 512 s' 0 p
    obtain ⟨r, hr, hsr, hlenr, hlast⟩ := Ascends.exists_fillTables access pde n (off + 1)
      (s'.fill (· ||| rwFlags access) 512 pte 0 p).2 (hs'.fill (· ||| rwFlags access) 512 pte 0 p)
      (by omega) (by rw [hsup]; omega)
    refine ⟨r, ?_, hsr, by rw [hsup] at hlenr; omega, by omega⟩
    rw [fillTables_succ, if_neg (by omega)]
    exact bind_eq_ok.2 ⟨_, ha, hr⟩

theorem Ascends.exists_tablesFor (hs : s.Ascends) (hlen : 3 ≤ s.supply.length)
    (v pml4 access : ℕ) : ∃ s₁ pde pte, s.tablesFor v pml4 access = .ok (s₁, pde, pte) ∧
      s₁.Ascends ∧ s.supply.length ≤ s₁.supply.length + 3 := by
  unfold tablesFor allocPdpe allocPde allocPte
  dsimp only
  split_ifs
  · exact ⟨s, _, _, rfl, hs, by omega⟩
  · obtain ⟨sa, pte, ha, hsa, hla⟩ := hs.exists_allocTable (by omega) _ (pdeOff v) access
    exact ⟨sa, _, pte, bind_eq_ok.2 ⟨_, ha, rfl⟩, hsa, by omega⟩
  · obtain ⟨sa, pde, ha, hsa, hla⟩ := hs.exists_allocTable (by omega) _ (pdpeOff v) access
    obtain ⟨sb, pte, hb, hsb, hlb⟩ := hsa.exists_allocTable (by omega) pde (pdeOff v) access
    exact ⟨sb, pde, pte, bind_eq_ok.2 ⟨_, ha, bind_eq_ok.2 ⟨_, hb, rfl⟩⟩, hsb, by omega⟩
  · obtain ⟨sa, pdpe, ha, hsa, hla⟩ := hs.exists_allocTable (by omega) pml4 (pml4Off v) access
    obtain ⟨sb, pde, hb, hsb, hlb⟩ := hsa.exists_allocTable (by omega) pdpe (pdpeOff v) access
    obtain ⟨sc, pte, hc, hsc, hlc⟩ := hsb.exists_allocTable (by omega) pde (pdeOff v) access
    exact ⟨sc, pde, pte, bind_eq_ok.2 ⟨_, ha, bind_eq_ok.2 ⟨_, hb, bind_eq_ok.2 ⟨_, hc, rfl⟩⟩⟩,
      hsc, by omega⟩

theorem Ascends.exists_initMap (hs : s.Ascends) (hv : n + pteOff v ≤ 512 ∨ pteOff v = 0)
    (hlt : n < 2 ^ 31) (hlen : 4 + n / 512 ≤ s.supply.length) (p pml4 access : ℕ) :
    ∃ s₁, s.initMapVirtPhysAddr v p n pml4 access = .ok s₁ ∧ s₁.Ascends ∧
      s.supply.length ≤ s₁.supply.length + (4 + n / 512) := by
  obtain ⟨sa, pde, pte, ht, hsa, hla⟩ := hs.exists_tablesFor (by omega) v pml4 access
  rcases Nat.lt_or_ge 512 n with hn | hn
  · have hdir := pdeOff_lt v
    have hcount := (counts_aligned (hv.resolve_left (by omega)) hn hlt).1
    have hsup := fill_supply (· ||| rwFlags access) pte (512 - pteOff v) sa (pteOff v) p
    obtain ⟨⟨sb, last, q⟩, hf, hsb, hlb, hlast⟩ := Ascends.exists_fillTables access pde
      (noOfPteT v n) (pdeOff v + 1) (sa.fill (· ||| rwFlags access) (512 - pteOff v) pte
      (pteOff v) p).2 (hsa.fill (· ||| rwFlags access) (512 - pteOff v) pte (pteOff v) p)
      (by omega) (by rw [hsup]; omega)
    rw [hsup] at hlb
    dsimp only at hsb hlb hlast
    obtain ⟨sc, pte', ha, hsc, hlc⟩ := hsb.exists_allocTable (by omega) pde last access
    refine ⟨(sc.fill (· ||| rwFlags access) (lastEntries v n) pte' 0 q).1, ?_,
      hsc.fill _ _ _ _ _, by rw [fill_supply]; omega⟩
    rw [Vm.initMap_beyond (by omega) (by omega)]
    refine bind_eq_ok.2 ⟨_, ht, bind_eq_ok.2 ⟨_, hf, ?_⟩⟩
    dsimp only
    rw [if_neg (by omega)]
    exact bind_eq_ok.2 ⟨_, ha, rfl⟩
  · refine ⟨(sa.fill (leafEntry access) n pte (pteOff v) p).1, ?_, hsa.fill _ _ _ _ _, ?_⟩
    · rw [Vm.initMap_within (by omega)]
      exact bind_eq_ok.2 ⟨_, ht, rfl⟩
    · rw [fill_supply]
      omega

/-- Pages that follow one another. -/
theorem tablesFor_next (hent : s.mem pml4 (pml4Off v) = 0) {q k : ℕ}
    (hsup : s.supply = List.range' q k) {s' : Vm}
    (h : s.tablesFor v pml4 access = .ok (s', pde, pte)) :
    pde = q + 1 ∧ q + 1 + 1 ∈ s'.tables := by
  unfold tablesFor at h
  dsimp only at h
  rw [hent, if_neg (by decide)] at h
  obtain ⟨⟨sa, pdpe⟩, ha, h⟩ := bind_eq_ok.1 h
  obtain ⟨⟨sb, pde'⟩, hb, h⟩ := bind_eq_ok.1 h
  obtain ⟨⟨sc, pte'⟩, hc, h⟩ := bind_eq_ok.1 h
  obtain ⟨rfl, hpair⟩ := Prod.mk.inj (Except.ok.inj h)
  obtain ⟨rfl, rfl⟩ := Prod.mk.inj hpair
  obtain ⟨-, ra, hsa, rfl⟩ := allocTable_ok (pml4Off_lt v) ha
  obtain ⟨-, rb, hsb, rfl⟩ := allocTable_ok (pdpeOff_lt v) hb
  obtain ⟨-, rc, hsc, rfl⟩ := allocTable_ok (pdeOff_lt v) hc
  rw [hsup, List.range'_eq_cons_iff] at hsa
  obtain ⟨rfl, -, rfl⟩ := hsa
  dsimp only at hsb
  rw [List.range'_eq_cons_iff] at hsb
  obtain ⟨rfl, -, rfl⟩ := hsb
  dsimp only at hsc
  rw [List.range'_eq_cons_iff] at hsc
  obtain ⟨rfl, -⟩ := hsc
  exact ⟨rfl, List.mem_cons_self⟩

end Vm

namespace System

variable {n : ℕ}

/-- The kernel's address of a page of the memory. -/
theorem bootMap_vaddr {x : ℕ} (hlo : 512 ≤ x) (hx : x < n) (hmax : n + 2 ≤ 2 ^ 18) :
    Vm.bootMap n (vpage (VADDR (x * 4096))) = some x := by
  have hpage : vpage (VADDR (x * 4096)) = Vm.upperPage + x := by
    rw [(vaddr_page (by omega)).1]
    unfold vpage KERNEL_VADDR Vm.upperPage
    omega
  have hlow := Vm.reached_le hmax
  have hle : n - 511 ≤ Vm.reached (n - 511) := by
    unfold Vm.reached
    split_ifs <;> omega
  rw [hpage, Vm.bootMap, Vm.upperPage, if_neg (by omega), if_neg (by omega),
    if_pos (by omega), Nat.add_sub_cancel_left]

/-- What `init_paging` and the boot task have left behind. -/
theorem exists_boot (mem : ℕ → ℕ → ℕ) {supply : List ℕ} (hmax : n + 2 ≤ 2 ^ 18)
    (hout : HandedOut 512 supply n) (hlen : 2 * (n / 512) + 13 ≤ supply.length) :
    ∃ s pcb, start mem supply n = .ok s ∧ s.vm.Translates s.ker (Vm.bootMap n) ∧
      pcb ∈ supply ∧ HandedOut (pcb + 1) s.vm.supply n ∧
      ∀ x ∈ s.vm.tables, x ∈ supply ∧ x < pcb := by
  obtain ⟨vm, ker, hp, htakes, hmaps⟩ :=
    Vm.exists_initPaging mem hout.sorted hout.le hmax (by omega)
  have hascends := htakes.ascends ⟨hout.sorted, by simp⟩
  have hrest := htakes.length_le
  obtain ⟨pcb, rest, hsup⟩ : ∃ pcb rest, vm.supply = pcb :: rest :=
    List.exists_cons_of_ne_nil (List.length_pos_iff.1 (by simp only at hrest; omega))
  have hmem : ∀ x ∈ vm.supply, x ∈ supply := by
    obtain ⟨used, -, hused, -, -⟩ := htakes
    exact fun x hx => by
      simp only at hused
      rw [hused]
      exact List.mem_append_right _ hx
  have hpcb : pcb ∈ vm.supply := by simp [hsup]
  obtain ⟨mem', hk⟩ := Vm.exists_kmalloc sizeofTaskStruct hsup (by decide) fun t ht hblock =>
    Nat.not_lt.2 hblock.1 (hascends.above t ht pcb hpcb)
  have hsorted := hascends.sorted
  rw [hsup] at hsorted
  refine ⟨⟨{ vm with supply := rest, mem := mem' }, ker, [⟨ker, 0⟩]⟩, pcb,
    bind_eq_ok.2 ⟨_, hp, bind_eq_ok.2 ⟨_, hk, rfl⟩⟩, hmaps.data (Vm.kmalloc_data hk) hmaps.clean,
    hmem pcb hpcb, ⟨(List.pairwise_cons.1 hsorted).2, (List.pairwise_cons.1 hsorted).1,
      fun x hx => ?_, hout.upper pcb (hmem pcb hpcb)⟩, fun x hx => ⟨?_, ?_⟩⟩
  · exact hout.upper x (hmem x (by rw [hsup]; exact List.mem_cons_of_mem _ hx))
  · exact (htakes.mem_tables hx).resolve_left (by simp)
  · exact hascends.above x hx pcb hpcb

/-- The kernel has an address for every page from the second mebibyte on. -/
theorem separate_of_boot {mem : ℕ → ℕ → ℕ} {supply : List ℕ} {s : System} {m : ℕ}
    (hmax : n + 2 ≤ 2 ^ 18) (hs : start mem supply n = .ok s)
    (hmaps : s.vm.Translates s.ker (Vm.bootMap n)) (hle : m ≤ n)
    (htab : ∀ x ∈ s.vm.tables, 512 ≤ x ∧ x < m) : s.Separate 512 n m :=
  .start hs hmaps.clean hle htab fun _ hlo hx =>
    (hmaps.finds _).trans (bootMap_vaddr hlo hx hmax)

/-- With less than 1 GiB, and pages handed out in ascending order, `init_paging` returns, and the
kernel has its memory mapped; nothing has been stored in a page table but its entries, and no
process has anything yet. -/
theorem boot_maps (mem : ℕ → ℕ → ℕ) {supply : List ℕ} (hmax : n + 2 ≤ 2 ^ 18)
    (hout : HandedOut 512 supply n) (hlen : 2 * (n / 512) + 13 ≤ supply.length) :
    ∃ s m, start mem supply n = .ok s ∧ s.Separate 512 n m ∧ HandedOut m s.vm.supply n ∧
      ∀ v, translate s.vm.mem s.ker v = Vm.bootMap n (vpage v) := by
  obtain ⟨s, pcb, hs, hmaps, hpcb, hrest, htab⟩ := exists_boot mem hmax hout hlen
  refine ⟨s, pcb + 1, hs, separate_of_boot hmax hs hmaps hrest.le fun x hx => ?_, hrest,
    hmaps.finds⟩
  exact ⟨hout.lower x (htab x hx).1, Nat.lt_succ_of_lt (htab x hx).2⟩

/-- 128 MiB, of which the last page and the one behind it are mapped. -/
theorem boot_maps_small : ∃ s m, start (fun _ _ => 0) (List.range' 1024 141) 0x8000 = .ok s ∧
    s.Separate 512 0x8000 m ∧ translate s.vm.mem s.ker (VADDR 0x7fff000) = some 0x7fff ∧
    translate s.vm.mem s.ker 0x8000000 = some 0x8000 := by
  have hout : HandedOut 512 (List.range' 1024 141) 0x8000 :=
    ⟨List.pairwise_lt_range', fun x hx => by rw [List.mem_range'_1] at hx; omega,
      fun x hx => by rw [List.mem_range'_1] at hx; omega, by decide⟩
  obtain ⟨s, m, hs, hsep, -, hmaps⟩ := boot_maps (fun _ _ => 0) (by decide) hout (by simp)
  exact ⟨s, m, hs, hsep, by rw [hmaps]; decide, by rw [hmaps]; decide⟩

/-! ## Runs from boot -/

/-- `m` is behind the pages that boot has taken. -/
theorem separate_start {mem : ℕ → ℕ → ℕ} {supply : List ℕ} {s : System} {m : ℕ}
    (hmax : n + 2 ≤ 2 ^ 18) (hout : HandedOut 512 supply n)
    (hlen : 2 * (n / 512) + 13 ≤ supply.length) (hs : start mem supply n = .ok s)
    (hm : ∀ x ∈ supply, x < m) (hle : m ≤ n) : s.Separate 512 n m := by
  obtain ⟨s', pcb, hs', hmaps, -, -, htab⟩ := exists_boot mem hmax hout hlen
  obtain rfl := Except.ok.inj (hs'.symm.trans hs)
  exact separate_of_boot hmax hs hmaps hle fun x hx =>
    ⟨hout.lower x (htab x hx).1, hm x (htab x hx).1⟩

/-- With less than 1 GiB the machine boots, and over every run from there whatever others do leaves
the memory of a process as it is; and the kernel still works on its own tables. -/
theorem memory_kept (mem : ℕ → ℕ → ℕ) {supply : List ℕ} (hmax : n + 2 ≤ 2 ^ 18)
    (hout : HandedOut 512 supply n) (hlen : 2 * (n / 512) + 13 ≤ supply.length) :
    ∃ s₀, start mem supply n = .ok s₀ ∧ ∀ {m₀ m m' s s' q}, (∀ x ∈ supply, x < m₀) → m₀ ≤ n →
      Reach (UserStep n) (s₀, m₀) (s, m) → s.User q →
      Reach (OthersStep n q) (s, m) (s', m') →
      s'.Sound ∧ s'.User q ∧ ∀ v, pml4Off v ≠ 511 →
        loadByte s'.vm.mem q.pml4 v = loadByte s.vm.mem q.pml4 v := by
  obtain ⟨s₀, -, hs, -⟩ := exists_boot mem hmax hout hlen
  refine ⟨s₀, hs, fun hm hle h hq hrun => ?_⟩
  have hlow : n + 2 ≤ 2 ^ 19 := by omega
  have hsep := (separate_start hmax hout hlen hs hm hle).reach hlow h
  obtain ⟨hsep', hkept⟩ := hsep.others hlow hq hrun
  exact ⟨hsep'.sound, hkept⟩

/-- The pages for a second process on the small machine. -/
def morePages : List ℕ := 602 :: 603 :: List.range' 612 14

/-- The small machine boots, a program with two segments is loaded, and then it once more. -/
theorem memory_kept_two :
    ∃ s₀ s s' p, start (fun _ _ => 0) (List.range' 560 15) 640 = .ok s₀ ∧
      Step s₀ (.elfRunBin (twoSegments 0x401040), smallPages) s ∧ s.procs = s₀.procs ++ [p] ∧
      Step s (.elfRunBin (twoSegments 0x401040), morePages) s' ∧
      ∀ v, pml4Off v ≠ 511 → loadByte s'.vm.mem p.pml4 v = loadByte s.vm.mem p.pml4 v := by
  have hboot : HandedOut 512 (List.range' 560 15) 640 :=
    ⟨by decide, by decide, by decide, by decide⟩
  obtain ⟨s₀, h₀, hkept⟩ := memory_kept (fun _ _ => 0) (by decide) hboot (by decide)
  have hbelow : ∀ ph ∈ (twoSegments 0x401040).loads, ph.Below := fun ph hph =>
    below_of_lt ((by decide : ∀ ph ∈ (twoSegments 0x401040).loads, ph.pFilesz ≤ ph.pMemsz) ph hph)
      ((by decide : ∀ ph ∈ (twoSegments 0x401040).loads, ph.pVaddr + ph.pMemsz < 2 ^ 47) ph hph)
  have hstack := twoSegments_below 0x401040 (by decide)
  have hout : HandedOut 578 smallPages 602 := ⟨by decide, by decide, by decide, by decide⟩
  have hmore : HandedOut 602 morePages 626 := ⟨by decide, by decide, by decide, by decide⟩
  have htask : ∀ pcb, smallPages[1]? = some pcb → pcb + 9 ≤ 602 := by
    rintro _ ⟨rfl⟩
    decide
  have htask' : ∀ pcb, morePages[1]? = some pcb → pcb + 9 ≤ 626 := by
    rintro _ ⟨rfl⟩
    decide
  have hsep : s₀.Separate 512 640 578 :=
    separate_start (by decide) hboot (by decide) h₀ (by decide) (by decide)
  obtain ⟨s, p, hstep, hprocs⟩ := hsep.exists_load (by decide) hstack (by decide) (by decide) hout
    htask (by decide)
  obtain ⟨hsep', ⟨p', hprocs', hp⟩, -⟩ := hsep.load (by decide) hstep hbelow (by decide) hout
    htask (by decide)
  obtain rfl : p = p' := List.singleton_inj.1 (List.append_cancel_left (hprocs.symm.trans hprocs'))
  obtain ⟨s', -, hstep', -⟩ := hsep'.exists_load (by decide) hstack (by decide) (by decide) hmore
    htask' (by decide)
  obtain ⟨-, -, hbytes⟩ := hkept (by decide : ∀ x ∈ List.range' 560 15, x < 578) (by decide)
    (.step .start (.load hstep hbelow (by decide) hout htask (by decide))) hp
    (.step .start ⟨.load hstep' hbelow (by decide) hmore htask' (by decide),
      by simp [Event.author]⟩)
  exact ⟨s₀, s, s', p, h₀, hstep, hprocs, hstep', hbytes⟩

/-! ## From 1 GiB on -/

theorem exists_start (mem : ℕ → ℕ → ℕ) {supply : List ℕ} (hsorted : supply.Pairwise (· < ·))
    (hmin : 512 ≤ n) (hmax : n < 2 ^ 31) (hlen : 2 * (n / 512) + 15 ≤ supply.length) :
    ∃ s, start mem supply n = .ok s := by
  have hs : Vm.Ascends ⟨mem, supply, [], []⟩ := ⟨hsorted, by simp⟩
  obtain ⟨va, ker, ha, htakes⟩ := hs.fresh.newTable (List.length_pos_iff.1 (by simp only; omega))
  have hla := htakes.length_le
  simp only at hla
  obtain ⟨vb, hb, hsb, hlb⟩ := (htakes.ascends hs).exists_initMap (v := 0) (n := n) (Or.inr rfl)
    (by omega) (by omega) 0 ker 0
  have hcount : (n + 2 ^ 64 - Vm.physbase / 4096 + 1) % 2 ^ 64 = n - 511 := by
    unfold Vm.physbase
    omega
  obtain ⟨vc, hm, hsc, hlc⟩ := hsb.exists_initMap (v := VADDR Vm.physbase) (n := n - 511)
    (Or.inr (by decide)) (by omega) (by omega) Vm.physbase ker 0
  obtain ⟨vd, hd, hsd, hld⟩ := hsc.exists_initMap (v := 0xFFFFFFFF800B8000) (n := 1)
    (Or.inl (by decide)) (by omega) (by omega) 0xB8000 ker 0
  obtain ⟨pcb, rest, hsup⟩ : ∃ pcb rest, vd.supply = pcb :: rest :=
    List.exists_cons_of_ne_nil (List.length_pos_iff.1 (by omega))
  obtain ⟨mem', hk⟩ := Vm.exists_kmalloc sizeofTaskStruct hsup (by decide) fun t ht hblock =>
    Nat.not_lt.2 hblock.1 (hsd.above t ht pcb (by simp [hsup]))
  refine ⟨⟨{ vd with supply := rest, mem := mem' }, ker, [⟨ker, 0⟩]⟩, bind_eq_ok.2 ⟨(vd, ker),
    bind_eq_ok.2 ⟨_, ha, bind_eq_ok.2 ⟨vb, hb, bind_eq_ok.2 ⟨vc, ?_, bind_eq_ok.2
      ⟨vd, hd, rfl⟩⟩⟩⟩, bind_eq_ok.2 ⟨_, hk, rfl⟩⟩⟩
  rw [hcount]
  exact hm

theorem clobbered_of_start {mem : ℕ → ℕ → ℕ} {f k : ℕ} {s : System} (hmin : 2 ^ 18 ≤ n)
    (hmax : n < 2 ^ 31) (h : start mem (List.range' f k) n = .ok s) :
    f + 3 ∈ s.vm.clobbered := by
  by_contra hnot
  obtain ⟨⟨vm, ker⟩, hp, h⟩ := bind_eq_ok.1 h
  obtain ⟨⟨vm', pcb⟩, hk, h⟩ := bind_eq_ok.1 h
  obtain rfl := Except.ok.inj h
  obtain ⟨⟨va, ker'⟩, ha, hp⟩ := bind_eq_ok.1 hp
  obtain ⟨vb, hb, hp⟩ := bind_eq_ok.1 hp
  obtain ⟨vc, hm, hp⟩ := bind_eq_ok.1 hp
  obtain ⟨vd, hd, hp⟩ := bind_eq_ok.1 hp
  obtain ⟨rfl, rfl⟩ := Prod.mk.inj (Except.ok.inj hp)
  have hvd : f + 3 ∉ vd.clobbered := by
    rw [← (Vm.kmalloc_clobbered hk).1]
    exact hnot
  have hvb : f + 3 ∉ vb.clobbered := fun hmem =>
    hvd (Vm.initMap_clobbered hd (Vm.initMap_clobbered hm hmem))
  obtain ⟨rest, hsup, -, rfl⟩ := Vm.newTable_ok ha
  dsimp only at hsup
  rw [List.range'_eq_cons_iff] at hsup
  obtain ⟨rfl, -, rfl⟩ := hsup
  have hoff : pteOff 0 = 0 := rfl
  -- the directory is the third page, and the fourth one the table behind it
  have hinside : pdeOff 0 + Vm.noOfPteT 0 n + 2 ≤ 512 := Vm.initMap_inside (by omega) (by omega) hb
    (show f + 2 + 1 ∉ vb.clobbered from hvb)
    fun s' pde pte ht => Vm.tablesFor_next (by simp [Radix.clear]) rfl ht
  rw [(Vm.counts_aligned (v := 0) rfl (by omega) hmax).1] at hinside
  omega

/-- With 1 GiB or more it returns as well, but there are more tables than the directory has entries:
the next one has gone to the first entry of the table behind it, which is the fourth page. -/
theorem boot_overwrites (mem : ℕ → ℕ → ℕ) {f k : ℕ} (hmin : 2 ^ 18 ≤ n) (hmax : n < 2 ^ 31)
    (hlen : 2 * (n / 512) + 15 ≤ k) :
    ∃ s, start mem (List.range' f k) n = .ok s ∧ f + 3 ∈ s.vm.clobbered ∧ ¬ s.Sound := by
  have hsorted : (List.range' f k).Pairwise (· < ·) := List.pairwise_lt_range'
  obtain ⟨s, hs⟩ := exists_start mem hsorted (by omega) hmax
    (by rw [List.length_range']; exact hlen)
  have hhit := clobbered_of_start hmin hmax hs
  refine ⟨s, hs, hhit, fun hsound => ?_⟩
  rw [hsound.clean] at hhit
  cases hhit

theorem boot_overwrites_gigabyte :
    ∃ s, start (fun _ _ => 0) (List.range' 2048 1039) (2 ^ 18) = .ok s ∧
      2051 ∈ s.vm.clobbered ∧ ¬ s.Sound :=
  boot_overwrites _ (by decide) (by decide) (by decide)

end System

end Bgox
