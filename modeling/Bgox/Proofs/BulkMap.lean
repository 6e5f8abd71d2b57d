import Bgox.Proofs.Directory

/-!
# Mapping a range at once

`init_map_virt_phys_addr` for `n` pages, against a call for each of them.  Within one table they are
the same.  A range that goes on takes whole tables and then one more, for the rest: but the rest is
computed as if the number of whole tables was `pte_off`, and the table it goes to is new even if
there is one.  So the two agree on few ranges only (`map_range_iff`): where the numbers happen to be
equal, and nothing was mapped behind the range.

The counts are `int`s that are compared with unsigned counters; a negative rest is a loop over most
of the address space.
-/

namespace Bgox

open Run (bind_eq_ok OnlyError)

namespace Vm

variable {s s₁ : Vm} {pml4 v pde pte c i access : ℕ} {m : ℕ → Option ℕ}

/-! ## One call for all of them -/

theorem initMap_within {n p : ℕ} (h : n + pteOff v ≤ 512) :
    s.initMapVirtPhysAddr v p n pml4 access = do
      let (s, _, pte) ← s.tablesFor v pml4 access
      return (s.fill (leafEntry access) n pte (pteOff v) p).1 := by
  have hmod : (n + pteOff v) % 2 ^ 64 = n + pteOff v := Nat.mod_eq_of_lt (by omega)
  rw [initMap_eq]
  simp only [hmod, if_pos h, Nat.add_sub_cancel]

theorem initMap_beyond {n p : ℕ} (h : 512 < n + pteOff v) (hn : n + pteOff v < 2 ^ 64) :
    s.initMapVirtPhysAddr v p n pml4 access = do
      let (s, pde, pte) ← s.tablesFor v pml4 access
      let r := s.fill (· ||| rwFlags access) (512 - pteOff v) pte (pteOff v) p
      let (s, last, phys) ← r.1.fillTables access (noOfPteT v n) pde (pdeOff v + 1) r.2
      if 2 ^ 31 ≤ last then .error .wild
      else
        let (s, pte) ← s.allocPte pde last access
        return (s.fill (· ||| rwFlags access) (lastEntries v n) pte 0 phys).1 := by
  rw [initMap_eq]
  simp only [Nat.mod_eq_of_lt hn, if_neg (Nat.not_le.2 h), result_fillFurtherTrace]

theorem Translates.initMap_within {n p : ℕ} (h : s.Translates pml4 m) (hn : n + pteOff v ≤ 512)
    (hp : p < 2 ^ 64) (hok : s.initMapVirtPhysAddr v p n pml4 access = .ok s₁) :
    s₁.Translates pml4 (Interval.put (vpage v) n (frame p) m) := by
  rw [Vm.initMap_within hn] at hok
  obtain ⟨⟨s', pde, pte⟩, ht, hok⟩ := bind_eq_ok.1 hok
  obtain rfl := Except.ok.inj hok
  obtain ⟨hdir, hpte⟩ := h.tablesFor ht
  obtain ⟨h₁, -⟩ := hdir.fill (entryChild_leafEntry access) (pdeOff_lt v) (n := n)
    (i := pteOff v) hpte (by omega) hp
  rw [pageOf_self] at h₁
  exact h₁.translates

/-- The pages before the last table. -/
def fullPages (v tables : ℕ) : ℕ := 512 - pteOff v + 512 * tables

/-- The tables after the first one are new, and the last one has `rest` entries. -/
def bulkMap (v p tables rest : ℕ) (m : ℕ → Option ℕ) : ℕ → Option ℕ :=
  Interval.put (vpage v + fullPages v tables) rest
    (frame ((p + 4096 * fullPages v tables) % 2 ^ 64))
    (Interval.put (vpage v + fullPages v tables) 512 (fun _ => none)
      (Interval.put (vpage v) (fullPages v tables) (frame p) m))

theorem pageOf_next (v tables : ℕ) :
    pageOf v (pdeOff v + 1 + tables) 0 = vpage v + fullPages v tables := by
  rw [← pageOf_self v, pageOf, pageOf, fullPages]
  have hlt := pteOff_lt v
  omega

theorem Translates.initMap_beyond {n p : ℕ} (h : s.Translates pml4 m) (hn : 512 < n + pteOff v)
    (hn' : n + pteOff v < 2 ^ 64) (hp : p < 2 ^ 64) (htables : pdeOff v + noOfPteT v n + 2 ≤ 512)
    (hrest : lastEntries v n ≤ 512) (hok : s.initMapVirtPhysAddr v p n pml4 access = .ok s₁) :
    s₁.Translates pml4 (bulkMap v p (noOfPteT v n) (lastEntries v n) m) := by
  rw [Vm.initMap_beyond hn hn'] at hok
  obtain ⟨⟨s', pde, pte⟩, ht, hok⟩ := bind_eq_ok.1 hok
  obtain ⟨⟨sa, last, q⟩, hf, hok⟩ := bind_eq_ok.1 hok
  have hlt := pteOff_lt v
  obtain ⟨hdir, hpte⟩ := h.tablesFor ht
  obtain ⟨hfirst, -, hnext⟩ := hdir.fill (fun q => entryChild_or q access) (pdeOff_lt v)
    (n := 512 - pteOff v) (i := pteOff v) hpte (by omega) hp
  rw [hnext] at hf
  obtain ⟨hfull, hlast, hq⟩ := hfirst.fillTables (by omega) (Nat.mod_lt _ (by decide)) hf
  have hstart : pageOf v (pdeOff v + 1) 0 = vpage v + (512 - pteOff v) := by
    simpa [fullPages] using pageOf_next v 0
  rw [pageOf_self, hstart, put_frame, ← fullPages] at hfull
  dsimp only at hok
  rw [if_neg (by omega)] at hok
  obtain ⟨⟨sb, pte'⟩, ha, hok⟩ := bind_eq_ok.1 hok
  obtain rfl := Except.ok.inj hok
  obtain ⟨hnew, hpte'⟩ := hfull.allocTable (by omega) ha
  have hq' : q = (p + 4096 * fullPages v (noOfPteT v n)) % 2 ^ 64 := by
    rw [hq, fullPages]
    omega
  have hlow : q < 2 ^ 64 := by
    rw [hq']
    exact Nat.mod_lt _ (by decide)
  obtain ⟨h₁, -⟩ := hnew.fill (fun q => entryChild_or q access) (by omega : last < 512)
    (n := lastEntries v n) (i := 0) hpte' (by omega) hlow
  rw [hlast, pageOf_next] at h₁
  rw [bulkMap, ← hq']
  exact h₁.translates

/-! ## The indices that are stored to -/

def tableIndices : ℕ → ℕ → List ℕ
  | 0, _ => []
  | n + 1, off => off :: List.range' 0 512 ++ tableIndices n (off + 1)

def storeIndices (v n : ℕ) : List ℕ :=
  if n + pteOff v ≤ 512 then List.range' (pteOff v) n
  else List.range' (pteOff v) (512 - pteOff v) ++ tableIndices (noOfPteT v n) (pdeOff v + 1) ++
    (pdeOff v + 1 + noOfPteT v n) :: List.range' 0 (lastEntries v n)

theorem fillTables_log : ∀ {n : ℕ} {s : Vm} {off p : ℕ} {r : Vm × ℕ × ℕ},
    Vm.fillTables access n s pde off p = .ok r →
    (fillTablesTrace access n s pde off p).log = tableIndices n off ∧ r.2.1 = off + n
  | 0, s, off, p, r, hok => by
    obtain rfl := Except.ok.inj hok
    exact ⟨rfl, rfl⟩
  | n + 1, s, off, p, r, hok => by
    obtain ⟨hoff, s', pte, ha, hok⟩ := fillTables_succ_ok hok
    obtain ⟨hlog, hlast⟩ := fillTables_log hok
    refine ⟨?_, by omega⟩
    rw [fillTablesTrace, if_neg (Nat.not_le.2 hoff), Traced.log_bind ha, Traced.log_tell_bind,
      Traced.log_lift, hlog]
    rfl

theorem log_fillFurtherTrace {n rest last q : ℕ} {r : Vm × ℕ} {sa : Vm} {next : ℕ}
    (hf : fillTables access n r.1 pde next r.2 = .ok (sa, last, q)) (hlast : last < 2 ^ 31)
    {sb : Vm} {pte' : ℕ} (ha : sa.allocPte pde last access = .ok (sb, pte')) :
    (fillFurtherTrace access n rest r pde next).log
      = tableIndices n next ++ last :: List.range' 0 rest := by
  rw [fillFurtherTrace, Traced.log_bind hf, (fillTables_log hf).1]
  simp only [if_neg (Nat.not_le.2 hlast)]
  rw [Traced.log_lift_bind ha, Traced.log_tell_bind, Traced.log_pure, List.append_nil]

theorem log_initMapTrace {n p : ℕ} {s' : Vm} (ht : s.tablesFor v pml4 access = .ok (s', pde, pte)) :
    (s.initMapTrace v p n pml4 access).log =
      if (n + pteOff v) % 2 ^ 64 ≤ 512 then
        List.range' (pteOff v) ((n + pteOff v) % 2 ^ 64 - pteOff v)
      else List.range' (pteOff v) (512 - pteOff v) ++
        (fillFurtherTrace access (noOfPteT v n) (lastEntries v n)
          (s'.fill (· ||| rwFlags access) (512 - pteOff v) pte (pteOff v) p) pde
          (pdeOff v + 1)).log := by
  rw [initMapTrace, Traced.log_lift_bind ht]
  simp only [Traced.log_ite, Traced.log_tell_bind, Traced.log_pure, List.append_nil]

theorem initMap_log {n p : ℕ} (hn : n + pteOff v < 2 ^ 64)
    (hok : s.initMapVirtPhysAddr v p n pml4 access = .ok s₁) :
    s.initMapLog v p n pml4 access = .ok (s₁, storeIndices v n) := by
  refine Traced.logged_eq_ok.2 ⟨hok, ?_⟩
  by_cases hle : n + pteOff v ≤ 512
  · rw [initMap_within hle] at hok
    obtain ⟨⟨s', pde, pte⟩, ht, -⟩ := bind_eq_ok.1 hok
    rw [log_initMapTrace ht, Nat.mod_eq_of_lt hn, if_pos hle, storeIndices, if_pos hle,
      Nat.add_sub_cancel]
  · rw [initMap_beyond (Nat.not_le.1 hle) hn] at hok
    obtain ⟨⟨s', pde, pte⟩, ht, hok⟩ := bind_eq_ok.1 hok
    obtain ⟨⟨sa, last, q⟩, hf, hok⟩ := bind_eq_ok.1 hok
    obtain ⟨-, hlast⟩ := fillTables_log hf
    dsimp only at hok hlast
    split_ifs at hok with hwild
    obtain ⟨⟨sb, pte'⟩, ha, -⟩ := bind_eq_ok.1 hok
    rw [log_initMapTrace ht, Nat.mod_eq_of_lt hn, if_neg hle, storeIndices, if_neg hle,
      log_fillFurtherTrace hf (Nat.not_le.1 hwild) ha, ← hlast, List.append_assoc]

theorem forall_tableIndices : ∀ (n off : ℕ),
    (∀ i ∈ tableIndices n off, i < 512) ↔ n = 0 ∨ off + n ≤ 512
  | 0, off => by simp [tableIndices]
  | n + 1, off => by
    have hrow : ∀ i ∈ List.range' 0 512, i < 512 := by simp
    simp only [tableIndices, List.cons_append, List.forall_mem_cons, List.forall_mem_append,
      forall_tableIndices n (off + 1)]
    constructor
    · rintro ⟨hoff, -, hrest⟩
      omega
    · intro h
      exact ⟨by omega, hrow, by omega⟩

/-- No table is written past its end. -/
theorem forall_storeIndices {n : ℕ} :
    (∀ i ∈ storeIndices v n, i < 512) ↔ n + pteOff v ≤ 512 ∨
      pdeOff v + noOfPteT v n + 2 ≤ 512 ∧ lastEntries v n ≤ 512 := by
  have hlt := pteOff_lt v
  have hrange : ∀ a k, (∀ i ∈ List.range' a k, i < 512) ↔ k = 0 ∨ a + k ≤ 512 := by
    intro a k
    simp only [List.mem_range'_1]
    refine ⟨fun h => ?_, fun h i hi => by omega⟩
    rcases Nat.eq_zero_or_pos k with hk | hk
    · exact Or.inl hk
    · have hlast := h (a + k - 1) (by omega)
      omega
  rw [storeIndices]
  split_ifs with hle
  · rw [hrange]
    omega
  · simp only [List.forall_mem_append, List.forall_mem_cons, hrange, forall_tableIndices]
    omega

theorem int_spec (x : ℤ) :
    -2 ^ 31 ≤ int x ∧ int x < 2 ^ 31 ∧ ∃ k, int x = x + 2 ^ 32 * k := by
  have hmod : int x % 2 ^ 32 = x % 2 ^ 32 := Int.bmod_emod ..
  exact ⟨Int.le_bmod (by decide), Int.bmod_lt (by decide), int x / 2 ^ 32 - x / 2 ^ 32, by omega⟩

theorem lnoOfPages_spec {n : ℕ} (hn : 512 < n + pteOff v) :
    -2 ^ 31 ≤ lnoOfPages v n ∧ lnoOfPages v n < 2 ^ 31 ∧
      ∃ k, lnoOfPages v n = (n + pteOff v - 512 : ℕ) + 2 ^ 32 * k := by
  obtain ⟨-, -, a, ha⟩ := int_spec n
  obtain ⟨hle, hlt, b, hb⟩ := int_spec (int n - (512 - pteOff v))
  exact ⟨hle, hlt, a + b, by rw [lnoOfPages, hb, ha]; omega⟩

/-- The counts are in bounds only if the pages beyond the first table, as an `int`, are as many
whole tables as `pte_off`, or one more and nothing else. -/
theorem lastEntries_le {n : ℕ} (hn : 512 < n + pteOff v) (h : lastEntries v n ≤ 512) :
    512 * pteOff v ≤ (n + pteOff v - 512) % 2 ^ 32 ∧
      (n + pteOff v - 512) % 2 ^ 32 ≤ 512 * pteOff v + 512 := by
  have hoff := pteOff_lt v
  obtain ⟨hle, hlt, k, hk⟩ := lnoOfPages_spec hn
  obtain ⟨hle', hlt', j, hj⟩ := int_spec (lnoOfPages v n - 512 * pteOff v)
  rw [lastEntries, toBound] at h
  obtain rfl : j = 0 := by omega
  omega

theorem counts_eq {n : ℕ} (hn : 512 < n + pteOff v)
    (hle : 512 * pteOff v ≤ (n + pteOff v - 512) % 2 ^ 32)
    (hle' : (n + pteOff v - 512) % 2 ^ 32 ≤ 512 * pteOff v + 512) :
    noOfPteT v n = (n + pteOff v - 512) % 2 ^ 32 / 512 ∧
      lastEntries v n = (n + pteOff v - 512) % 2 ^ 32 - 512 * pteOff v := by
  have hoff := pteOff_lt v
  obtain ⟨hle, hlt, k, hk⟩ := lnoOfPages_spec hn
  obtain ⟨hle', hlt', j, hj⟩ := int_spec (lnoOfPages v n - 512 * pteOff v)
  have heq : lnoOfPages v n = ((n + pteOff v - 512) % 2 ^ 32 : ℕ) := by omega
  constructor
  · rw [noOfPteT, heq, Int.tdiv_eq_ediv_of_nonneg (Int.natCast_nonneg _), toBound]
    omega
  · obtain rfl : j = 0 := by omega
    rw [lastEntries, toBound]
    omega

theorem counts_rest {n : ℕ} (hn : 512 < n + pteOff v)
    (hle : 512 * pteOff v ≤ (n + pteOff v - 512) % 2 ^ 32)
    (hlt : (n + pteOff v - 512) % 2 ^ 32 < 512 * pteOff v + 512) :
    noOfPteT v n = pteOff v ∧
      lastEntries v n = (n + pteOff v - 512) % 2 ^ 32 - 512 * pteOff v := by
  obtain ⟨htables, hlast⟩ := counts_eq hn hle (Nat.le_of_lt hlt)
  exact ⟨by omega, hlast⟩

theorem counts_full {n : ℕ} (hn : 512 < n + pteOff v)
    (heq : (n + pteOff v - 512) % 2 ^ 32 = 512 * pteOff v + 512) :
    noOfPteT v n = pteOff v + 1 ∧ lastEntries v n = 512 := by
  obtain ⟨htables, hlast⟩ := counts_eq hn (by omega) (by omega)
  exact ⟨by omega, by omega⟩

/-! ## Calls that do not run out of memory return -/

theorem allocTable_onlyError (s : Vm) (n off access : ℕ) :
    OnlyError .noMemory (s.allocTable n off access) := by
  refine .bind (.bind ?_ fun _ _ => .ok _ _) fun _ _ => .ok _ _
  unfold kmalloc
  split
  · exact .error _
  · rw [if_neg (by decide)]
    split_ifs
    · exact .error _
    · exact .ok _ _

theorem tablesFor_onlyError (s : Vm) (v pml4 access : ℕ) :
    OnlyError .noMemory (s.tablesFor v pml4 access) := by
  have halloc := allocTable_onlyError
  unfold tablesFor allocPdpe allocPde allocPte
  dsimp only
  split_ifs
  · exact .ok _ _
  · exact (halloc _ _ _ _).bind fun _ _ => .ok _ _
  · exact (halloc _ _ _ _).bind fun _ _ => (halloc _ _ _ _).bind fun _ _ => .ok _ _
  · exact (halloc _ _ _ _).bind fun _ _ => (halloc _ _ _ _).bind fun _ _ =>
      (halloc _ _ _ _).bind fun _ _ => .ok _ _

theorem fillTables_onlyError : ∀ (n : ℕ) (s : Vm) (off p : ℕ), off + n ≤ 2 ^ 31 →
    OnlyError .noMemory (Vm.fillTables access n s pde off p)
  | 0, _, _, _, _ => .ok _ _
  | n + 1, s, off, p, hle => by
    rw [fillTables_succ]
    rw [if_neg (by omega)]
    exact (allocTable_onlyError s pde off access).bind fun _ _ =>
      fillTables_onlyError n _ _ _ (by omega)

theorem initMap_onlyError {n : ℕ} (hn : n + pteOff v < 2 ^ 64)
    (hin : ∀ i ∈ storeIndices v n, i < 512) (s : Vm) (p pml4 access : ℕ) :
    OnlyError .noMemory (s.initMapVirtPhysAddr v p n pml4 access) := by
  rcases Nat.lt_or_ge 512 (n + pteOff v) with hover | hle
  · obtain ⟨htables, -⟩ := (forall_storeIndices.1 hin).resolve_left (Nat.not_le.2 hover)
    rw [initMap_beyond hover hn]
    refine (tablesFor_onlyError s v pml4 access).bind fun _ _ => ?_
    refine (fillTables_onlyError _ _ _ _ (by omega)).bind ?_
    rintro ⟨sa, last, q⟩ hf
    have hlast := (fillTables_log hf).2
    dsimp only at hlast ⊢
    rw [if_neg (by omega)]
    exact (allocTable_onlyError _ _ _ _).bind fun _ _ => .ok _ _
  · rw [initMap_within hle]
    exact (tablesFor_onlyError s v pml4 access).bind fun _ _ => .ok _ _

/-! ## When the two agree -/

/-- What is at a page after the address. -/
theorem bulkMap_add {p tables rest : ℕ} (hrest : rest ≤ 512) (d : ℕ) :
    bulkMap v p tables rest m (vpage v + d)
      = if d < fullPages v tables + rest then frame p d
        else if d < fullPages v tables + 512 then none else m (vpage v + d) := by
  unfold bulkMap
  by_cases hfirst : d < fullPages v tables
  · rw [Interval.put_of_notMem (by omega), Interval.put_of_notMem (by omega),
      Interval.put_of_mem (by omega) (by omega), if_pos (by omega), Nat.add_sub_cancel_left]
  · by_cases hlast : d < fullPages v tables + rest
    · rw [Interval.put_of_mem (by omega) (by omega), if_pos hlast, frame, frame]
      congr 2
      omega
    · rw [Interval.put_of_notMem (by omega), if_neg hlast]
      by_cases hnew : d < fullPages v tables + 512
      · rw [Interval.put_of_mem (by omega) (by omega), if_pos hnew]
      · rw [Interval.put_of_notMem (by omega), Interval.put_of_notMem (by omega), if_neg hnew]

/-- One call and the calls for each page, as maps. -/
theorem bulkMap_eq_iff {p n tables rest : ℕ} (hrest : rest ≤ 512) :
    (∀ w, bulkMap v p tables rest m (vpage w)
      = Interval.put (vpage v) n (frame p) m (vpage w)) ↔
    ∀ d, vpage v + d < 2 ^ 36 →
      (if d < fullPages v tables + rest then frame p d
        else if d < fullPages v tables + 512 then none else m (vpage v + d))
      = if d < n then frame p d else m (vpage v + d) := by
  have heach : ∀ d, Interval.put (vpage v) n (frame p) m (vpage v + d)
      = if d < n then frame p d else m (vpage v + d) := by
    intro d
    by_cases hd : d < n
    · rw [Interval.put_of_mem (by omega) (by omega), if_pos hd, Nat.add_sub_cancel_left]
    · rw [Interval.put_of_notMem (by omega), if_neg hd]
  constructor
  · intro h d hd
    have hw := h (4096 * (vpage v + d))
    rw [show vpage (4096 * (vpage v + d)) = vpage v + d by
      generalize vpage v + d = x at hd
      unfold vpage
      omega, bulkMap_add hrest, heach] at hw
    exact hw
  · intro h w
    by_cases hw : vpage v ≤ vpage w
    · have hlt : vpage w < 2 ^ 36 := Nat.mod_lt _ (by decide)
      obtain ⟨d, hd⟩ := Nat.exists_eq_add_of_le hw
      rw [hd, bulkMap_add hrest, heach, h d (by omega)]
    · rw [bulkMap, Interval.put_of_notMem (by omega), Interval.put_of_notMem (by omega),
        Interval.put_of_notMem (by omega), Interval.put_of_notMem (by omega)]

theorem pageOf_lt (v : ℕ) (hc : c < 512) (hi : i < 512) : pageOf v c i < 2 ^ 36 := by
  have hlt : vpage v < 2 ^ 36 := Nat.mod_lt _ (by decide)
  unfold pageOf
  omega

/-- The table after the full ones is as far as the call goes. -/
theorem fullPages_le (tables : ℕ) (h : pdeOff v + tables + 2 ≤ 512) :
    vpage v + fullPages v tables + 512 ≤ 2 ^ 36 := by
  have hlast := pageOf_lt v (by omega : pdeOff v + 1 + tables < 512) (by decide : 511 < 512)
  rw [← Nat.zero_add 511, pageOf_add, pageOf_next] at hlast
  omega

theorem vpage_add {d : ℕ} (h : vpage v + d < 2 ^ 36) : vpage (v + 4096 * d) = vpage v + d := by
  unfold vpage at h ⊢
  omega

theorem Translates.finds_add {d : ℕ} (h : s.Translates pml4 m) (hd : vpage v + d < 2 ^ 36) :
    translate s.mem pml4 (v + 4096 * d) = m (vpage v + d) := by
  rw [h.finds, vpage_add hd]

/-- The last table has the rest of the pages, and no page that was mapped before. -/
theorem Translates.agree_rest {n p : ℕ} (hs : s.Translates pml4 m) (hn : 512 < n + pteOff v)
    (hle : 512 * pteOff v ≤ (n + pteOff v - 512) % 2 ^ 32)
    (hlt : (n + pteOff v - 512) % 2 ^ 32 < 512 * pteOff v + 512)
    (hdir : pdeOff v + pteOff v + 2 ≤ 512) :
    (∀ w, bulkMap v p (pteOff v) ((n + pteOff v - 512) % 2 ^ 32 - 512 * pteOff v) m (vpage w)
      = Interval.put (vpage v) n (frame p) m (vpage w)) ↔
    (n + pteOff v - 512) / 512 = pteOff v ∧
      ∀ d, n ≤ d → d + pteOff v < 512 * (pteOff v + 2) →
        translate s.mem pml4 (v + 4096 * d) = none := by
  have hoff := pteOff_lt v
  have hspace := fullPages_le _ hdir
  have hfull : fullPages v (pteOff v) + pteOff v = 512 + 512 * pteOff v := by
    unfold fullPages
    omega
  rw [bulkMap_eq_iff (by omega)]
  constructor
  · intro h
    -- otherwise the first page behind the last one mapped is in the range
    have hsmall : n + pteOff v - 512 < 2 ^ 32 := by
      by_contra hbig
      have hd := h (fullPages v (pteOff v) + ((n + pteOff v - 512) % 2 ^ 32 - 512 * pteOff v))
        (by omega)
      rw [if_neg (by omega), if_pos (by omega), if_pos (by omega), frame] at hd
      cases hd
    refine ⟨by omega, fun d hd hd' => ?_⟩
    have hnone := h d (by omega)
    rw [if_neg (by omega), if_pos (by omega), if_neg (by omega)] at hnone
    rw [hs.finds_add (by omega), ← hnone]
  · rintro ⟨hk, h⟩ d hd₀
    rcases Nat.lt_or_ge d n with hd | hd
    · rw [if_pos (by omega), if_pos hd]
    · rw [if_neg (by omega), if_neg (by omega : ¬ d < n)]
      split_ifs with hlast
      · rw [← hs.finds_add hd₀, h d hd (by omega)]
      · rfl

/-- There is no rest, and the last table has 512 pages more, or all pages there are as far as the
`int` goes. -/
theorem Translates.agree_full {n p : ℕ} (hs : s.Translates pml4 m) (hn : 512 < n + pteOff v)
    (hspace : vpage v + n ≤ 2 ^ 36)
    (hk : (n + pteOff v - 512) % 2 ^ 32 = 512 * pteOff v + 512)
    (hdir : pdeOff v + pteOff v + 3 ≤ 512) :
    (∀ w, bulkMap v p (pteOff v + 1) 512 m (vpage w)
      = Interval.put (vpage v) n (frame p) m (vpage w)) ↔
    (n + pteOff v = 512 * (pteOff v + 2) ∧
      ∀ d, n ≤ d → d < n + 512 → translate s.mem pml4 (v + 4096 * d) = frame p d) ∨
    2 ^ 32 ≤ n + pteOff v - 512 ∧
      ∀ d < n, 512 * (pteOff v + 3) ≤ d + pteOff v →
        translate s.mem pml4 (v + 4096 * d) = frame p d := by
  have hoff := pteOff_lt v
  have hspace' := fullPages_le (pteOff v + 1) hdir
  have hfull : fullPages v (pteOff v + 1) + pteOff v = 512 + 512 * (pteOff v + 1) := by
    unfold fullPages
    omega
  rw [bulkMap_eq_iff (Nat.le_refl _)]
  constructor
  · intro h
    rcases Nat.lt_or_ge (n + pteOff v - 512) (2 ^ 32) with hsmall | hbig
    · refine Or.inl ⟨by omega, fun d hd hd' => ?_⟩
      have hmore := h d (by omega)
      rw [if_pos (by omega), if_neg (by omega)] at hmore
      rw [hs.finds_add (by omega), ← hmore]
    · refine Or.inr ⟨hbig, fun d hd hd' => ?_⟩
      have hrest := h d (by omega)
      rw [if_neg (by omega), if_neg (by omega), if_pos hd] at hrest
      rw [hs.finds_add (by omega), hrest]
  · rintro (⟨hlen, h⟩ | ⟨hbig, h⟩) d hd₀
    · rcases Nat.lt_or_ge d n with hd | hd
      · rw [if_pos (by omega), if_pos hd]
      · rw [if_neg (by omega : ¬ d < n)]
        split_ifs with hlast
        · rw [← hs.finds_add hd₀, h d hd (by omega)]
        · rfl
    · rcases Nat.lt_or_ge d (fullPages v (pteOff v + 1) + 512) with hd | hd
      · rw [if_pos hd, if_pos (by omega)]
      · rw [if_neg (by omega), if_neg (by omega)]
        split_ifs with hd'
        · rw [← hs.finds_add hd₀, h d hd' (by omega)]
        · rfl

/-! ## One call against the calls for each page -/

/-- The addresses of a range are in one half of those the processor has. -/
def InHalf (v n : ℕ) : Prop :=
  v + 4096 * n ≤ 2 ^ 47 ∨ 2 ^ 64 - 2 ^ 47 ≤ v ∧ v + 4096 * n ≤ 2 ^ 64

/-- The ranges that are mapped as they should be: those of one table, and those that reach
`pte_off + 2` tables of one directory.  Of the last table the pages behind the range must not be
mapped before.  With no page in the last table it is one table more that is mapped, which does no
harm if it was mapped that way before; and so for the pages a range has beyond the number an `int`
has. -/
def RangeFits (s : Vm) (v p n pml4 : ℕ) : Prop :=
  n + pteOff v ≤ 512 ∨
  ((n + pteOff v - 512) / 512 = pteOff v ∧ pdeOff v + pteOff v + 2 ≤ 512 ∧
    ∀ d, n ≤ d → d + pteOff v < 512 * (pteOff v + 2) →
      translate s.mem pml4 (v + 4096 * d) = none) ∨
  (n + pteOff v = 512 * (pteOff v + 2) ∧ pdeOff v + pteOff v + 3 ≤ 512 ∧
    ∀ d, n ≤ d → d < n + 512 → translate s.mem pml4 (v + 4096 * d) = frame p d) ∨
  (2 ^ 32 ≤ n + pteOff v - 512 ∧ (n + pteOff v - 512) % 2 ^ 32 = 512 * (pteOff v + 1) ∧
    pdeOff v + pteOff v + 3 ≤ 512 ∧
    ∀ d < n, 512 * (pteOff v + 3) ≤ d + pteOff v →
      translate s.mem pml4 (v + 4096 * d) = frame p d)

theorem InHalf.space {n : ℕ} (h : InHalf v n) : vpage v + n ≤ 2 ^ 36 ∧ n + pteOff v < 2 ^ 64 := by
  have hlt := pteOff_lt v
  unfold InHalf at h
  unfold vpage
  omega

theorem translates_self {lab : ℕ → Option (List ℕ)} (hw : s.Labels lab) (hroot : lab pml4 = some [])
    (hc : s.clobbered = []) : s.Translates pml4 fun x => translate s.mem pml4 (4096 * x) := by
  refine ⟨hc, ⟨lab, hw, hroot⟩, fun w => translate_congr ?_ pml4⟩
  unfold vpage
  omega

/-- Where one call does what it should. -/
theorem rangeFits_iff {n p : ℕ} (h : s.Translates pml4 m) (hhalf : InHalf v n)
    (hn : 512 < n + pteOff v) :
    s.RangeFits v p n pml4 ↔ (pdeOff v + noOfPteT v n + 2 ≤ 512 ∧ lastEntries v n ≤ 512) ∧
      ∀ w, bulkMap v p (noOfPteT v n) (lastEntries v n) m (vpage w)
        = Interval.put (vpage v) n (frame p) m (vpage w) := by
  obtain ⟨hspace, -⟩ := hhalf.space
  have hoff := pteOff_lt v
  constructor
  · rintro (hle | ⟨hk, hdir, hnone⟩ | ⟨hk, hdir, hmore⟩ | ⟨hbig, hk, hdir, hpast⟩)
    · exact absurd hn (Nat.not_lt.2 hle)
    · obtain ⟨htables, hlast⟩ := counts_rest hn (by omega) (by omega)
      rw [htables, hlast]
      exact ⟨⟨hdir, by omega⟩, (h.agree_rest hn (by omega) (by omega) hdir).2 ⟨hk, hnone⟩⟩
    · obtain ⟨htables, hlast⟩ := counts_full hn (by omega)
      rw [htables, hlast]
      exact ⟨⟨hdir, Nat.le_refl _⟩,
        (h.agree_full hn hspace (by omega) hdir).2 (Or.inl ⟨hk, hmore⟩)⟩
    · obtain ⟨htables, hlast⟩ := counts_full hn (by omega)
      rw [htables, hlast]
      exact ⟨⟨hdir, Nat.le_refl _⟩,
        (h.agree_full hn hspace (by omega) hdir).2 (Or.inr ⟨hbig, hpast⟩)⟩
  · rintro ⟨⟨hdir, hrest⟩, hagree⟩
    obtain ⟨hle, hle'⟩ := lastEntries_le hn hrest
    rcases Nat.lt_or_eq_of_le hle' with hlt | heq
    · obtain ⟨htables, hlast⟩ := counts_rest hn hle hlt
      rw [htables] at hdir
      rw [htables, hlast] at hagree
      obtain ⟨hk, hnone⟩ := (h.agree_rest hn hle hlt hdir).1 hagree
      exact Or.inr (Or.inl ⟨hk, hdir, hnone⟩)
    · obtain ⟨htables, hlast⟩ := counts_full hn heq
      rw [htables] at hdir
      rw [htables, hlast] at hagree
      rcases (h.agree_full hn hspace heq hdir).1 hagree with ⟨hk, hmore⟩ | ⟨hbig, hpast⟩
      · exact Or.inr (Or.inr (Or.inl ⟨hk, hdir, hmore⟩))
      · exact Or.inr (Or.inr (Or.inr ⟨hbig, heq, hdir, hpast⟩))

/-- With enough memory, one call for a range returns, writes no table past its end and leaves the
translations of one call for each page, if and only if the range fits. -/
theorem map_range_iff {lab : ℕ → Option (List ℕ)} {n p : ℕ} (hw : s.Labels lab)
    (hroot : lab pml4 = some []) (hc : s.clobbered = []) (hp : p < 2 ^ 64) (hhalf : InHalf v n)
    (heach : mapEach access pml4 n s v p = .ok s₁)
    (hmem : s.initMapVirtPhysAddr v p n pml4 access ≠ .error .noMemory) :
    (∃ s' log, s.initMapVirtPhysAddr v p n pml4 access = .ok s' ∧
      s.initMapLog v p n pml4 access = .ok (s', log) ∧ (∀ i ∈ log, i < 512) ∧
      ∀ w, translate s'.mem pml4 w = translate s₁.mem pml4 w) ↔ s.RangeFits v p n pml4 := by
  have hself := translates_self hw hroot hc
  obtain ⟨hspace, hn⟩ := hhalf.space
  have heach' := hself.mapEach hspace hp heach
  rcases Nat.lt_or_ge 512 (n + pteOff v) with hover | hle
  · rw [rangeFits_iff hself hhalf hover]
    constructor
    · rintro ⟨s', log, hok, hlog, hin, hsame⟩
      obtain rfl : storeIndices v n = log := by
        rw [initMap_log hn hok] at hlog
        exact (Prod.mk.inj (Except.ok.inj hlog)).2
      have hbounds := (forall_storeIndices.1 hin).resolve_left (Nat.not_le.2 hover)
      have hbulk := hself.initMap_beyond hover hn hp hbounds.1 hbounds.2 hok
      exact ⟨hbounds, fun w => by rw [← hbulk.finds, ← heach'.finds, hsame]⟩
    · rintro ⟨hbounds, hsame⟩
      have hin := forall_storeIndices.2 (Or.inr hbounds)
      obtain ⟨s', hok⟩ := (initMap_onlyError hn hin s p pml4 access).exists_ok hmem
      have hbulk := hself.initMap_beyond hover hn hp hbounds.1 hbounds.2 hok
      exact ⟨s', _, hok, initMap_log hn hok, hin, fun w => by
        rw [hbulk.finds, heach'.finds, hsame]⟩
  · refine ⟨fun _ => Or.inl hle, fun _ => ?_⟩
    have hin := forall_storeIndices.2 (Or.inl hle)
    obtain ⟨s', hok⟩ := (initMap_onlyError hn hin s p pml4 access).exists_ok hmem
    exact ⟨s', _, hok, initMap_log hn hok, hin, fun w => by
      rw [(hself.initMap_within hle hp hok).finds, heach'.finds]⟩

/-! ## Two ranges of an empty PML4 -/

theorem Fresh.mapEach : ∀ {n : ℕ} {s : Vm} {m : ℕ → Option ℕ} (v p : ℕ), s.Fresh →
    s.Translates pml4 m → 3 * n ≤ s.supply.length →
    ∃ s₁, Vm.mapEach access pml4 n s v p = .ok s₁
  | 0, s, _, _, _, _, _, _ => ⟨s, rfl⟩
  | n + 1, s, m, v, p, hf, h, hlen => by
    obtain ⟨lab, hw, hroot⟩ := h.tree
    obtain ⟨s', hs', htakes⟩ := hf.initMap (by omega) hw hroot v p access
    have hle := htakes.length_le
    obtain ⟨s₁, hs₁⟩ := Fresh.mapEach (n := n) ((v + 4096) % 2 ^ 64) ((p + 4096) % 2 ^ 64)
      (htakes.fresh hf) (h.initMap_one hs') (by omega)
    exact ⟨s₁, bind_eq_ok.2 ⟨s', hs', hs₁⟩⟩

theorem fill_takes (entry : ℕ → ℕ) (pte : ℕ) : ∀ (n : ℕ) (s : Vm) (i p : ℕ), i + n ≤ 512 →
    Takes 0 s (fill entry n s pte i p).1
  | 0, s, _, _, _ => .refl s
  | n + 1, s, i, p, hle => by
    have hrest := fill_takes entry pte n (s.write pte i (entry p)) (i + 1) ((p + 4096) % 2 ^ 64)
      (by omega)
    rw [write_of_lt (by omega)] at hrest
    rw [fill, write_of_lt (by omega)]
    exact hrest

theorem Fresh.fillTables : ∀ {n : ℕ} {s : Vm} {off p : ℕ}, s.Fresh → off + n ≤ 512 →
    n ≤ s.supply.length → ∃ r, Vm.fillTables access n s pde off p = .ok r ∧ Takes n s r.1
  | 0, s, off, p, _, _, _ => ⟨(s, off, p), rfl, .refl s⟩
  | n + 1, s, off, p, hf, hle, hlen => by
    obtain ⟨s', pte, ha, htakes⟩ :=
      hf.allocTable (List.length_pos_iff.1 (by omega)) pde access (by omega : off < 512)
    have hfill := htakes.trans (fill_takes (· ||| rwFlags access) pte 512 s' 0 p (by decide))
    have hlen' := hfill.length_le
    obtain ⟨r, hr, hrest⟩ := Fresh.fillTables (hfill.fresh hf) (by omega : off + 1 + n ≤ 512)
      (by omega)
    refine ⟨r, ?_, by rw [Nat.add_comm n]; exact hfill.trans hrest⟩
    rw [fillTables_succ, if_neg (by omega)]
    exact bind_eq_ok.2 ⟨_, ha, hr⟩

theorem Fresh.initMap_beyond {n : ℕ} (hf : s.Fresh) (h : s.Translates pml4 m)
    (hn : 512 < n + pteOff v) (hn' : n + pteOff v < 2 ^ 64)
    (htables : pdeOff v + noOfPteT v n + 2 ≤ 512) (hlen : 4 + noOfPteT v n ≤ s.supply.length)
    (p access : ℕ) : ∃ s₁, s.initMapVirtPhysAddr v p n pml4 access = .ok s₁ := by
  obtain ⟨lab, hw, hroot⟩ := h.tree
  obtain ⟨s', pde, pte, ht, htakes⟩ := hf.tablesFor (by omega) hw hroot v access
  have hlt := pteOff_lt v
  have hfill := htakes.trans
    (fill_takes (· ||| rwFlags access) pte (512 - pteOff v) s' (pteOff v) p (by omega))
  have hle := hfill.length_le
  obtain ⟨⟨sa, last, q⟩, hf', htakes'⟩ := (hfill.fresh hf).fillTables
    (by omega : pdeOff v + 1 + noOfPteT v n ≤ 512) (by omega)
  have hle' := htakes'.length_le
  obtain ⟨-, hlast⟩ := fillTables_log hf'
  dsimp only at hle' hlast
  obtain ⟨sb, pte', ha, -⟩ := (htakes'.fresh (hfill.fresh hf)).allocTable
    (List.length_pos_iff.1 (by dsimp only; omega)) pde access (by omega : last < 512)
  refine ⟨(fill (· ||| rwFlags access) (lastEntries v n) sb pte' 0 q).1, ?_⟩
  rw [Vm.initMap_beyond hn hn']
  refine bind_eq_ok.2 ⟨_, ht, bind_eq_ok.2 ⟨_, hf', ?_⟩⟩
  dsimp only
  rw [if_neg (by omega)]
  exact bind_eq_ok.2 ⟨_, ha, rfl⟩

def emptyVm : Vm := ⟨fun _ _ => 0, List.range' 1 4000, [0], []⟩

theorem emptyVm_fresh : emptyVm.Fresh :=
  fresh_empty (List.nodup_cons.2 ⟨by simp, List.nodup_range'⟩)

theorem emptyVm_wf : emptyVm.Labels fun n => if n = 0 then some [] else none :=
  wf_empty _ (fun _ => rfl) _

theorem emptyVm_translates : emptyVm.Translates 0 fun _ => none :=
  ⟨rfl, ⟨_, emptyVm_wf, if_pos rfl⟩, fun w => by rw [translate, walk_empty fun _ => rfl]; rfl⟩

/-- A table and one page. -/
theorem map_range_513 :
    ∃ s' log s₁, emptyVm.initMapVirtPhysAddr 0 0 513 0 0 = .ok s' ∧
      emptyVm.initMapLog 0 0 513 0 0 = .ok (s', log) ∧ (∀ i ∈ log, i < 512) ∧
      mapEach 0 0 513 emptyVm 0 0 = .ok s₁ ∧
      ∀ w, translate s'.mem 0 w = translate s₁.mem 0 w := by
  obtain ⟨s₁, heach⟩ := emptyVm_fresh.mapEach (n := 513) 0 0 emptyVm_translates (by simp [emptyVm])
  obtain ⟨s', hok⟩ := emptyVm_fresh.initMap_beyond (n := 513) (v := 0) emptyVm_translates
    (by decide) (by decide) (by decide)
    (by rw [show noOfPteT 0 513 = 0 by decide]; simp [emptyVm]) 0 0
  have hfits : emptyVm.RangeFits 0 0 513 0 := Or.inr (Or.inl ⟨by decide, by decide, fun d _ _ => by
    rw [emptyVm_translates.finds]⟩)
  obtain ⟨s'', log, hok', hlog, hin, hsame⟩ := (map_range_iff emptyVm_wf (if_pos rfl) rfl
    (by decide) (Or.inl (by decide)) heach (by rw [hok]; simp)).2 hfits
  exact ⟨s'', log, s₁, hok', hlog, hin, heach, hsame⟩

/-- Two tables: 512 pages more are mapped. -/
theorem map_range_1024 :
    ∃ s' s₁, emptyVm.initMapVirtPhysAddr 0 0 1024 0 0 = .ok s' ∧
      mapEach 0 0 1024 emptyVm 0 0 = .ok s₁ ∧
      translate s'.mem 0 0x400000 = some 1024 ∧ translate s₁.mem 0 0x400000 = none := by
  obtain ⟨s₁, heach⟩ := emptyVm_fresh.mapEach (n := 1024) 0 0 emptyVm_translates
    (by simp [emptyVm])
  have hN : noOfPteT 0 1024 = 1 := by decide
  have hM : lastEntries 0 1024 = 512 := by decide
  obtain ⟨s', hok⟩ := emptyVm_fresh.initMap_beyond (n := 1024) (v := 0) emptyVm_translates
    (by decide) (by decide) (by decide) (by rw [hN]; simp [emptyVm]) 0 0
  have hbulk := emptyVm_translates.initMap_beyond (by decide) (by decide) (by decide) (by decide)
    (by decide) hok
  have hsingle := emptyVm_translates.mapEach (by decide) (by decide) heach
  refine ⟨s', s₁, hok, heach, ?_, ?_⟩
  · rw [hbulk.finds, hN, hM]
    decide
  · rw [hsingle.finds]
    decide

end Vm

end Bgox
