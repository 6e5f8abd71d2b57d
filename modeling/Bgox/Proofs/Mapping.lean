import Bgox.Proofs.Tables

/-!
# What `init_map_virt_phys_addr` maps

The three branches that look for the tables of an address are three steps down, each to the table
an entry leads to or to a new one (`tablesFor_eq`).  Mapping one page is then one entry of the last
level: it is what the walk of its address finds, and no other walk changes (`initMap_one`).

Mapped by whole tables or not, the tables grow (`initMap_grows`).
-/

namespace Bgox

open Run (Reach bind_eq_ok)

namespace Vm

variable {g : ℕ → Prop} {s s₁ : Vm} {lab : ℕ → Option (List ℕ)} {l : List ℕ}
  {n t off access v pml4 pde pte : ℕ}

/-- The table an entry leads to, or a new one. -/
def nextTable (s : Vm) (n off access : ℕ) : Except Trap (Vm × ℕ) :=
  if isPresentPage (s.mem n off) then .ok (s, entryPage (s.mem n off))
  else s.allocTable n off access

theorem nextTable_of_zero (h : s.mem n off = 0) :
    s.nextTable n off access = s.allocTable n off access := by
  simp [nextTable, h, isPresentPage]

theorem clobbered_of_nextTable (h : s.nextTable n off access = .ok (s₁, t))
    (hc : s₁.clobbered = []) : s.clobbered = [] := by
  unfold nextTable at h
  split_ifs at h
  · obtain ⟨rfl, rfl⟩ := Prod.mk.inj (Except.ok.inj h)
    exact hc
  · exact clobbered_of_allocTable h hc

theorem nextTable_grows (hg : ∀ t, g (t * 4096 ||| rwFlags access)) (hw : s.Wf g lab)
    (hn : lab n = some l) (hl : l.length < 3) (hoff : off < 512)
    (h : s.nextTable n off access = .ok (s₁, t)) (hc : s₁.clobbered = []) :
    ∃ lab₁, Grows g 3 s lab s₁ lab₁ ∧ (∀ ks, Frame ks s lab s₁) ∧ lab₁ t = some (l ++ [off]) ∧
      entryChild (s₁.mem n off) = some t := by
  unfold nextTable at h
  split_ifs at h with hp
  · obtain ⟨rfl, rfl⟩ := Prod.mk.inj (Except.ok.inj h)
    have he := entryChild_eq_some hp
    exact ⟨lab, .refl hw, fun ks => .refl ks, hw.tree n l off _ hn (by omega) he, he⟩
  · have habs := entryChild_eq_none hp
    obtain ⟨lab₁, hgrow, hlab⟩ := allocTable_grows (k := 3) hg hw hn (fun _ => Or.inl habs) h hc
    refine ⟨lab₁, hgrow, allocTable_frame hw hn hl hoff habs h, hlab, ?_⟩
    rw [allocTable_entry hoff h, entryChild_table]

/-- A new table is empty. -/
theorem allocTable_zero (hn : n ∈ s.tables) (hoff : off < 512)
    (h : s.allocTable n off access = .ok (s₁, t)) (i : ℕ) : s₁.mem t i = 0 := by
  obtain ⟨ht, rest, -, rfl⟩ := allocTable_ok hoff h
  have htn : t ≠ n := by
    rintro rfl
    exact ht hn
  simp only [Radix.set_of_ne _ (Or.inl htn)]
  simp [Radix.clear]

theorem mem_tables_of_allocTable (hoff : off < 512)
    (h : s.allocTable n off access = .ok (s₁, t)) : t ∈ s₁.tables := by
  obtain ⟨-, rest, -, rfl⟩ := allocTable_ok hoff h
  exact List.mem_cons_self

/-- After an absent entry the code does not look at the empty tables it makes, but it could. -/
theorem tablesFor_eq (hw : s.Wf g lab) (hroot : lab pml4 = some []) :
    s.tablesFor v pml4 access = do
      let (s, pdpe) ← s.nextTable pml4 (pml4Off v) access
      let (s, pde) ← s.nextTable pdpe (pdpeOff v) access
      let (s, pte) ← s.nextTable pde (pdeOff v) access
      return (s, pde, pte) := by
  -- below a new table: one step down makes a table, from an entry that is zero
  have hbelow : ∀ {s s₁ : Vm} {n off t : ℕ}, n ∈ s.tables → off < 512 →
      s.allocTable n off access = .ok (s₁, t) → ∀ i,
      s₁.nextTable t i access = s₁.allocTable t i access :=
    fun hn hoff h i => nextTable_of_zero (allocTable_zero hn hoff h i)
  have hmem : ∀ {n l}, lab n = some l → n ∈ s.tables := fun hn => (hw.tables _).2 ⟨_, hn⟩
  unfold tablesFor allocPdpe allocPde allocPte
  dsimp only
  by_cases h4 : isPresentPage (s.mem pml4 (pml4Off v)) = true
  · have hpdpe := hw.tree _ _ _ _ hroot (by simp) (entryChild_eq_some h4)
    rw [if_pos h4, nextTable, if_pos h4]
    by_cases h3 : isPresentPage (s.mem (entryPage (s.mem pml4 (pml4Off v))) (pdpeOff v)) = true
    · rw [if_pos h3]
      simp only [bind, Except.bind, nextTable, h3, if_true]
      split_ifs <;> rfl
    · rw [if_neg h3]
      simp only [bind, Except.bind]
      rw [nextTable, if_neg h3]
      rcases ha : s.allocTable (entryPage (s.mem pml4 (pml4Off v))) (pdpeOff v) access with
        e | ⟨s', pde⟩
      · rfl
      · simp only [hbelow (hmem hpdpe) (pdpeOff_lt v) ha]
  · rw [if_neg h4, nextTable, if_neg h4]
    rcases ha : s.allocTable pml4 (pml4Off v) access with e | ⟨s', pdpe⟩
    · rfl
    · have hpdpe := mem_tables_of_allocTable (pml4Off_lt v) ha
      simp only [bind, Except.bind, hbelow (hmem hroot) (pml4Off_lt v) ha]
      rcases hb : s'.allocTable pdpe (pdpeOff v) access with e | ⟨s'', pde⟩
      · rfl
      · simp only [hbelow hpdpe (pdpeOff_lt v) hb]

theorem tablesFor_ok (hw : s.Wf g lab) (hroot : lab pml4 = some [])
    (h : s.tablesFor v pml4 access = .ok (s₁, pde, pte)) :
    ∃ sa sb pdpe, s.nextTable pml4 (pml4Off v) access = .ok (sa, pdpe) ∧
      sa.nextTable pdpe (pdpeOff v) access = .ok (sb, pde) ∧
      sb.nextTable pde (pdeOff v) access = .ok (s₁, pte) := by
  rw [tablesFor_eq hw hroot] at h
  obtain ⟨⟨sa, pdpe⟩, h4, h⟩ := bind_eq_ok.1 h
  obtain ⟨⟨sb, pde'⟩, h3, h⟩ := bind_eq_ok.1 h
  obtain ⟨⟨sc, pte'⟩, h2, h⟩ := bind_eq_ok.1 h
  obtain ⟨rfl, hpair⟩ := Prod.mk.inj (Except.ok.inj h)
  obtain ⟨rfl, rfl⟩ := Prod.mk.inj hpair
  exact ⟨sa, sb, pdpe, h4, h3, h2⟩

/-- A new table, in an entry of the table above. -/
def TableStep (access : ℕ) (s : Vm) (entry : ℕ × ℕ) (s' : Vm) : Prop :=
  ∃ t, s.allocTable entry.1 entry.2 access = .ok (s', t)

/-- Whatever branch is taken, all that `tablesFor` does is to make tables. -/
theorem tablesFor_reach (h : s.tablesFor v pml4 access = .ok (s₁, pde, pte)) :
    Reach (TableStep access) s s₁ := by
  unfold tablesFor allocPdpe allocPde allocPte at h
  dsimp only at h
  split_ifs at h
  · obtain ⟨rfl, -⟩ := Prod.mk.inj (Except.ok.inj h)
    exact .start
  · obtain ⟨⟨sa, pte'⟩, h2, h⟩ := bind_eq_ok.1 h
    obtain ⟨rfl, -⟩ := Prod.mk.inj (Except.ok.inj h)
    exact .step (a := (_, _)) .start ⟨_, h2⟩
  · obtain ⟨⟨sa, pde'⟩, h3, h⟩ := bind_eq_ok.1 h
    obtain ⟨⟨sb, pte'⟩, h2, h⟩ := bind_eq_ok.1 h
    obtain ⟨rfl, -⟩ := Prod.mk.inj (Except.ok.inj h)
    exact .step (a := (_, _)) (.step (a := (_, _)) .start ⟨_, h3⟩) ⟨_, h2⟩
  · obtain ⟨⟨sa, pdpe'⟩, h4, h⟩ := bind_eq_ok.1 h
    obtain ⟨⟨sb, pde'⟩, h3, h⟩ := bind_eq_ok.1 h
    obtain ⟨⟨sc, pte'⟩, h2, h⟩ := bind_eq_ok.1 h
    obtain ⟨rfl, -⟩ := Prod.mk.inj (Except.ok.inj h)
    exact .step (a := (_, _))
      (.step (a := (_, _)) (.step (a := (_, _)) .start ⟨_, h4⟩) ⟨_, h3⟩) ⟨_, h2⟩

theorem tablesFor_clobbered (h : s.tablesFor v pml4 access = .ok (s₁, pde, pte)) :
    s.clobbered ⊆ s₁.clobbered := by
  refine (tablesFor_reach h).invariant (P := fun s' => s.clobbered ⊆ s'.clobbered)
    (List.Subset.refl _) ?_
  rintro s' entry s'' ih ⟨t, ha⟩
  exact List.Subset.trans ih (allocTable_clobbered ha)

/-- The tables an address has after `tablesFor`. -/
theorem tablesFor_grows (hg : ∀ t, g (t * 4096 ||| rwFlags access)) (hw : s.Wf g lab)
    (hroot : lab pml4 = some []) (h : s.tablesFor v pml4 access = .ok (s₁, pde, pte))
    (hc : s₁.clobbered = []) :
    ∃ lab₁ pdpe, Grows g 3 s lab s₁ lab₁ ∧ (∀ ks, Frame ks s lab s₁) ∧
      lab₁ pdpe = some [pml4Off v] ∧ lab₁ pde = some [pml4Off v, pdpeOff v] ∧
      lab₁ pte = some [pml4Off v, pdpeOff v, pdeOff v] ∧
      entryChild (s₁.mem pml4 (pml4Off v)) = some pdpe ∧
      entryChild (s₁.mem pdpe (pdpeOff v)) = some pde ∧
      entryChild (s₁.mem pde (pdeOff v)) = some pte := by
  obtain ⟨sa, sb, pdpe, h4, h3, h2⟩ := tablesFor_ok hw hroot h
  have hcb := clobbered_of_nextTable h2 hc
  have hca := clobbered_of_nextTable h3 hcb
  obtain ⟨laba, hga, hfa, hla, hea⟩ :=
    nextTable_grows hg hw hroot (by simp) (pml4Off_lt v) h4 hca
  obtain ⟨labb, hgb, hfb, hlb, heb⟩ :=
    nextTable_grows hg hga.wf hla (by simp) (pdpeOff_lt v) h3 hcb
  obtain ⟨labc, hgc, hfc, hlc, hec⟩ :=
    nextTable_grows hg hgb.wf hlb (by simp) (pdeOff_lt v) h2 hc
  have hab := hga.trans hgb
  refine ⟨labc, pdpe, hab.trans hgc, fun ks => ?_, hgc.ext.mono _ _ (hgb.ext.mono _ _ hla),
    hgc.ext.mono _ _ hlb, hlc, ?_, ?_, hec⟩
  · exact ((hfa ks).trans hga.ext.mono (hfb ks)).trans hab.ext.mono (hfc ks)
  · rw [(hgb.trans hgc).ext.keep _ _ _ _ (hga.ext.mono _ _ hroot) (by simp) (by simp) hea, hea]
  · rw [hgc.ext.keep _ _ _ _ (hgb.ext.mono _ _ hla) (by simp) (by simp) heb, heb]

/-- All the tables for an address are there. -/
def Prepared (mem : ℕ → ℕ → ℕ) (pml4 v : ℕ) : Prop :=
  ∃ pdpe pde pte, entryChild (mem pml4 (pml4Off v)) = some pdpe ∧
    entryChild (mem pdpe (pdpeOff v)) = some pde ∧ entryChild (mem pde (pdeOff v)) = some pte

theorem Prepared.ext (h : Prepared s.mem pml4 v) (hw : s.Wf g lab) (hroot : lab pml4 = some [])
    {lab₁ : ℕ → Option (List ℕ)} (hg : Radix.Ext entryChild 4 2 s.mem lab s₁.mem lab₁) :
    Prepared s₁.mem pml4 v := by
  obtain ⟨pdpe, pde, pte, h4, h3, h2⟩ := h
  have hpdpe := hw.tree _ _ _ _ hroot (by simp) h4
  have hpde := hw.tree _ _ _ _ hpdpe (by simp) h3
  obtain ⟨pte', h2'⟩ := hg.stay _ _ _ _ hpde (by simp) h2
  refine ⟨pdpe, pde, pte', ?_, ?_, h2'⟩
  · rw [hg.keep _ _ _ _ hroot (by simp) (by simp) h4, h4]
  · rw [hg.keep _ _ _ _ hpdpe (by simp) (by simp) h3, h3]

theorem Prepared.congr {mem : ℕ → ℕ → ℕ} {pml4' : ℕ} (h : Prepared mem pml4 v)
    (hsame : mem pml4' (pml4Off v) = mem pml4 (pml4Off v)) : Prepared mem pml4' v := by
  unfold Prepared
  rw [hsame]
  exact h

/-! ## One page -/

theorem entryChild_leafEntry (access p : ℕ) :
    entryChild (leafEntry access p) = some (entryPage p) := by
  unfold leafEntry
  split_ifs
  · rw [Nat.shiftLeft_eq]
    exact entryChild_page_or _ (by decide) rfl
  · have hpresent : isPresentPage (p ||| 3) = true := by
      rw [isPresentPage, Nat.and_or_distrib_right]
      simp [Nat.or_eq_zero_iff]
    rw [entryChild_eq_some hpresent, entryPage, Nat.shiftRight_or_distrib]
    simp [entryPage]

theorem initMap_one_eq {p : ℕ} :
    s.initMapVirtPhysAddr v p 1 pml4 access = do
      let (s, _, pte) ← s.tablesFor v pml4 access
      return s.write pte (pteOff v) (leafEntry access p) := by
  have hlt := pteOff_lt v
  have hle : (1 + pteOff v) % 2 ^ 64 = 1 + pteOff v := Nat.mod_eq_of_lt (by omega)
  rw [initMap_eq]
  simp only [hle, if_pos (show 1 + pteOff v ≤ 512 by omega), Nat.add_sub_cancel]
  rfl

theorem initMap_one_ok {p : ℕ} (h : s.initMapVirtPhysAddr v p 1 pml4 access = .ok s₁) :
    ∃ s' pde pte, s.tablesFor v pml4 access = .ok (s', pde, pte) ∧
      s₁ = { s' with mem := Radix.set s'.mem pte (pteOff v) (leafEntry access p) } := by
  rw [initMap_one_eq] at h
  obtain ⟨⟨s', pde, pte⟩, ht, h⟩ := bind_eq_ok.1 h
  refine ⟨s', pde, pte, ht, ?_⟩
  rw [← write_of_lt (pteOff_lt v)]
  exact (Except.ok.inj h).symm

theorem isPresentPage_of_entryChild {e c : ℕ} (h : entryChild e = some c) :
    isPresentPage e = true ∧ entryPage e = c := by
  unfold entryChild at h
  split_ifs at h with hp
  exact ⟨hp, Option.some.inj h⟩

/-- Where the tables are there, no memory is needed. -/
theorem initMap_prepared (h : Prepared s.mem pml4 v) (p access : ℕ) :
    ∃ s₁, s.initMapVirtPhysAddr v p 1 pml4 access = .ok s₁ ∧ s₁.clobbered = s.clobbered := by
  obtain ⟨pdpe, pde, pte, h4, h3, h2⟩ := h
  obtain ⟨hp4, he4⟩ := isPresentPage_of_entryChild h4
  obtain ⟨hp3, he3⟩ := isPresentPage_of_entryChild h3
  obtain ⟨hp2, he2⟩ := isPresentPage_of_entryChild h2
  refine ⟨s.write pte (pteOff v) (leafEntry access p), ?_, by rw [write_of_lt (pteOff_lt v)]⟩
  rw [initMap_one_eq, tablesFor]
  simp only [hp4, he4, hp3, he3, hp2, he2, if_true]
  rfl

/-- The first page below an entry of a PML4: three tables are taken for it. -/
theorem initMap_new {t p : ℕ} (ht : t ∈ s.tables)
    (habsent : ¬ isPresentPage (s.mem t (pml4Off v)) = true)
    (h : s.initMapVirtPhysAddr v p 1 t access = .ok s₁) :
    ∃ c d e, s.supply = c :: d :: e :: s₁.supply ∧ s₁.tables = e :: d :: c :: s.tables ∧
      s₁.mem t (pml4Off v) = c * 4096 ||| rwFlags access ∧
      s₁.mem c (pdpeOff v) = d * 4096 ||| rwFlags access ∧
      s₁.mem d (pdeOff v) = e * 4096 ||| rwFlags access ∧
      ∀ i, i ≠ pml4Off v → s₁.mem t i = s.mem t i := by
  obtain ⟨s', pde, pte, htables, rfl⟩ := initMap_one_ok h
  simp only [tablesFor, if_neg habsent] at htables
  obtain ⟨⟨sa, c⟩, ha, htables⟩ := bind_eq_ok.1 htables
  obtain ⟨⟨sb, d⟩, hb, htables⟩ := bind_eq_ok.1 htables
  obtain ⟨⟨sc, e⟩, hc, htables⟩ := bind_eq_ok.1 htables
  obtain ⟨rfl, hpair⟩ := Prod.mk.inj (Except.ok.inj htables)
  obtain ⟨rfl, rfl⟩ := Prod.mk.inj hpair
  obtain ⟨hcnew, resta, hsupa, rfl⟩ := allocTable_ok (pml4Off_lt v) ha
  obtain ⟨hdnew, restb, hsupb, rfl⟩ := allocTable_ok (pdpeOff_lt v) hb
  obtain ⟨henew, restc, hsupc, rfl⟩ := allocTable_ok (pdeOff_lt v) hc
  simp only [List.mem_cons, not_or] at hdnew henew
  have htc : t ≠ c := fun he => hcnew (he ▸ ht)
  have htd : t ≠ d := fun he => hdnew.2 (he ▸ ht)
  have hte : t ≠ e := fun he => henew.2.2 (he ▸ ht)
  -- only the last three tables are written after the entry for the first
  refine ⟨c, d, e, ?_, rfl, ?_, ?_, ?_, fun i hi => ?_⟩
  · rw [hsupa]
    exact congrArg _ (hsupb.trans (congrArg _ hsupc))
  · simp only [Radix.set_of_ne _ (Or.inl hte), Radix.set_of_ne _ (Or.inl htd),
      Radix.set_of_ne _ (Or.inl htc), Radix.clear_of_ne hte, Radix.clear_of_ne htd]
    exact Radix.set_same _ _ _
  · simp only [Radix.set_of_ne _ (Or.inl (Ne.symm henew.2.1)),
      Radix.set_of_ne _ (Or.inl (Ne.symm hdnew.1)), Radix.clear_of_ne (Ne.symm henew.2.1)]
    exact Radix.set_same _ _ _
  · simp only [Radix.set_of_ne _ (Or.inl (Ne.symm henew.1))]
    exact Radix.set_same _ _ _
  · simp only [Radix.set_of_ne _ (Or.inl hte), Radix.set_of_ne _ (Or.inl htd),
      Radix.set_of_ne _ (Or.inl htc), Radix.set_of_ne _ (Or.inr hi), Radix.clear_of_ne hte,
      Radix.clear_of_ne htd, Radix.clear_of_ne htc]

/-- Mapping one page: the walk of its address finds it, no other walk changes. -/
theorem initMap_one {p : ℕ} (hg : ∀ t, g (t * 4096 ||| rwFlags access)) (hw : s.Wf g lab)
    (hroot : lab pml4 = some []) (h : s.initMapVirtPhysAddr v p 1 pml4 access = .ok s₁)
    (hc : s₁.clobbered = []) :
    ∃ lab₁, Grows g 3 s lab s₁ lab₁ ∧ Frame (offsets v) s lab s₁ ∧
      ∃ e₄ e₃ e₂, walk s₁.mem pml4 v = some [e₄, e₃, e₂, leafEntry access p] ∧
        g e₄ ∧ g e₃ ∧ g e₂ ∧ s₁.mem pml4 (pml4Off v) = e₄ := by
  obtain ⟨s', pde, pte, ht, rfl⟩ := initMap_one_ok h
  obtain ⟨lab₁, pdpe, hgrow, hframe, hl3, hl2, hl1, he4, he3, he2⟩ :=
    tablesFor_grows hg hw hroot ht hc
  have hleaf := hgrow.wf.tree.leaf (k := 3) hl1 rfl (pteOff v) (leafEntry access p)
  have hc' : (s'.write pte (pteOff v) (leafEntry access p)).clobbered = [] := by
    rw [write_of_lt (pteOff_lt v)]
    exact hc
  have hwrite := write_leaf (k := 3) hgrow.wf hl1 rfl hc'
  rw [write_of_lt (pteOff_lt v)] at hwrite
  have hroot₁ := hgrow.ext.mono _ _ hroot
  -- the entries on the way are those of the levels above, which the last one leaves alone
  have hk4 := hwrite.ext.keep _ _ _ _ hroot₁ (by simp) (by simp) he4
  have hk3 := hwrite.ext.keep _ _ _ _ hl3 (by simp) (by simp) he3
  have hk2 := hwrite.ext.keep _ _ _ _ hl2 (by simp) (by simp) he2
  refine ⟨lab₁, hgrow.trans hwrite, ((hframe _).trans hgrow.ext.mono hleaf.2),
    s'.mem pml4 (pml4Off v), s'.mem pdpe (pdpeOff v), s'.mem pde (pdeOff v), ?_,
    hgrow.wf.marks _ _ _ _ hroot₁ (by simp) he4, hgrow.wf.marks _ _ _ _ hl3 (by simp) he3,
    hgrow.wf.marks _ _ _ _ hl2 (by simp) he2, hk4⟩
  have hlast : Radix.set s'.mem pte (pteOff v) (leafEntry access p) pte (pteOff v)
      = leafEntry access p := Radix.set_same _ _ _
  simp only at hk4 hk3 hk2
  simp only [walk, offsets]
  rw [Radix.trail_cons_some (by rw [hk4, he4]),
    Radix.trail_cons_some (by rw [hk3, he3]), Radix.trail_cons_some (by rw [hk2, he2]),
    Radix.trail_cons_some (by rw [hlast, entryChild_leafEntry]), hk4, hk3, hk2, hlast]
  rfl

/-! ## Many pages -/

theorem fillTables_succ_ok {n pde off phys : ℕ} {r : Vm × ℕ × ℕ}
    (h : fillTables access (n + 1) s pde off phys = .ok r) : off < 2 ^ 31 ∧ ∃ s' pte,
      s.allocTable pde off access = .ok (s', pte) ∧
      fillTables access n (s'.fill (· ||| rwFlags access) 512 pte 0 phys).1 pde (off + 1)
        (s'.fill (· ||| rwFlags access) 512 pte 0 phys).2 = .ok r := by
  rw [fillTables_succ] at h
  split_ifs at h with hoff
  obtain ⟨⟨s', pte⟩, ha, h⟩ := bind_eq_ok.1 h
  exact ⟨Nat.not_le.1 hoff, s', pte, ha, h⟩

/-- A mapping is one loop over a table, or that, whole tables, and one table more. -/
theorem initMap_ok {p pages : ℕ} (h : s.initMapVirtPhysAddr v p pages pml4 access = .ok s₁) :
    ∃ s' pde pte, s.tablesFor v pml4 access = .ok (s', pde, pte) ∧
      ((∃ n, s₁ = (s'.fill (leafEntry access) n pte (pteOff v) p).1) ∨
      ∃ n₁ n₂ n₃ s'' last phys s₃ pte',
        fillTables access n₂ (s'.fill (· ||| rwFlags access) n₁ pte (pteOff v) p).1 pde
          (pdeOff v + 1) (s'.fill (· ||| rwFlags access) n₁ pte (pteOff v) p).2
            = .ok (s'', last, phys) ∧
        s''.allocTable pde last access = .ok (s₃, pte') ∧
        s₁ = (s₃.fill (· ||| rwFlags access) n₃ pte' 0 phys).1) := by
  rw [initMap_eq] at h
  obtain ⟨⟨s', pde, pte⟩, ht, h⟩ := bind_eq_ok.1 h
  refine ⟨s', pde, pte, ht, ?_⟩
  dsimp only at h
  split_ifs at h
  · exact Or.inl ⟨_, (Except.ok.inj h).symm⟩
  · rw [result_fillFurtherTrace] at h
    obtain ⟨⟨s'', last, phys⟩, hf, h⟩ := bind_eq_ok.1 h
    dsimp only at h
    split_ifs at h
    obtain ⟨⟨s₃, pte'⟩, ha, h⟩ := bind_eq_ok.1 h
    exact Or.inr ⟨_, _, _, s'', last, phys, s₃, pte', hf, ha, (Except.ok.inj h).symm⟩

theorem fillTables_clobbered : ∀ {n : ℕ} {s s₁ : Vm} {pde off phys off₁ phys₁ : ℕ},
    fillTables access n s pde off phys = .ok (s₁, off₁, phys₁) → s.clobbered ⊆ s₁.clobbered
  | 0, s, s₁, _, _, _, _, _, h => by
    obtain ⟨rfl, -⟩ := Prod.mk.inj (Except.ok.inj h)
    exact List.Subset.refl _
  | n + 1, s, s₁, pde, off, phys, _, _, h => by
    obtain ⟨-, s', pte, ha, h⟩ := fillTables_succ_ok h
    exact List.Subset.trans (allocTable_clobbered ha)
      (List.Subset.trans (fill_clobbered _ 512 s' pte 0 phys) (fillTables_clobbered h))

theorem clobbered_of_fillTables {n : ℕ} {s s₁ : Vm} {pde off phys off₁ phys₁ : ℕ}
    (h : fillTables access n s pde off phys = .ok (s₁, off₁, phys₁)) (hc : s₁.clobbered = []) :
    s.clobbered = [] :=
  clobbered_of_subset (fillTables_clobbered h) hc

/-- Every table of the loop is new, and below the same table of the second level. -/
theorem fillTables_grows (hg : ∀ t, g (t * 4096 ||| rwFlags access)) (hl : l.length = 2) :
    ∀ {n : ℕ} {s s₁ : Vm} {lab : ℕ → Option (List ℕ)} {pde off phys off₁ phys₁ : ℕ}, s.Wf g lab →
    lab pde = some l → fillTables access n s pde off phys = .ok (s₁, off₁, phys₁) →
    s₁.clobbered = [] → ∃ lab₁, Grows g 2 s lab s₁ lab₁
  | 0, s, s₁, lab, _, _, _, _, _, hw, _, h, _ => by
    obtain ⟨rfl, -⟩ := Prod.mk.inj (Except.ok.inj h)
    exact ⟨lab, .refl hw⟩
  | n + 1, s, s₁, lab, pde, off, phys, _, _, hw, hp, h, hc => by
    obtain ⟨-, s', pte, ha, h⟩ := fillTables_succ_ok h
    have hcf := clobbered_of_fillTables h hc
    obtain ⟨lab', hgrow, hpte⟩ :=
      allocTable_grows (k := 2) hg hw hp (fun _ => Or.inr (by omega)) ha
        (clobbered_of_fill (n := 512) hcf)
    have hfill := fill_grows (k := 2) (n := 512) (by simp [hl]) hgrow.wf hpte hcf
    have hgrow' := hgrow.trans hfill
    obtain ⟨lab₁, hrest⟩ := fillTables_grows hg hl hfill.wf (hgrow'.ext.mono _ _ hp) h hc
    exact ⟨lab₁, hgrow'.trans hrest⟩

/-- What has been stored in a page table by mistake stays on record. -/
theorem initMap_clobbered {p pages : ℕ}
    (h : s.initMapVirtPhysAddr v p pages pml4 access = .ok s₁) : s.clobbered ⊆ s₁.clobbered := by
  obtain ⟨s', pde, pte, ht, h⟩ := initMap_ok h
  refine List.Subset.trans (tablesFor_clobbered ht) ?_
  rcases h with ⟨n, rfl⟩ | ⟨n₁, n₂, n₃, s'', last, phys, s₃, pte', hf, ha, rfl⟩
  · exact fill_clobbered _ n s' pte _ p
  · calc s'.clobbered ⊆ _ := fill_clobbered _ n₁ s' pte _ p
      _ ⊆ s''.clobbered := fillTables_clobbered hf
      _ ⊆ s₃.clobbered := allocTable_clobbered ha
      _ ⊆ _ := fill_clobbered _ n₃ s₃ pte' 0 phys

theorem clobbered_of_initMap {p pages : ℕ}
    (h : s.initMapVirtPhysAddr v p pages pml4 access = .ok s₁) (hc : s₁.clobbered = []) :
    s.clobbered = [] :=
  clobbered_of_subset (initMap_clobbered h) hc

/-- Whatever is mapped, the tables grow, and those of the address are there. -/
theorem initMap_grows {p pages : ℕ} (hg : ∀ t, g (t * 4096 ||| rwFlags access)) (hw : s.Wf g lab)
    (hroot : lab pml4 = some []) (h : s.initMapVirtPhysAddr v p pages pml4 access = .ok s₁)
    (hc : s₁.clobbered = []) :
    ∃ lab₁, Grows g 2 s lab s₁ lab₁ ∧ Prepared s₁.mem pml4 v := by
  obtain ⟨s', pde, pte, ht, h⟩ := initMap_ok h
  suffices hsuff : s'.clobbered = [] ∧ ∀ lab', s'.Wf g lab' →
      lab' pde = some [pml4Off v, pdpeOff v] →
      lab' pte = some [pml4Off v, pdpeOff v, pdeOff v] → ∃ lab₁, Grows g 2 s' lab' s₁ lab₁ by
    obtain ⟨lab', pdpe, hgrow, -, -, hl2, hl1, he⟩ := tablesFor_grows hg hw hroot ht hsuff.1
    obtain ⟨lab₁, hrest⟩ := hsuff.2 lab' hgrow.wf hl2 hl1
    have hprep : Prepared s'.mem pml4 v := ⟨pdpe, pde, pte, he⟩
    exact ⟨lab₁, (hgrow.weaken (by decide)).trans hrest,
      hprep.ext hgrow.wf (hgrow.ext.mono _ _ hroot) hrest.ext⟩
  rcases h with ⟨n, rfl⟩ | ⟨n₁, n₂, n₃, s'', last, phys, s₃, pte', hf, ha, rfl⟩
  · exact ⟨clobbered_of_fill hc, fun lab' hw' _ hl1 => ⟨lab', fill_grows rfl hw' hl1 hc⟩⟩
  · have hc3 := clobbered_of_fill hc
    have hc2 := clobbered_of_allocTable ha hc3
    have hc1 := clobbered_of_fillTables hf hc2
    refine ⟨clobbered_of_fill hc1, fun lab' hw' hl2 hl1 => ?_⟩
    have hg1 := fill_grows (k := 2) rfl hw' hl1 hc1
    obtain ⟨lab₂, hg2⟩ := fillTables_grows hg rfl hg1.wf hl2 hf hc2
    have hl2' := hg2.ext.mono _ _ hl2
    obtain ⟨lab₃, hg3, hpte'⟩ :=
      allocTable_grows (k := 2) hg hg2.wf hl2' (fun _ => Or.inr (by simp)) ha hc3
    have hg4 := fill_grows (k := 2) rfl hg3.wf hpte' hc
    exact ⟨lab₃, ((hg1.trans hg2).trans hg3).trans hg4⟩

end Vm

end Bgox
