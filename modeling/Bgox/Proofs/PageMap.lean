import Bgox.Proofs.Supply

/-!
# The page tables as a map

What the tables below a PML4 are for: a finite map from virtual pages to frames.  Starting from an
empty PML4, each call that maps one page for the user updates the map at that page
(`init_map_refines`): the four indices of an address are its 48-bit page number, and every table
made on the way is new.
-/

namespace Bgox

open Run (bind_eq_ok)

/-- The number of the virtual page of an address, of which the processor uses 48 bits. -/
def vpage (v : ℕ) : ℕ := v / 4096 % 2 ^ 36

theorem offsets_eq_iff (v w : ℕ) : offsets v = offsets w ↔ vpage v = vpage w := by
  simp only [offsets, pml4Off, pdpeOff, pdeOff, pteOff, off_eq, vpage, List.cons.injEq, and_true]
  constructor <;> intro h <;> omega

/-- A finite map from virtual pages to frames, as the calls `(v, p)` make it. -/
def pageMap (calls : List (ℕ × ℕ)) : ℕ → Option ℕ :=
  calls.foldl (fun m c => Function.update m (vpage c.1) (some (entryPage c.2))) fun _ => none

/-- An entry with the present, writable and user bits set. -/
def Open (e : ℕ) : Prop :=
  isPresentPage e = true ∧ isPageWritable e = true ∧ isPageUser e = true

/-- The walks below a PML4 find the frames of `m`, by entries that are all open to the user. -/
def Maps (mem : ℕ → ℕ → ℕ) (pml4 : ℕ) (m : ℕ → Option ℕ) : Prop :=
  ∀ v, match m (vpage v) with
    | none => walk mem pml4 v = none
    | some f => ∃ e₄ e₃ e₂ e₁, walk mem pml4 v = some [e₄, e₃, e₂, e₁] ∧ entryPage e₁ = f ∧
        Open e₄ ∧ Open e₃ ∧ Open e₂ ∧ Open e₁

theorem open_page_or (t : ℕ) : Open (t * 4096 ||| 7) := by
  rw [page_or t (by decide), Open, isPresentPage_eq, isPageWritable_eq, isPageUser_eq]
  simp only [decide_eq_true_eq]
  omega

theorem open_leafEntry (p : ℕ) : Open (Vm.leafEntry 1 p) := by
  rw [Vm.leafEntry, if_pos rfl, Nat.shiftLeft_eq]
  exact open_page_or _

theorem entryPage_leafEntry (access p : ℕ) : entryPage (Vm.leafEntry access p) = entryPage p := by
  have h := Vm.entryChild_leafEntry access p
  unfold entryChild at h
  split_ifs at h
  exact Option.some.inj h

theorem entryPage_leafEntry_page (access page : ℕ) :
    entryPage (Vm.leafEntry access (page * 4096)) = page := by
  rw [entryPage_leafEntry, entryPage_eq]
  omega

namespace Vm

variable {g : ℕ → Prop} {s s₁ : Vm} {lab : ℕ → Option (List ℕ)} {n t off access v p pml4 : ℕ}

/-! ## One call, and any number of them -/

/-- The state between two calls: the tables hold `m`. -/
structure Holds (s : Vm) (pml4 : ℕ) (m : ℕ → Option ℕ) : Prop where
  fresh : s.Fresh
  clean : s.clobbered = []
  tree : ∃ lab, s.Wf Open lab ∧ lab pml4 = some []
  maps : Maps s.mem pml4 m

/-- A call updates the map at its page. -/
theorem Holds.initMap {m : ℕ → Option ℕ} (h : s.Holds pml4 m) (hlen : 3 ≤ s.supply.length)
    (v p : ℕ) :
    ∃ s₁, s.initMapVirtPhysAddr v p 1 pml4 1 = .ok s₁ ∧
      s₁.Holds pml4 (Function.update m (vpage v) (some (entryPage p))) ∧
      s.supply.length ≤ s₁.supply.length + 3 := by
  obtain ⟨lab, hw, hroot⟩ := h.tree
  obtain ⟨s₁, hs, htakes⟩ := h.fresh.initMap hlen hw hroot v p 1
  have hclean : s₁.clobbered = [] := htakes.clobbered.trans h.clean
  obtain ⟨lab₁, hgrow, hframe, e₄, e₃, e₂, hwalk, h4, h3, h2, -⟩ :=
    initMap_one open_page_or hw hroot hs hclean
  refine ⟨s₁, hs, ⟨htakes.fresh h.fresh, hclean, ⟨lab₁, hgrow.wf, hgrow.ext.mono _ _ hroot⟩,
    fun w => ?_⟩, htakes.length_le⟩
  by_cases hvw : vpage w = vpage v
  · have hoff : offsets w = offsets v := (offsets_eq_iff w v).2 hvw
    simp only [hvw, Function.update_self]
    refine ⟨e₄, e₃, e₂, _, ?_, entryPage_leafEntry 1 p, h4, h3, h2, open_leafEntry p⟩
    rw [walk, hoff]
    exact hwalk
  · have hsame : walk s₁.mem pml4 w = walk s.mem pml4 w :=
      hframe pml4 [] (offsets w) hroot rfl fun he => hvw ((offsets_eq_iff w v).1 he)
    rw [Function.update_of_ne hvw, hsame]
    exact h.maps w

/-- The calls `init_map_virt_phys_addr(v, p, 1, pml4, 1)`, one after the other. -/
def mapAll (s : Vm) (pml4 : ℕ) (calls : List (ℕ × ℕ)) : Except Trap Vm :=
  calls.foldlM (fun s c => s.initMapVirtPhysAddr c.1 c.2 1 pml4 1) s

theorem Holds.mapAll : ∀ (calls : List (ℕ × ℕ)) {s : Vm} {m : ℕ → Option ℕ}, s.Holds pml4 m →
    3 * calls.length ≤ s.supply.length →
    ∃ s₁, s.mapAll pml4 calls = .ok s₁ ∧ Maps s₁.mem pml4
      (calls.foldl (fun m c => Function.update m (vpage c.1) (some (entryPage c.2))) m)
  | [], s, _, h, _ => ⟨s, rfl, h.maps⟩
  | (v, p) :: calls, s, m, h, hlen => by
    simp only [List.length_cons] at hlen
    obtain ⟨s', hs', h', hsup⟩ := h.initMap (by omega) v p
    obtain ⟨s₁, hs₁, hmaps⟩ := h'.mapAll calls (by omega)
    refine ⟨s₁, ?_, hmaps⟩
    simp only [Vm.mapAll, List.foldlM_cons, hs', bind, Except.bind]
    exact hs₁

/-- A PML4 without entries. -/
theorem wf_empty (g : ℕ → Prop) {mem : ℕ → ℕ → ℕ} (hzero : ∀ i, mem pml4 i = 0)
    (supply : List ℕ) :
    Wf g ⟨mem, supply, [pml4], []⟩ fun n => if n = pml4 then some [] else none := by
  have hlab : ∀ {n l}, (if n = pml4 then some ([] : List ℕ) else none) = some l → n = pml4 := by
    intro n l hn
    by_contra hne
    rw [if_neg hne] at hn
    cases hn
  have hempty : ∀ {n l i c}, (if n = pml4 then some ([] : List ℕ) else none) = some l →
      entryChild (mem n i) = some c → False := by
    intro n l i c hn hc
    rw [hlab hn, hzero, entryChild_zero] at hc
    cases hc
  refine ⟨fun n l i c hn _ hc => (hempty hn hc).elim, fun t => ?_,
    fun n l i c hn _ hc => (hempty hn hc).elim⟩
  by_cases ht : t = pml4 <;> simp [ht]

theorem fresh_empty {mem : ℕ → ℕ → ℕ} {supply : List ℕ} (h : (pml4 :: supply).Nodup) :
    Fresh ⟨mem, supply, [pml4], []⟩ := by
  obtain ⟨hnotin, hnodup⟩ := List.nodup_cons.1 h
  refine ⟨hnodup, fun f hf => ?_⟩
  simp only [List.mem_singleton]
  rintro rfl
  exact hnotin hf

theorem walk_empty {mem : ℕ → ℕ → ℕ} (hzero : ∀ i, mem pml4 i = 0) (v : ℕ) :
    walk mem pml4 v = none :=
  Radix.trail_cons_none (by simp only [hzero, entryChild_zero]) _

/-- From an empty PML4 on, the walks find the frame of the last call for each page and nothing for
the pages there was no call for. -/
theorem init_map_refines {mem : ℕ → ℕ → ℕ} {supply : List ℕ} {pml4 : ℕ} (calls : List (ℕ × ℕ))
    (hzero : ∀ i, mem pml4 i = 0) (hfresh : (pml4 :: supply).Nodup)
    (hlen : 3 * calls.length ≤ supply.length) :
    ∃ s, mapAll ⟨mem, supply, [pml4], []⟩ pml4 calls = .ok s ∧ Maps s.mem pml4 (pageMap calls) :=
  Holds.mapAll calls (m := fun _ => none) ⟨fresh_empty hfresh, rfl,
    ⟨_, wf_empty Open hzero supply, if_pos rfl⟩, walk_empty hzero⟩ hlen

/-- Two pages in the tables of one address, and the first of them once more. -/
theorem init_map_refines_two :
    ∃ s, mapAll ⟨fun _ _ => 0, List.range' 1 9, [0], []⟩ 0
        [(0x400000, 0x7000), (0x401000, 0x8000), (0x400000, 0x9000)] = .ok s ∧
      Maps s.mem 0 (pageMap [(0x400000, 0x7000), (0x401000, 0x8000), (0x400000, 0x9000)]) :=
  init_map_refines _ (fun _ => rfl) (by decide) (by decide)

end Vm

end Bgox
