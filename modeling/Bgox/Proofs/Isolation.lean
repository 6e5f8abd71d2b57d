import Bgox.Proofs.OwnTables

/-!
# Isolation

Between two calls of `fork` programs are loaded, store to their memory, and have page faults.  Over
every such run the memory of a process is what it has made of it (`Separate.others`): the frames and
the tables of two processes are apart (`Separate`), so that a store of one goes to no frame of the
other, and a mapping for one to none of its tables.

That rests on `kmalloc` to hand out pages in ascending order, on programs of at most two segments
below the stacks, and on faults at addresses outside the kernel's half: the third VMA, a segment in
the kernel's half or a fault there may do anything.
-/

namespace Bgox

open Run (bind_eq_ok Reach)

namespace System

/-- A process in an address space of its own, which the boot task is not. -/
def User (s : System) (p : Proc) : Prop := p ∈ s.procs ∧ p.pml4 ≠ s.ker

inductive Event
  | load (f : Vm.Elf) (pages : List ℕ)
  | store (p : Proc) (va : ℕ) (bs : List ℕ)
  | pageFault (p : Proc) (pfAddr errCode : ℕ) (pages : List ℕ)

/-- The address space it is an event of. -/
def Event.author : Event → Option ℕ
  | .load _ _ => none
  | .store p _ _ | .pageFault p _ _ _ => some p.pml4

/-- The pages `kmalloc` returns in a call, where those below `m` have been handed out before it and
those below `m'` after it. -/
structure HandedOut (m : ℕ) (pages : List ℕ) (m' : ℕ) : Prop where
  sorted : pages.Pairwise (· < ·)
  lower : ∀ x ∈ pages, m ≤ x
  upper : ∀ x ∈ pages, x < m'
  le : m ≤ m'

/-- With the number of the first page that has not been handed out; the memory ends at `hi`. -/
inductive UserStep (hi : ℕ) : System × ℕ → Event → System × ℕ → Prop
  /-- The second page is the first of nine for the `task_struct`, and there may be VMAs in the two
  pages after the last one. -/
  | load {s s' : System} {m m' : ℕ} {f : Vm.Elf} {pages : List ℕ} :
      Step s (.elfRunBin f, pages) s' → (∀ ph ∈ f.loads, ph.Below) → f.loads.length ≤ 2 →
      HandedOut m pages m' → (∀ pcb, pages[1]? = some pcb → pcb + 9 ≤ m') → m' + 2 ≤ hi →
      UserStep hi (s, m) (.load f pages) (s', m')
  | store {s : System} {m va : ℕ} {p : Proc} {bs : List ℕ} {vm : Vm} : s.User p →
      (∀ i < bs.length, UserAccessible s.vm.mem p.pml4 (va + i)) →
      Vm.store p.pml4 bs { s.vm with supply := [] } va = .ok vm →
      UserStep hi (s, m) (.store p va bs) ({ s with vm }, m)
  /-- The page is not present. -/
  | pageFault {s s' : System} {m m' pfAddr errCode : ℕ} {p : Proc} {pages : List ℕ} : s.User p →
      pml4Off pfAddr ≠ 511 → errCode = 4 ∨ errCode = 6 →
      Step s (.pageFault p pfAddr errCode, pages) s' → HandedOut m pages m' → m' ≤ hi →
      UserStep hi (s, m) (.pageFault p pfAddr errCode pages) (s', m')

/-- The frames and the tables of the processes are apart.  All pages in use are below `m`, and the
kernel has its addresses for those from `lo` to `hi`. -/
structure Separate (lo hi : ℕ) (s : System) (m : ℕ) : Prop where
  inv : ∃ lab, s.Inv lab
  clean : s.vm.clobbered = []
  le : m ≤ hi
  tables : ∀ x ∈ s.vm.tables, lo ≤ x ∧ x < m
  view : ∀ x, lo ≤ x → x < hi → translate s.vm.mem s.ker (VADDR (x * 4096)) = some x
  frame : ∀ p v x, s.User p → pml4Off v ≠ 511 → translate s.vm.mem p.pml4 v = some x →
    x < m ∧ x ∉ s.vm.tables
  inj : ∀ p q v w x, s.User p → s.User q → pml4Off v ≠ 511 → pml4Off w ≠ 511 →
    translate s.vm.mem p.pml4 v = some x → translate s.vm.mem q.pml4 w = some x →
    p.pml4 = q.pml4 ∧ vpage v = vpage w
  apart : ∀ p q n l l', s.User p → s.User q → p.pml4 ≠ q.pml4 →
    OwnTable s.vm.mem p.pml4 l n → ¬ OwnTable s.vm.mem q.pml4 l' n

variable {lo hi m m' : ℕ} {s s' : System} {p q : Proc} {e : Event}

theorem translate_eq {mem mem₁ : ℕ → ℕ → ℕ} {r v : ℕ} (h : walk mem₁ r v = walk mem r v) :
    translate mem₁ r v = translate mem r v := by
  rw [translate, h, ← translate]

/-- What is read is the same if the way to it is, and the page. -/
theorem loadByte_eq {mem mem₁ : ℕ → ℕ → ℕ} {r v : ℕ} (h : walk mem₁ r v = walk mem r v)
    (hmem : ∀ x, translate mem r v = some x → mem₁ x = mem x) :
    loadByte mem₁ r v = loadByte mem r v := by
  rw [loadByte, loadByte, translate_eq h]
  rcases hx : translate mem r v with _ | x
  · rfl
  · simp only [Option.map_some, byteAt, hmem x hx]

namespace Separate

theorem sound (h : s.Separate lo hi m) : s.Sound :=
  ⟨h.clean, fun t ht => h.view t (h.tables t ht).1 (Nat.lt_of_lt_of_le (h.tables t ht).2 h.le)⟩

theorem lo_le (h : s.Separate lo hi m) : lo ≤ m := by
  obtain ⟨lab, hinv⟩ := h.inv
  have hker := h.tables _ (hinv.mem_tables hinv.ker)
  omega

/-- The address space of a process, with pages that have not been handed out. -/
theorem space (h : s.Separate lo hi m) (hp : s.User p) {pages : List ℕ} (hnodup : pages.Nodup)
    (hpages : ∀ x ∈ pages, m ≤ x) : ({ s.vm with supply := pages } : Vm).Space p.pml4 [] := by
  obtain ⟨lab, hinv⟩ := h.inv
  refine ⟨h.clean, ⟨hnodup, fun x hx ht => ?_⟩, ⟨lab, (hinv.supply pages).wf, hinv.procs p hp.1⟩,
    fun v x hv hx => ?_, fun v w x hv hw hx hx' => (h.inj p p v w x hp hp hv hw hx hx').2, by simp⟩
  · exact absurd (h.tables x ht).2 (Nat.not_lt.2 (hpages x hx))
  · obtain ⟨hlt, htab⟩ := h.frame p v x hp hv hx
    exact ⟨⟨htab, fun hmem => absurd hlt (Nat.not_lt.2 (hpages x hmem))⟩, by simp⟩

theorem mem_tables (h : s.Separate lo hi m) (hp : s.User p) {l : List ℕ} {n : ℕ}
    (hn : OwnTable s.vm.mem p.pml4 l n) : n ∈ s.vm.tables := by
  obtain ⟨lab, hinv⟩ := h.inv
  exact (hinv.wf.tables n).2 ⟨l, hn.label hinv.wf (hinv.procs p hp.1)⟩

/-- A store that hits no table. -/
theorem data (h : s.Separate lo hi m) {vm : Vm} (hd : Vm.Data s.vm vm) (hc : vm.clobbered = []) :
    Separate lo hi { s with vm } m := by
  obtain ⟨lab, hinv⟩ := h.inv
  obtain ⟨-, htab, hmem⟩ := hd hc
  have hwalk : ∀ p v, s.User p → translate vm.mem p.pml4 v = translate s.vm.mem p.pml4 v :=
    fun p v hp => translate_eq (hd.walk hc hinv.wf (hinv.procs p hp.1) v)
  have hown : ∀ p l n, s.User p → OwnTable vm.mem p.pml4 l n → OwnTable s.vm.mem p.pml4 l n :=
    fun p l n hp hn => hn.congr fun _ n hn => hmem n (h.mem_tables hp hn)
  refine ⟨⟨lab, hinv.data hd hc⟩, hc, h.le, by simpa only [htab] using h.tables,
    fun x hlo hhi => ?_, fun p v x hp hv hx => ?_, fun p q v w x hp hq hv hw hx hx' => ?_,
    fun p q n l l' hp hq hpq hn hn' => h.apart p q n l l' hp hq hpq (hown p l n hp hn)
      (hown q l' n hq hn')⟩
  · exact (translate_eq (hd.walk hc hinv.wf hinv.ker _)).trans (h.view x hlo hhi)
  · simp only [htab]
    exact h.frame p v x hp hv ((hwalk p v hp).symm.trans hx)
  · exact h.inj p q v w x hp hq hv hw ((hwalk p v hp).symm.trans hx) ((hwalk q w hq).symm.trans hx')

end Separate

/-- The tables below the PML4 `r` have grown, with pages from `m` to `m'`, and no other process's
have changed. -/
structure Extends (s s' : System) (r m m' : ℕ) : Prop where
  inv : ∃ lab, s'.Inv lab
  clean : s'.vm.clobbered = []
  ker : s'.ker = s.ker
  le : m ≤ m'
  tables : ∀ y ∈ s'.vm.tables, y ∈ s.vm.tables ∨ m ≤ y ∧ y < m'
  view : ∀ v, pml4Off v = 511 → walk s'.vm.mem s.ker v = walk s.vm.mem s.ker v
  own : ∃ old lab₁, Vm.Private old s.vm.mem s'.vm r lab₁ ∧
    ∀ q l n, s.User q → q.pml4 ≠ r → OwnTable s.vm.mem q.pml4 l n → n ∈ old
  users : ∀ q, s'.User q → q.pml4 = r ∨ s.User q
  frame : ∀ v x, pml4Off v ≠ 511 → translate s'.vm.mem r v = some x → x ∉ s'.vm.tables ∧
    (m ≤ x ∧ x < m' ∨ ∃ q, s.User q ∧ q.pml4 = r ∧ translate s.vm.mem r v = some x)
  inj : ∀ v w x, pml4Off v ≠ 511 → pml4Off w ≠ 511 → translate s'.vm.mem r v = some x →
    translate s'.vm.mem r w = some x → vpage v = vpage w

namespace Extends

variable {r n x v w : ℕ} {l l' : List ℕ}

theorem user (hg : s.Extends s' r m m') (hq : s'.User q) (hqr : q.pml4 ≠ r) : s.User q :=
  (hg.users q hq).resolve_left hqr

theorem kept (hg : s.Extends s' r m m') (hq : s.User q) (hqr : q.pml4 ≠ r)
    (hn : OwnTable s.vm.mem q.pml4 l n) : s'.vm.mem n = s.vm.mem n := by
  obtain ⟨old, lab₁, hpriv, hold⟩ := hg.own
  exact (hpriv.kept n (hold q l n hq hqr hn)).2

theorem walk_eq (hg : s.Extends s' r m m') (hq : s.User q) (hqr : q.pml4 ≠ r)
    (hv : pml4Off v ≠ 511) : walk s'.vm.mem q.pml4 v = walk s.vm.mem q.pml4 v :=
  OwnTable.walk (fun _ _ hn => hg.kept hq hqr hn) hv

theorem translate_back (hg : s.Extends s' r m m') (hq : s'.User q) (hqr : q.pml4 ≠ r)
    (hv : pml4Off v ≠ 511) (hx : translate s'.vm.mem q.pml4 v = some x) :
    translate s.vm.mem q.pml4 v = some x := by
  rwa [translate_eq (hg.walk_eq (hg.user hq hqr) hqr hv)] at hx

theorem ownTable_back (hg : s.Extends s' r m m') (hq : s'.User q) (hqr : q.pml4 ≠ r)
    (hn : OwnTable s'.vm.mem q.pml4 l n) : OwnTable s.vm.mem q.pml4 l n :=
  hn.congr fun _ _ hn => hg.kept (hg.user hq hqr) hqr hn

/-- A table of the process at `r` is none of another. -/
theorem ownTable_ne (hg : s.Extends s' r m m') (hq : s'.User q) (hqr : q.pml4 ≠ r)
    (hn : OwnTable s'.vm.mem r l n) : ¬ OwnTable s'.vm.mem q.pml4 l' n := by
  intro hn'
  obtain ⟨old, lab₁, hpriv, hold⟩ := hg.own
  exact hpriv.ownTable hn (hold q l' n (hg.user hq hqr) hqr (hg.ownTable_back hq hqr hn'))

/-- And so with its frames. -/
theorem translate_ne (hg : s.Extends s' r m m') (h : s.Separate lo hi m) (hq : s'.User q)
    (hqr : q.pml4 ≠ r) (hv : pml4Off v ≠ 511) (hw : pml4Off w ≠ 511)
    (hx : translate s'.vm.mem r v = some x) : translate s'.vm.mem q.pml4 w ≠ some x := by
  intro hx'
  have hq' := hg.user hq hqr
  have hx' := hg.translate_back hq hqr hw hx'
  rcases (hg.frame v x hv hx).2 with ⟨hmx, -⟩ | ⟨p, hp, rfl, hx⟩
  · exact absurd (h.frame q w x hq' hw hx').1 (Nat.not_lt.2 hmx)
  · exact hqr (h.inj q p w v x hq' hp hw hv hx' hx).1

end Extends

namespace Separate

theorem extend (h : s.Separate lo hi m) {r : ℕ} (hg : s.Extends s' r m m') (hhi : m' ≤ hi)
    (hlow : hi ≤ 2 ^ 19) : s'.Separate lo hi m' := by
  refine ⟨hg.inv, hg.clean, hhi, fun x hx => ?_, fun x hxlo hxhi => ?_, fun p v x hp hv hx => ?_,
    fun p q v w x hp hq hv hw hx hx' => ?_, fun p q n l l' hp hq hpq hn hn' => ?_⟩
  · have hlo := h.lo_le
    have hle := hg.le
    rcases hg.tables x hx with hx | hx
    · have hx := h.tables x hx
      omega
    · omega
  · rw [hg.ker, translate_eq (hg.view _ (vaddr_page (by omega : x < 2 ^ 19)).2)]
    exact h.view x hxlo hxhi
  · by_cases hpr : p.pml4 = r
    · rw [hpr] at hx
      obtain ⟨hnot, hcases⟩ := hg.frame v x hv hx
      refine ⟨?_, hnot⟩
      rcases hcases with ⟨-, hlt⟩ | ⟨q, hq, rfl, hx⟩
      · exact hlt
      · exact Nat.lt_of_lt_of_le (h.frame q v x hq hv hx).1 hg.le
    · obtain ⟨hlt, hnot⟩ := h.frame p v x (hg.user hp hpr) hv (hg.translate_back hp hpr hv hx)
      refine ⟨Nat.lt_of_lt_of_le hlt hg.le, fun hmem => ?_⟩
      rcases hg.tables x hmem with hmem | hmem
      · exact hnot hmem
      · omega
  · by_cases hpr : p.pml4 = r
    · rw [hpr] at hx ⊢
      by_cases hqr : q.pml4 = r
      · rw [hqr] at hx' ⊢
        exact ⟨rfl, hg.inj v w x hv hw hx hx'⟩
      · exact absurd hx' (hg.translate_ne h hq hqr hv hw hx)
    · by_cases hqr : q.pml4 = r
      · rw [hqr] at hx'
        exact absurd hx (hg.translate_ne h hp hpr hw hv hx')
      · exact h.inj p q v w x (hg.user hp hpr) (hg.user hq hqr) hv hw
          (hg.translate_back hp hpr hv hx) (hg.translate_back hq hqr hw hx')
  · by_cases hpr : p.pml4 = r
    · rw [hpr] at hn hpq
      exact hg.ownTable_ne hq hpq.symm hn hn'
    · by_cases hqr : q.pml4 = r
      · rw [hqr] at hn'
        exact hg.ownTable_ne hp hpr hn' hn
      · exact h.apart p q n l l' (hg.user hp hpr) (hg.user hq hqr) hpq
          (hg.ownTable_back hp hpr hn) (hg.ownTable_back hq hqr hn')

/-! ## The steps -/

/-- Pages in ascending order that are next to one another are handed out one after the other. -/
theorem adjacent_of_sorted {pages : List ℕ} (h : pages.Pairwise (· < ·)) : Vm.Adjacent pages := by
  intro i hi j hj he
  rw [List.getElem?_eq_getElem hi, List.getElem?_eq_getElem hj, Option.map_some] at he
  have hnext : pages[j] = pages[i] + 1 := Option.some.inj he
  rw [List.pairwise_iff_getElem] at h
  rcases Nat.lt_trichotomy j (i + 1) with hlt | rfl | hgt
  · rcases Nat.eq_or_lt_of_le (Nat.le_of_lt_succ hlt) with rfl | hlt
    · omega
    · have := h j i hj hi hlt
      omega
  · rfl
  · have h₁ := h i (i + 1) hi (by omega) (Nat.lt_succ_self i)
    have h₂ := h (i + 1) j (by omega) hj hgt
    omega

/-- They are fit for loading a program of one or two segments. -/
theorem supplies (h : s.Separate lo hi m) (hlow : hi + 2 ≤ 2 ^ 19) {pages : List ℕ}
    (hout : HandedOut m pages m') (htask : ∀ pcb, pages[1]? = some pcb → pcb + 9 ≤ m')
    (hhi : m' + 2 ≤ hi) {n : ℕ} (htwo : n ≤ 2) :
    Supplies s pages n ∧ Vm.NodesApart s.vm.tables pages n ∧ ∀ x ∈ pages, x + 2 ≤ 2 ^ 19 := by
  have hnew : ∀ x k, x ∈ pages → x + k ∉ s.vm.tables := fun x k hx ht => by
    have := hout.lower x hx
    have := (h.tables _ ht).2
    omega
  have hmem : ∀ x ∈ pages, x + 2 < 2 ^ 19 := fun x hx => by
    have := hout.upper x hx
    omega
  have hsee : ∀ x k, x ∈ pages → x + k < hi → s.Sees (x + k) := fun x k hx hk =>
    h.view _ (by have := h.lo_le; have := hout.lower x hx; omega) hk
  refine ⟨⟨hout.sorted.imp Nat.ne_of_lt, fun x hx => hnew x 0 hx,
    fun x hx => Nat.lt_of_le_of_lt (Nat.add_le_add_left htwo x) (hmem x hx),
    fun x hx k hk => hsee x k hx (by have := hout.upper x hx; omega),
    fun pcb hpcb x hx hp => ?_,
    fun pcb hpcb k hk => hsee pcb k (List.mem_of_getElem? hpcb) (by have := htask pcb hpcb; omega)⟩,
    ?_, fun x hx => Nat.le_of_lt (hmem x hx)⟩
  · obtain ⟨k, rfl⟩ := Nat.exists_eq_add_of_le hp.1
    exact hnew pcb k (List.mem_of_getElem? hpcb) hx
  · rcases Nat.lt_or_ge n 2 with hlt | hge
    · exact Or.inl fun x _ k hk hk' => by omega
    · exact Or.inr ⟨Nat.le_antisymm htwo hge, fun x hx => hnew x 1 hx,
        adjacent_of_sorted hout.sorted⟩

/-- With enough of them the program is loaded. -/
theorem exists_load (h : s.Separate lo hi m) (hlow : hi + 2 ≤ 2 ^ 19) {f : Vm.Elf} {pages : List ℕ}
    (hbelow : ∀ ph ∈ f.loads, BelowStack ph) (htwo : f.loads.length ≤ 2)
    (hlen : 6 + Vm.need f.loads ≤ pages.length) (hout : HandedOut m pages m')
    (htask : ∀ pcb, pages[1]? = some pcb → pcb + 9 ≤ m') (hhi : m' + 2 ≤ hi) :
    ∃ s' p, Step s (.elfRunBin f, pages) s' ∧ s'.procs = s.procs ++ [p] := by
  obtain ⟨lab, hinv⟩ := h.inv
  obtain ⟨hsup, hnodes, -⟩ := h.supplies hlow hout htask hhi htwo
  obtain ⟨s', p, -, -, -, hstep, hprocs, -⟩ := hinv.exists_image h.clean hsup hlen hbelow hnodes
  exact ⟨s', p, hstep, hprocs⟩

theorem load (h : s.Separate lo hi m) (hlow : hi + 2 ≤ 2 ^ 19) {f : Vm.Elf} {pages : List ℕ}
    (hstep : Step s (.elfRunBin f, pages) s') (hbelow : ∀ ph ∈ f.loads, ph.Below)
    (htwo : f.loads.length ≤ 2) (hout : HandedOut m pages m')
    (htask : ∀ pcb, pages[1]? = some pcb → pcb + 9 ≤ m') (hhi : m' + 2 ≤ hi) :
    s'.Separate lo hi m' ∧ (∃ p, s'.procs = s.procs ++ [p] ∧ s'.User p) ∧
      ∀ q, s.User q → s'.User q ∧ ∀ v, pml4Off v ≠ 511 →
        loadByte s'.vm.mem q.pml4 v = loadByte s.vm.mem q.pml4 v := by
  obtain ⟨lab, hinv⟩ := h.inv
  obtain ⟨hsup, hnodes, hmem⟩ := h.supplies hlow hout htask hhi htwo
  obtain ⟨p, lab₁, hker, hprocs, hp, hsettled, hpriv, htab, hwalk, hkept⟩ :=
    hinv.elfRunBin_private h.clean hstep hsup
      (fun ph hph => ⟨(hbelow ph hph).outside, (hbelow ph hph).pagesOutside⟩) htwo hmem hnodes
  obtain ⟨nodes, hspace⟩ := hsettled.space
  have husers : ∀ q, s'.User q → q.pml4 = p.pml4 ∨ s.User q := by
    rintro q ⟨hq, hqk⟩
    rw [hprocs, List.mem_append, List.mem_singleton] at hq
    rcases hq with hq | rfl
    · exact Or.inr ⟨hq, hker ▸ hqk⟩
    · exact Or.inl rfl
  have hext : s.Extends s' p.pml4 m m' :=
    { inv := hinv.step hstep hsettled.clean
      clean := hsettled.clean
      ker := hker
      le := hout.le
      tables := fun y hy => (htab y hy).imp_right fun hy => ⟨hout.lower y hy, hout.upper y hy⟩
      view := fun v _ => hwalk s.ker v hinv.ker
      own := ⟨_, lab₁, hpriv, fun q l n hq _ hn => h.mem_tables hq hn⟩
      users := husers
      frame := fun v x hv hx => ⟨(hspace.frame v x hv hx).1.1, Or.inl
        ⟨hout.lower x (hsettled.frames v x hv hx), hout.upper x (hsettled.frames v x hv hx)⟩⟩
      inj := hspace.inj }
  have hnew : p.pml4 ≠ s'.ker := fun he =>
    hsup.new _ hp (he ▸ hker ▸ hinv.mem_tables hinv.ker)
  refine ⟨h.extend hext (by omega) (by omega), ⟨p, hprocs, by simp [hprocs], hnew⟩, fun q hq =>
    ⟨⟨by simp [hprocs, hq.1], hker ▸ hq.2⟩, fun v hv => ?_⟩⟩
  refine loadByte_eq (hwalk _ v (hinv.procs q hq.1)) fun x hx => ?_
  obtain ⟨hlt, hnot⟩ := h.frame q v x hq hv hx
  exact hkept x hnot fun y hy => Nat.lt_of_lt_of_le hlt (hout.lower y hy)

theorem store (h : s.Separate lo hi m) (hp : s.User p) {bs : List ℕ} {va : ℕ} {vm : Vm}
    (hacc : ∀ i < bs.length, UserAccessible s.vm.mem p.pml4 (va + i))
    (hok : Vm.store p.pml4 bs { s.vm with supply := [] } va = .ok vm) :
    Separate lo hi { s with vm } m ∧ ∀ q, s.User q → q.pml4 ≠ p.pml4 → ∀ v, pml4Off v ≠ 511 →
      loadByte vm.mem q.pml4 v = loadByte s.vm.mem q.pml4 v := by
  obtain ⟨lab, hinv⟩ := h.inv
  have hspace := h.space hp List.nodup_nil (fun x hx => absurd hx (by simp))
  have huser : ∀ i < bs.length, pml4Off (va + i) ≠ 511 := fun i hi h511 =>
    not_userAccessible (by rw [h511, hinv.shared _ (hinv.procs p hp.1), hinv.hidden]) (hacc i hi)
  obtain ⟨hspace', -⟩ := hspace.store huser hok
  have hdata : Vm.Data { s.vm with supply := [] } vm := Vm.store_data hok
  replace hdata : Vm.Data s.vm vm := hdata
  refine ⟨h.data hdata hspace'.clean, fun q hq hqp v hv => ?_⟩
  refine loadByte_eq (hdata.walk hspace'.clean hinv.wf (hinv.procs q hq.1) v) fun x hx => ?_
  exact hspace.store_kept ⟨(h.frame q v x hq hv hx).2, by simp⟩
    (fun w hw hx' => hqp (h.inj q p v w x hq hp hv hw hx hx').1) huser hok

theorem pageFault (h : s.Separate lo hi m) (hlow : hi + 2 ≤ 2 ^ 19) (hp : s.User p)
    {pfAddr errCode : ℕ} {pages : List ℕ} (hv : pml4Off pfAddr ≠ 511)
    (herr : errCode = 4 ∨ errCode = 6) (hstep : Step s (.pageFault p pfAddr errCode, pages) s')
    (hout : HandedOut m pages m') (hhi : m' ≤ hi) :
    s'.Separate lo hi m' ∧ ∀ q, s.User q → s'.User q ∧ (q.pml4 ≠ p.pml4 → ∀ v, pml4Off v ≠ 511 →
      loadByte s'.vm.mem q.pml4 v = loadByte s.vm.mem q.pml4 v) := by
  obtain ⟨lab, hinv⟩ := h.inv
  have hroot := hinv.procs p hp.1
  have hok : System.pageFaultHandler { s with vm := { s.vm with supply := pages } } p pfAddr errCode
      = .ok s' := hstep.2.2
  rw [pageFaultHandler, if_neg (by omega)] at hok
  obtain ⟨⟨vma, pp⟩, hk, hok⟩ := bind_eq_ok.1 hok
  obtain ⟨vmb, hm, hok⟩ := bind_eq_ok.1 hok
  obtain rfl := Except.ok.inj hok
  have hspace := h.space hp (hout.sorted.imp Nat.ne_of_lt) hout.lower
  obtain ⟨hspace', hmap⟩ := hspace.mapPage hk hm
  have hca : vma.clobbered = [] := (Vm.kmalloc_clobbered hk).1.trans h.clean
  have hwf := (hinv.supply pages).wf
  have hdata := Vm.kmalloc_data hk
  -- the tables of the others
  obtain ⟨old, hold, hpriv⟩ := Vm.exists_private hwf hroot
  obtain ⟨lab₁, hpriv'⟩ := (hpriv.data hdata hca).initMap hv hm hca
  obtain ⟨-, -, hframe, -⟩ := Vm.initMap_one (fun _ => trivial) ((hdata.grows hca hwf).wf) hroot hm
    hspace'.clean
  have hview : ∀ v, pml4Off v = 511 → walk vmb.mem s.ker v = walk s.vm.mem s.ker v := by
    intro v h511
    have hne : offsets v ≠ offsets pfAddr := fun he =>
      hv ((List.cons.inj he).1.symm.trans h511)
    exact (hframe s.ker [] (offsets v) hinv.ker rfl hne).trans (hdata.walk hca hwf hinv.ker v)
  have hframes : ∀ v x, pml4Off v ≠ 511 → translate vmb.mem p.pml4 v = some x →
      x ∉ vmb.tables ∧ (m ≤ x ∧ x < m' ∨
        ∃ q, s.User q ∧ q.pml4 = p.pml4 ∧ translate s.vm.mem p.pml4 v = some x) := by
    intro v x hv hx
    refine ⟨(hspace'.frame v x hv hx).1.1, ?_⟩
    rcases hmap.cases hx with ⟨-, rfl⟩ | ⟨-, hx⟩
    · exact Or.inl ⟨hout.lower _ hmap.mem_supply, hout.upper _ hmap.mem_supply⟩
    · exact Or.inr ⟨p, hp, rfl, hx⟩
  have hext : s.Extends { s with vm := vmb } p.pml4 m m' :=
    { inv := hinv.step hstep hspace'.clean
      clean := hspace'.clean
      ker := rfl
      le := hout.le
      tables := fun y hy => (hmap.tables y hy).imp_right fun hy =>
        ⟨hout.lower y hy, hout.upper y hy⟩
      view := hview
      own := ⟨old, lab₁, hpriv', fun q l n hq hqp hn => (hold n).2 ⟨h.mem_tables hq hn,
        fun l' hn' => h.apart q p n l l' hq hp hqp hn hn'⟩⟩
      users := fun q hq => Or.inr hq
      frame := hframes
      inj := hspace'.inj }
  refine ⟨h.extend hext hhi (by omega), fun q hq => ⟨hq, fun hqp v hv => ?_⟩⟩
  refine loadByte_eq (hext.walk_eq hq hqp hv) fun x hx => ?_
  obtain ⟨hlt, hnot⟩ := h.frame q v x hq hv hx
  exact (hmap.keeps.1 x ⟨hnot, fun hmem => absurd hlt (Nat.not_lt.2 (hout.lower x hmem))⟩).2

/-- What a step does to the others. -/
theorem step (h : s.Separate lo hi m) (hlow : hi + 2 ≤ 2 ^ 19)
    (hs : UserStep hi (s, m) e (s', m')) :
    s'.Separate lo hi m' ∧ ∀ q, s.User q → s'.User q ∧ (e.author ≠ some q.pml4 →
      ∀ v, pml4Off v ≠ 511 → loadByte s'.vm.mem q.pml4 v = loadByte s.vm.mem q.pml4 v) := by
  cases hs with
  | load hstep hbelow htwo hout htask hhi =>
    obtain ⟨h', -, hkept⟩ := h.load hlow hstep hbelow htwo hout htask hhi
    exact ⟨h', fun q hq => ⟨(hkept q hq).1, fun _ => (hkept q hq).2⟩⟩
  | store hp hacc hok =>
    obtain ⟨h', hkept⟩ := h.store hp hacc hok
    exact ⟨h', fun q hq => ⟨hq, fun hne => hkept q hq fun he => hne (he ▸ rfl)⟩⟩
  | pageFault hp hv herr hstep hout hhi =>
    obtain ⟨h', hkept⟩ := h.pageFault hlow hp hv herr hstep hout hhi
    exact ⟨h', fun q hq => ⟨(hkept q hq).1, fun hne => (hkept q hq).2 fun he => hne (he ▸ rfl)⟩⟩

/-- There is no process but the boot task. -/
theorem start {mem : ℕ → ℕ → ℕ} {supply : List ℕ} {numPages : ℕ}
    (h : System.start mem supply numPages = .ok s) (hclean : s.vm.clobbered = []) (hle : m ≤ hi)
    (htab : ∀ x ∈ s.vm.tables, lo ≤ x ∧ x < m)
    (hview : ∀ x, lo ≤ x → x < hi → translate s.vm.mem s.ker (VADDR (x * 4096)) = some x) :
    s.Separate lo hi m := by
  have hnone : ∀ p, ¬ s.User p := by
    obtain ⟨⟨vm, ker⟩, -, h⟩ := bind_eq_ok.1 h
    obtain ⟨⟨vm', pcb⟩, -, h⟩ := bind_eq_ok.1 h
    obtain rfl := Except.ok.inj h
    rintro p ⟨hp, hker⟩
    exact hker (congrArg Proc.pml4 (List.mem_singleton.1 hp))
  exact ⟨start_inv h hclean, hclean, hle, htab, hview, fun p _ _ hp => absurd hp (hnone p),
    fun p _ _ _ _ hp => absurd hp (hnone p), fun p _ _ _ _ hp => absurd hp (hnone p)⟩

theorem reach {s₀ : System} {m₀ : ℕ} (h : s₀.Separate lo hi m₀) (hlow : hi + 2 ≤ 2 ^ 19)
    {x : System × ℕ} (hrun : Reach (UserStep hi) (s₀, m₀) x) : x.1.Separate lo hi x.2 :=
  Reach.invariant (P := fun x : System × ℕ => x.1.Separate lo hi x.2) h
    (fun _ _ _ ih hs => (ih.step hlow hs).1) hrun

end Separate

/-! ## Runs -/

/-- A step that is not an event of the address space of `q`. -/
def OthersStep (hi : ℕ) (q : Proc) (x : System × ℕ) (e : Event) (y : System × ℕ) : Prop :=
  UserStep hi x e y ∧ e.author ≠ some q.pml4

/-- Whatever others do leaves the memory of a process as it is. -/
theorem Separate.others (h : s.Separate lo hi m) (hlow : hi + 2 ≤ 2 ^ 19) (hq : s.User q)
    {x : System × ℕ} (hrun : Reach (OthersStep hi q) (s, m) x) :
    x.1.Separate lo hi x.2 ∧ x.1.User q ∧ ∀ v, pml4Off v ≠ 511 →
      loadByte x.1.vm.mem q.pml4 v = loadByte s.vm.mem q.pml4 v := by
  refine Reach.invariant (P := fun x : System × ℕ => x.1.Separate lo hi x.2 ∧ x.1.User q ∧
    ∀ v, pml4Off v ≠ 511 → loadByte x.1.vm.mem q.pml4 v = loadByte s.vm.mem q.pml4 v)
    ⟨h, hq, fun _ _ => rfl⟩ ?_ hrun
  rintro x e y ⟨hx, hqx, hsame⟩ ⟨hs, hne⟩
  obtain ⟨hy, hkept⟩ := hx.step hlow hs
  obtain ⟨hqy, hbytes⟩ := hkept q hqx
  exact ⟨hy, hqy, fun v hv => (hbytes hne v hv).trans (hsame v hv)⟩

end System

end Bgox
