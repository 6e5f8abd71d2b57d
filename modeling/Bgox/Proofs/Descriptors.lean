import Bgox.Descriptors
import Bgox.Proofs.Release

/-!
# What opening a file costs

Every call of `open` takes a page, whether there is a file or not (`openFile_takes`), and nothing
gives it back: `close` leaves the allocator alone.  So the free pages become fewer with every call,
and are the same after a run only if there has been none (`open_leaks`).
-/

namespace Bgox

open Run (bind_eq_ok)

/-- The pages that are free. -/
def Heap.unused (h : Heap) : Set ℕ := {i | (h.page i).used = 0}

namespace Heap

variable {h h' : Heap}

/-- A block of one page: one descriptor that was free is marked as used. -/
structure TakesOne (h h' : Heap) (i : ℕ) : Prop where
  free : i ∈ h.unused
  page : h'.page = Function.update h.page i (take (h.page i) 1)

theorem scan_free {a : Access} {pages : ℤ} : ∀ {fuel i c : ℕ} {q : Option ℕ} {count : ℕ},
    h.scan a pages fuel q count = .ok (some (i, c)) → i ∈ h.unused
  | 0, _, _, _, _, hs => by simp [scan] at hs
  | fuel + 1, _, _, none, _, hs => by
    rw [scan] at hs
    split_ifs at hs
    simp at hs
  | fuel + 1, _, _, some j, _, hs => by
    rw [scan] at hs
    split_ifs at hs with hreach hj
    · simp only [Except.ok.injEq, Option.some.injEq, Prod.mk.injEq] at hs
      rw [← hs.1]
      exact hj.1
    · exact scan_free hs

theorem kmalloc_takesOne {size : ℕ} {r : Option ℕ} (hsize : int (Vm.pagesFor size) = 1)
    (hk : h.kmalloc size = .ok (h', r)) : ∃ i, TakesOne h h' i := by
  obtain ⟨⟨h₁, p⟩, ha, hk⟩ := bind_eq_ok.1 hk
  obtain ⟨rfl, -⟩ := Prod.mk.inj (Except.ok.inj hk)
  rw [alloc, hsize] at ha
  obtain ⟨r', hscan, ha⟩ := bind_eq_ok.1 ha
  rcases r' with _ | ⟨i, count⟩
  · exact absurd hscan (scan_virt_ne_none _ _ _)
  · obtain ⟨h₂, ht, ha⟩ := bind_eq_ok.1 ha
    obtain ⟨rfl, -⟩ := Prod.mk.inj (Except.ok.inj ha)
    obtain rfl := Except.ok.inj ht
    exact ⟨i, scan_free hscan, rfl⟩

theorem TakesOne.used {i : ℕ} (ht : TakesOne h h' i) : (h'.page i).used = 1 := by
  rw [ht.page, Function.update_self]
  rfl

theorem TakesOne.unused_subset {i : ℕ} (ht : TakesOne h h' i) : h'.unused ⊆ h.unused := by
  intro j hj
  by_cases hji : j = i
  · rw [hji]
    exact ht.free
  · simpa [unused, ht.page, Function.update_of_ne hji] using hj

theorem TakesOne.unused_ne {i : ℕ} (ht : TakesOne h h' i) : h'.unused ≠ h.unused := by
  intro heq
  have hi : i ∈ h'.unused := heq ▸ ht.free
  have hused : (h'.page i).used = 0 := hi
  rw [ht.used] at hused
  omega

end Heap

namespace Descriptors

variable {fs : Tarfs} {s s' : Descriptors}

theorem openFile_takes {filename : List UInt8} {fd : Option ℕ}
    (ho : s.openFile fs filename = .ok (s', fd)) : ∃ i, s.heap.TakesOne s'.heap i := by
  obtain ⟨⟨heap, p⟩, hk, ho⟩ := bind_eq_ok.1 ho
  have htakes := Heap.kmalloc_takesOne (by decide) hk
  rcases hf : fs.openFile filename with _ | f <;> rcases p with _ | p <;>
    simp only [hf, pure, Except.pure, Except.ok.injEq, Prod.mk.injEq, reduceCtorEq] at ho <;>
    obtain ⟨rfl, -⟩ := ho <;> exact htakes

theorem step_unused {c : Call} {ret : Option ℕ} (hs : s.step fs c = .ok (s', ret)) :
    s'.heap.unused ⊆ s.heap.unused ∧
      (s'.heap.unused = s.heap.unused ↔ c.isOpen = false) := by
  cases c with
  | openFile filename =>
    obtain ⟨i, hi⟩ := openFile_takes hs
    exact ⟨hi.unused_subset, by simp [hi.unused_ne, Call.isOpen]⟩
  | close fd =>
    obtain ⟨rfl, -⟩ := Prod.mk.inj (Except.ok.inj hs)
    exact ⟨subset_rfl, by simp [close, Call.isOpen]⟩

theorem run_unused : ∀ {calls : List Call} {s s' : Descriptors} {rets : List (Option ℕ)},
    s.run fs calls = .ok (s', rets) → s'.heap.unused ⊆ s.heap.unused ∧
      (s'.heap.unused = s.heap.unused ↔ ∀ c ∈ calls, c.isOpen = false)
  | [], s, s', rets, hr => by
    obtain ⟨rfl, -⟩ := Prod.mk.inj (Except.ok.inj hr)
    simp
  | c :: calls, s, s', rets, hr => by
    obtain ⟨⟨s₁, ret⟩, hs, hr⟩ := bind_eq_ok.1 hr
    obtain ⟨⟨s₂, rets'⟩, hr', hr⟩ := bind_eq_ok.1 hr
    obtain ⟨rfl, -⟩ := Prod.mk.inj (Except.ok.inj hr)
    obtain ⟨hsub, hiff⟩ := step_unused hs
    obtain ⟨hsub', hiff'⟩ := run_unused hr'
    refine ⟨hsub'.trans hsub, fun heq => ?_, fun hall => ?_⟩
    · -- what has been lost on the way does not come back
      have hmid : s₁.heap.unused = s.heap.unused :=
        Set.Subset.antisymm hsub (heq ▸ hsub')
      rintro c' (_ | ⟨_, hc⟩)
      · exact hiff.1 hmid
      · exact hiff'.1 (heq.trans hmid.symm) c' hc
    · rw [hiff'.2 fun c hc => hall c (List.mem_cons_of_mem _ hc),
        hiff.2 (hall c List.mem_cons_self)]

/-- A call that finds no file never leaves the descriptors of pages as they were, and a run leaves
the free pages as they were exactly if no file is opened in it. -/
theorem open_leaks (fs : Tarfs) :
    (∀ (s s' : Descriptors) (filename : List UInt8), s.openFile fs filename = .ok (s', none) →
      s'.heap.page ≠ s.heap.page) ∧
    ∀ (s s' : Descriptors) (calls : List Call) (rets : List (Option ℕ)),
      s.run fs calls = .ok (s', rets) →
      (s'.heap.unused = s.heap.unused ↔ ∀ c ∈ calls, c.isOpen = false) := by
  refine ⟨fun s s' filename ho heq => ?_, fun s s' calls rets hr => (run_unused hr).2⟩
  obtain ⟨i, hi⟩ := openFile_takes ho
  refine hi.unused_ne ?_
  rw [Heap.unused, heq]
  rfl

/-! ## After boot -/

/-- One file. -/
def oneFile : Tarfs := ⟨[⟨[97], 10, 0x200000, TYPE_FILE⟩], 1⟩

theorem exists_first_open (files : Files) : ∃ h₀ h,
    Heap.calculateFreeList (fun _ => ⟨none, 0, 0, 0⟩) (fun _ => 0) 32768 0x200000 = .ok h₀ ∧
      openFile oneFile ⟨h₀, files⟩ [98] = .ok (⟨h, files⟩, none) ∧
      openFile oneFile ⟨h₀, files⟩ [97] = .ok (⟨h, files.bytesdone,
        Function.update files.fd 0xffffffff802c0000 ⟨[97], 10, 0x200000⟩⟩,
        some 0xffffffff802c0000) := by
  obtain ⟨h₀, h, hcalc, -, ha, -⟩ := Heap.kmalloc_first sizeofFile (by decide)
  have hk : h₀.kmalloc sizeofFile = .ok (h, some 0xffffffff802c0000) :=
    Heap.call_of_alloc (c := .kmalloc) ha
  refine ⟨h₀, h, hcalc, ?_, ?_⟩ <;> rw [openFile, hk] <;> rfl

/-- A call of `close` on a descriptor leaves the pages alone. -/
theorem open_leaks_close : ∃ h₀ s',
    Heap.calculateFreeList (fun _ => ⟨none, 0, 0, 0⟩) (fun _ => 0) 32768 0x200000 = .ok h₀ ∧
      run oneFile ⟨h₀, ⟨0, fun _ => ⟨[], 0, 0⟩⟩⟩ [.close 0] = .ok (s', [some 1]) ∧
      s'.heap.unused = h₀.unused := by
  obtain ⟨h₀, -, hcalc, -⟩ := exists_first_open ⟨0, fun _ => ⟨[], 0, 0⟩⟩
  exact ⟨h₀, _, hcalc, rfl, ((open_leaks oneFile).2 _ _ [.close 0] [some 1] rfl).2 (by simp
    [Call.isOpen])⟩

/-- The page for the file that is not there is lost, and so is that of a file that is opened and
closed. -/
theorem open_loses_page : ∃ h₀ s₁ s₂,
    Heap.calculateFreeList (fun _ => ⟨none, 0, 0, 0⟩) (fun _ => 0) 32768 0x200000 = .ok h₀ ∧
      openFile oneFile ⟨h₀, ⟨0, fun _ => ⟨[], 0, 0⟩⟩⟩ [98] = .ok (s₁, none) ∧
      s₁.heap.page ≠ h₀.page ∧
      run oneFile ⟨h₀, ⟨0, fun _ => ⟨[], 0, 0⟩⟩⟩ [.openFile [97], .close 0xffffffff802c0000]
        = .ok (s₂, [some 0xffffffff802c0000, some 1]) ∧
      s₂.heap.unused ≠ h₀.unused := by
  obtain ⟨h₀, h, hcalc, hnone, hsome⟩ := exists_first_open ⟨0, fun _ => ⟨[], 0, 0⟩⟩
  obtain ⟨i, hi⟩ := openFile_takes hnone
  have hlost := hi.unused_ne
  refine ⟨h₀, _, close ⟨h, 0, Function.update (fun _ => ⟨[], 0, 0⟩) 0xffffffff802c0000
    ⟨[97], 10, 0x200000⟩⟩ 0xffffffff802c0000, hcalc, hnone, fun heq => hlost ?_, ?_, hlost⟩
  · rw [Heap.unused, heq]
    rfl
  · rw [run, step, hsome]
    rfl

end Descriptors

end Bgox
