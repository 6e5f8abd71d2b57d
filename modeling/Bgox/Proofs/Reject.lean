import Bgox.Elf
import Bgox.Proofs.LoadProgram

/-!
# Files that are no programs

`elf_parse` looks at the header of a file and loads it whatever it has found, and a segment with
more bytes in the file than in memory is loaded too.  So a file that should be turned away never is.
The bytes of a segment stay in the pages mapped for it if its sizes are in order and its end can be
rounded up to a page (`parse_handled`).
-/

namespace Bgox

open Run (bind_eq_ok Reach)

open Traced (mem_bind mem_lift_bind mem_tell_bind result_bind)

namespace Vm

variable {s s₁ : Vm} {f : Elf} {ph : Phdr} {segment t : ℕ} {mm : Mm} {e : Event}

/-! ## The log of a segment -/

theorem mem_mapPagesTrace_succ {n v : ℕ} :
    e ∈ (mapPagesTrace segment t (n + 1) s v).log ↔ ∃ sa addr, s.kmalloc 1 = .ok (sa, addr) ∧
      (e = .kmalloc ∨ ∃ sb, sa.initMapVirtPhysAddr v (addr * 4096) 1 t 1 = .ok sb ∧
        (e = .map segment (v / 4096) ∨
          e ∈ (mapPagesTrace segment t n sb (v + 4096)).log)) := by
  simp [mapPagesTrace, mem_bind]

/-- Only the pages of a region are mapped for it. -/
theorem mem_mapPagesTrace : ∀ {n : ℕ} {s : Vm} {v : ℕ},
    e ∈ (mapPagesTrace segment t n s v).log →
      e = .kmalloc ∨ ∃ i < n, e = .map segment (v / 4096 + i)
  | 0, _, _, h => absurd h (by simp [mapPagesTrace])
  | n + 1, s, v, h => by
    obtain ⟨sa, addr, -, h⟩ := mem_mapPagesTrace_succ.1 h
    rcases h with rfl | ⟨sb, -, rfl | h⟩
    · exact Or.inl rfl
    · exact Or.inr ⟨0, by omega, rfl⟩
    · rcases mem_mapPagesTrace h with rfl | ⟨i, hi, rfl⟩
      · exact Or.inl rfl
      · exact Or.inr ⟨i + 1, by omega, congrArg _ (by omega)⟩

/-- All of them are mapped when the region is done. -/
theorem map_mem_mapPagesTrace : ∀ {n : ℕ} {s s₁ : Vm} {v i : ℕ},
    mapPages t n s v = .ok s₁ → i < n →
      .map segment (v / 4096 + i) ∈ (mapPagesTrace segment t n s v).log
  | n + 1, s, s₁, v, i, h, hi => by
    obtain ⟨sa, addr, sb, hk, hm, h⟩ := mapPages_succ_ok.1 h
    refine mem_mapPagesTrace_succ.2 ⟨sa, addr, hk, Or.inr ⟨sb, hm, ?_⟩⟩
    cases i with
    | zero => exact Or.inl rfl
    | succ i =>
      have hrest := map_mem_mapPagesTrace h (show i < n by omega)
      rw [show (v + 4096) / 4096 + i = v / 4096 + (i + 1) by omega] at hrest
      exact Or.inr hrest

theorem mem_loadSegmentTrace_iff (hload : ph.pType = 1) :
    e ∈ (loadSegmentTrace segment s f t mm ph).log ↔
      (ph.pMemsz < ph.pFilesz ∧ e = .print "Wrong size in elf binary\n") ∨
      e ∈ (mapPagesTrace segment t ph.pages s (getStartingPage ph.pVaddr)).log ∨
      ∃ sa, mapPages t ph.pages s (getStartingPage ph.pVaddr) = .ok sa ∧
        ((∃ a ∈ (storeTrace t (f.bytes ph.pOffset (ph.pFilesz % 2 ^ 32)) sa ph.pVaddr).log,
          .store segment a = e) ∨
        ∃ sb, store t (f.bytes ph.pOffset (ph.pFilesz % 2 ^ 32)) sa ph.pVaddr = .ok sb ∧
          ∃ a ∈ (storeTrace t (List.replicate ph.zeros 0) sb
            ((ph.pVaddr + ph.pFilesz) % 2 ^ 64)).log, .store segment a = e) := by
  have hwarn : e ∈ (if ph.pFilesz > ph.pMemsz then [Event.print "Wrong size in elf binary\n"]
      else []) ↔ ph.pMemsz < ph.pFilesz ∧ e = .print "Wrong size in elf binary\n" := by
    split_ifs with h
    · simp [h]
    · simp [h]
  have hfill : e ∈ (loadSegmentTrace segment s f t mm ph).log ↔
      e ∈ (fillSegmentTrace segment s f t ph).log := by
    rw [loadSegmentTrace, if_pos hload]
    simp [mem_bind]
  rw [hfill, fillSegmentTrace, mem_tell_bind, hwarn]
  simp only [mem_bind, result_regionAllocTrace, Traced.log_mapLog, Traced.result_mapLog,
    List.mem_map]
  rfl

/-- An address a byte of a segment is stored to. -/
def Phdr.Stores (ph : Phdr) (a : ℕ) : Prop :=
  (∃ i < ph.pFilesz % 2 ^ 32, a = (ph.pVaddr + i) % 2 ^ 64) ∨
    ∃ i < ph.zeros, a = (ph.pVaddr + ph.pFilesz + i) % 2 ^ 64

/-- The page `i` that is mapped for a segment. -/
theorem startingPage_div (va : ℕ) : getStartingPage va / 4096 = va / 4096 := by
  unfold getStartingPage
  omega

/-- Nothing is stored for a segment before all its pages are mapped. -/
theorem of_store_mem {k a : ℕ}
    (h : .store k a ∈ (loadSegmentTrace segment s f t mm ph).log) :
    k = segment ∧ ph.pType = 1 ∧ ph.Stores a ∧ ∀ i < ph.pages,
      .map segment (ph.pVaddr / 4096 + i) ∈ (loadSegmentTrace segment s f t mm ph).log := by
  by_cases hload : ph.pType = 1
  · simp only [mem_loadSegmentTrace_iff hload] at h ⊢
    rcases h with ⟨-, ⟨⟩⟩ | h | ⟨sa, hsa, h⟩
    · rcases mem_mapPagesTrace h with h | ⟨i, hi, h⟩ <;> cases h
    · have hmaps : ∀ i < ph.pages, .map segment (ph.pVaddr / 4096 + i) ∈
          (mapPagesTrace segment t ph.pages s (getStartingPage ph.pVaddr)).log := fun i hi => by
        rw [← startingPage_div]
        exact map_mem_mapPagesTrace hsa hi
      rcases h with ⟨a, ha, ⟨⟩⟩ | ⟨sb, -, a, ha, ⟨⟩⟩
      · obtain ⟨i, hi, rfl⟩ := mem_storeTrace ha
        rw [length_bytes] at hi
        exact ⟨rfl, hload, Or.inl ⟨i, hi, rfl⟩, fun j hj => Or.inr (Or.inl (hmaps j hj))⟩
      · obtain ⟨i, hi, rfl⟩ := mem_storeTrace ha
        rw [List.length_replicate] at hi
        exact ⟨rfl, hload, Or.inr ⟨i, hi, by omega⟩, fun j hj => Or.inr (Or.inl (hmaps j hj))⟩
  · rw [loadSegmentTrace, if_neg hload] at h
    exact absurd h (by simp)

theorem of_map_mem {k v : ℕ}
    (h : .map k v ∈ (loadSegmentTrace segment s f t mm ph).log) :
    k = segment ∧ ∃ i < ph.pages, v = ph.pVaddr / 4096 + i := by
  by_cases hload : ph.pType = 1
  · rw [mem_loadSegmentTrace_iff hload] at h
    rcases h with ⟨-, ⟨⟩⟩ | h | ⟨sa, -, ⟨a, -, ⟨⟩⟩ | ⟨sb, -, a, -, ⟨⟩⟩⟩
    rcases mem_mapPagesTrace h with h | ⟨i, hi, h⟩
    · cases h
    · obtain ⟨rfl, rfl⟩ := Event.map.inj h
      exact ⟨rfl, i, hi, by rw [startingPage_div]⟩
  · rw [loadSegmentTrace, if_neg hload] at h
    exact absurd h (by simp)

/-- A segment that is loaded has been stored. -/
theorem store_mem {mm₁ : Mm} {a : ℕ} (hload : ph.pType = 1)
    (hok : s.loadSegment f t mm ph = .ok (s₁, mm₁)) (ha : ph.Stores a) :
    .store segment a ∈ (loadSegmentTrace segment s f t mm ph).log := by
  obtain ⟨sc, -, -, hfill, -⟩ := loadSegment_ok hload hok
  obtain ⟨sa, sb, hsa, hsb, hsc⟩ := fillSegment_ok.1 hfill
  refine (mem_loadSegmentTrace_iff hload).2 (Or.inr (Or.inr ⟨sa, hsa, ?_⟩))
  rcases ha with ⟨i, hi, rfl⟩ | ⟨i, hi, rfl⟩
  · refine Or.inl ⟨_, ?_, rfl⟩
    rw [log_storeTrace hsb, length_bytes]
    exact List.mem_map_of_mem (List.mem_range.2 hi)
  · refine Or.inr ⟨sb, hsb, _, ?_, rfl⟩
    rw [← Nat.mod_add_mod (ph.pVaddr + ph.pFilesz), log_storeTrace hsc, List.length_replicate]
    exact List.mem_map_of_mem (List.mem_range.2 hi)

/-! ## The log of a file -/

theorem mem_loadSegmentsTrace_cons {k : ℕ} {phs : List Phdr} :
    e ∈ (loadSegmentsTrace f t k (ph :: phs) s mm).log ↔
      e ∈ (loadSegmentTrace k s f t mm ph).log ∨ ∃ sa mma, s.loadSegment f t mm ph = .ok (sa, mma) ∧
        e ∈ (loadSegmentsTrace f t (k + 1) phs sa mma).log := by
  simp [loadSegmentsTrace, mem_bind, result_loadSegmentTrace]

/-- For all headers: what is stored for one of them is stored when its pages are mapped. -/
theorem of_store_mem_segments {j a : ℕ} : ∀ {phs : List Phdr} {k : ℕ} {s : Vm} {mm : Mm},
    .store j a ∈ (loadSegmentsTrace f t k phs s mm).log →
    ∃ i ph, phs[i]? = some ph ∧ j = k + i ∧ ph.pType = 1 ∧ ph.Stores a ∧ ∀ m < ph.pages,
      .map j (ph.pVaddr / 4096 + m) ∈ (loadSegmentsTrace f t k phs s mm).log
  | [], _, _, _, h => absurd h (by simp [loadSegmentsTrace])
  | ph :: phs, k, s, mm, h => by
    rcases mem_loadSegmentsTrace_cons.1 h with h | ⟨sa, mma, hok, h⟩
    · obtain ⟨rfl, hload, hstores, hmaps⟩ := of_store_mem h
      exact ⟨0, ph, rfl, rfl, hload, hstores, fun m hm =>
        mem_loadSegmentsTrace_cons.2 (Or.inl (hmaps m hm))⟩
    · obtain ⟨i, ph', hget, rfl, hload, hstores, hmaps⟩ := of_store_mem_segments h
      exact ⟨i + 1, ph', hget, by omega, hload, hstores, fun m hm =>
        mem_loadSegmentsTrace_cons.2 (Or.inr ⟨sa, mma, hok, hmaps m hm⟩)⟩

theorem of_map_mem_segments {j v : ℕ} : ∀ {phs : List Phdr} {k : ℕ} {s : Vm} {mm : Mm},
    .map j v ∈ (loadSegmentsTrace f t k phs s mm).log →
    ∃ i ph, phs[i]? = some ph ∧ j = k + i ∧ ∃ m < ph.pages, v = ph.pVaddr / 4096 + m
  | [], _, _, _, h => absurd h (by simp [loadSegmentsTrace])
  | ph :: phs, k, s, mm, h => by
    rcases mem_loadSegmentsTrace_cons.1 h with h | ⟨sa, mma, -, h⟩
    · obtain ⟨rfl, hmap⟩ := of_map_mem h
      exact ⟨0, ph, rfl, rfl, hmap⟩
    · obtain ⟨i, ph', hget, rfl, hmap⟩ := of_map_mem_segments h
      exact ⟨i + 1, ph', hget, by omega, hmap⟩

theorem store_mem_segments {a : ℕ} : ∀ {phs : List Phdr} {k i : ℕ} {s s₁ : Vm} {mm : Mm},
    loadSegments f t phs s mm = .ok s₁ → phs[i]? = some ph → ph.pType = 1 → ph.Stores a →
    .store (k + i) a ∈ (loadSegmentsTrace f t k phs s mm).log
  | [], _, _, _, _, _, _, hget, _, _ => absurd hget (by simp)
  | ph' :: phs, k, i, s, s₁, mm, hok, hget, hload, ha => by
    rw [loadSegments_cons] at hok
    obtain ⟨⟨sa, mma⟩, hsa, hok⟩ := bind_eq_ok.1 hok
    cases i with
    | zero =>
      obtain rfl : ph' = ph := by simpa using hget
      exact mem_loadSegmentsTrace_cons.2 (Or.inl (store_mem hload hsa ha))
    | succ i =>
      have hrest := store_mem_segments (k := k + 1) hok hget hload ha
      rw [Nat.add_right_comm] at hrest
      exact mem_loadSegmentsTrace_cons.2 (Or.inr ⟨sa, mma, hsa, hrest⟩)

/-! ## The pages of a segment -/

/-- Every byte of a segment goes to a page that is mapped for it. -/
def Phdr.Confined (ph : Phdr) : Prop :=
  ∀ a, ph.Stores a → ∃ i < ph.pages, a / 4096 = ph.pVaddr / 4096 + i

/-- Its end can be rounded up, or there is nothing to store. -/
def Phdr.Placed (ph : Phdr) : Prop :=
  ph.pVaddr + ph.pMemsz + 4095 < 2 ^ 64 ∨ ph.pFilesz % 2 ^ 32 = 0 ∧ ph.zeros = 0

/-- The end of a segment that cannot be rounded up is taken for a low address. -/
theorem Phdr.pages_le_one (hva : ph.pVaddr < 2 ^ 64) (hmem : ph.pMemsz < 2 ^ 64)
    (hwrap : 2 ^ 64 ≤ ph.pVaddr + ph.pMemsz + 4095) :
    ph.pages = 0 ∨ ph.pages = 1 ∧ 2 ^ 64 < ph.pMemsz + 4096 := by
  unfold Phdr.pages getEndingPage getStartingPage
  omega

/-- More than a page of a segment is not in one page. -/
theorem not_one_page {b p n : ℕ} (hn : 4096 < n)
    (h : ∀ i < n, (b + i) % 2 ^ 64 / 4096 = p) : False := by
  have h₀ := h 0 (by omega)
  have h₁ := h 4096 hn
  omega

theorem Phdr.confined_iff (hva : ph.pVaddr < 2 ^ 64) (hmem : ph.pMemsz < 2 ^ 64)
    (hsize : ph.pFilesz ≤ ph.pMemsz) : ph.Confined ↔ ph.Placed := by
  have hzeros := ph.zeros_le
  have hfile := Nat.mod_le ph.pFilesz (2 ^ 32)
  constructor
  · intro h
    by_contra hplaced
    unfold Phdr.Placed at hplaced
    rw [not_or, Nat.not_lt] at hplaced
    obtain ⟨hwrap, hstores⟩ := hplaced
    rcases Phdr.pages_le_one hva hmem hwrap with hpages | ⟨hpages, hlarge⟩
    · -- no page is mapped, and a byte is stored
      have hnone : ∀ a, ¬ ph.Stores a := fun a ha => by
        obtain ⟨i, hi, -⟩ := h a ha
        omega
      rcases Nat.eq_zero_or_pos (ph.pFilesz % 2 ^ 32) with hx | hx
      · rcases Nat.eq_zero_or_pos ph.zeros with hy | hy
        · exact hstores ⟨hx, hy⟩
        · exact hnone _ (Or.inr ⟨0, hy, rfl⟩)
      · exact hnone _ (Or.inl ⟨0, hx, rfl⟩)
    · -- one page is mapped, and nearly 2 ^ 32 bytes are stored
      have hone : ∀ a, ph.Stores a → a / 4096 = ph.pVaddr / 4096 := fun a ha => by
        obtain ⟨i, hi, heq⟩ := h a ha
        omega
      have hmany : 4096 < ph.pFilesz % 2 ^ 32 ∨ 4096 < ph.zeros := by
        unfold Phdr.zeros
        split_ifs
        · omega
        · omega
      rcases hmany with hx | hy
      · exact not_one_page hx fun i hi => hone _ (Or.inl ⟨i, hi, rfl⟩)
      · exact not_one_page hy fun i hi => hone _ (Or.inr ⟨i, hi, rfl⟩)
  · rintro (hend | ⟨hx, hy⟩) a ha
    · have hrange : ph.pVaddr ≤ a ∧ a < ph.pVaddr + ph.pMemsz := by
        rcases ha with ⟨i, hi, rfl⟩ | ⟨i, hi, rfl⟩
        · omega
        · omega
      refine ⟨a / 4096 - ph.pVaddr / 4096, ?_, by omega⟩
      unfold Phdr.pages getEndingPage getStartingPage
      omega
    · rcases ha with ⟨i, hi, -⟩ | ⟨i, hi, -⟩
      · omega
      · omega

/-! ## The header of a file -/

theorem readLe_lt (image : ℕ → ℕ) : ∀ n off, readLe image off n < 256 ^ n
  | 0, _ => by simp [readLe]
  | n + 1, off => by
    have hrest := readLe_lt image n (off + 1)
    have hbyte := Nat.mod_lt (image off) (show 0 < 256 by decide)
    rw [readLe, Nat.pow_succ]
    omega

theorem Elf.ofImage_bounds {addr : ℕ} {image : ℕ → ℕ} (h : ph ∈ (Elf.ofImage addr image).phdrs) :
    ph.pVaddr < 2 ^ 64 ∧ ph.pMemsz < 2 ^ 64 := by
  simp only [Elf.ofImage] at h
  split_ifs at h
  · obtain ⟨i, -, rfl⟩ := List.mem_map.1 h
    exact ⟨readLe_lt image 8 _, readLe_lt image 8 _⟩
  · cases h

/-- Everything but what is printed. -/
def Event.Effect : Event → Prop
  | .print _ => False
  | _ => True

/-- What is done for a segment. -/
def Event.OfSegment : Event → Prop
  | .map _ _ => True
  | .store _ _ => True
  | _ => False

/-- A file that is to be turned away. -/
def Elf.Invalid (f : Elf) : Prop :=
  (elfCheckSupported f).1 = false ∨ ∃ ph ∈ f.phdrs, ph.pType = 1 ∧ ph.pMemsz < ph.pFilesz

/-- A file has been turned away if it had to be, and its bytes have gone to the pages mapped for
them only. -/
structure Handled (f : Elf) (log : List Event) : Prop where
  rejected : f.Invalid → ∀ e ∈ log, ¬ e.Effect
  confined : ∀ k a, .store k a ∈ log → .map k (a / 4096) ∈ log

/-- A file with a header as it should be, and segments that can be mapped. -/
structure Elf.Sound (f : Elf) : Prop where
  valid : ¬ f.Invalid
  placed : ∀ ph ∈ f.phdrs, ph.pType = 1 → ph.Placed

theorem Elf.Sound.confined (hf : f.Sound)
    (hbound : ∀ ph ∈ f.phdrs, ph.pVaddr < 2 ^ 64 ∧ ph.pMemsz < 2 ^ 64) (hmem : ph ∈ f.phdrs)
    (hload : ph.pType = 1) : ph.Confined := by
  have hsize : ph.pFilesz ≤ ph.pMemsz := Nat.le_of_not_lt fun hlt =>
    hf.valid (Or.inr ⟨ph, hmem, hload, hlt⟩)
  exact (Phdr.confined_iff (hbound ph hmem).1 (hbound ph hmem).2 hsize).2
    (hf.placed ph hmem hload)

end Vm

namespace System

variable {s : System} {PID : ℕ} {f : Vm.Elf} {e : Vm.Event}

open Vm

theorem result_elfParse (s : System) (PID : ℕ) (f : Vm.Elf) :
    (s.elfParse PID f).result = s.elfRunBin f >>= fun s' => .ok (s', PID + 1) := by
  rw [elfParse, Traced.result_tell_bind, Traced.result_bind, elfRunBin, bind_map_left]
  rfl

theorem mem_newProcessTrace (he : e ∈ s.newProcessTrace.log) : ¬ e.OfSegment := by
  simp only [newProcessTrace, mem_lift_bind, mem_tell_bind, List.mem_cons, List.not_mem_nil,
    or_false, Traced.log_pure, and_false, exists_false] at he
  rcases he with ⟨-, -, rfl | ⟨-, -, (rfl | rfl) | ⟨-, -, rfl⟩⟩⟩ <;> exact id

/-- The stores and mappings for the segments follow those for the process. -/
theorem mem_elfParse (he : e.OfSegment) :
    e ∈ (s.elfParse PID f).log ↔ ∃ vm t u, s.newProcess = .ok (vm, t, u) ∧
      e ∈ (loadSegmentsTrace f t 0 f.phdrs vm ⟨0, none⟩).log := by
  have hprint : e ∉ (elfCheckSupported f).2.map .print := fun h => by
    obtain ⟨text, -, rfl⟩ := List.mem_map.1 h
    exact he
  have hnew : e ∉ s.newProcessTrace.log := fun h => mem_newProcessTrace h he
  rw [elfParse, mem_tell_bind, or_iff_right hprint, mem_bind, elfRunBinTrace, mem_bind,
    or_iff_right hnew]
  simp [mem_bind, newProcess]

theorem kmalloc_mem_elfParse {r : Vm × ℕ} (h : s.vm.kmalloc sizeofPage = .ok r) :
    .kmalloc ∈ (s.elfParse PID f).log := by
  refine mem_tell_bind.2 (Or.inr (mem_bind.2 (Or.inl (mem_bind.2 (Or.inl ?_)))))
  exact mem_lift_bind.2 ⟨r, h, mem_tell_bind.2 (Or.inl List.mem_cons_self)⟩

/-- With the bounds that the fields of a header have. -/
theorem handled_of_sound (hf : f.Sound)
    (hbound : ∀ ph ∈ f.phdrs, ph.pVaddr < 2 ^ 64 ∧ ph.pMemsz < 2 ^ 64) :
    Handled f (s.elfParse PID f).log := by
  refine ⟨fun h => absurd h hf.valid, fun k a h => ?_⟩
  obtain ⟨vm, t, u, hp, h⟩ := (mem_elfParse (by trivial)).1 h
  obtain ⟨i, ph, hget, -, hload, hstores, hmaps⟩ := of_store_mem_segments h
  obtain ⟨m, hm, hpage⟩ := hf.confined hbound (List.mem_of_getElem? hget) hload a hstores
  rw [hpage]
  exact (mem_elfParse (by trivial)).2 ⟨vm, t, u, hp, hmaps m hm⟩

theorem valid_of_handled {r : Vm × ℕ} (hk : s.vm.kmalloc sizeofPage = .ok r)
    (h : Handled f (s.elfParse PID f).log) : ¬ f.Invalid :=
  fun hf => h.rejected hf _ (kmalloc_mem_elfParse hk) trivial

theorem sound_of_handled {s' : System} (hok : s.elfRunBin f = .ok s')
    (hbound : ∀ ph ∈ f.phdrs, ph.pVaddr < 2 ^ 64 ∧ ph.pMemsz < 2 ^ 64)
    (h : Handled f (s.elfParse PID f).log) : f.Sound := by
  obtain ⟨vm, t, u, vm', hp, hload, -⟩ := elfRunBin_ok.1 hok
  have hvalid : ¬ f.Invalid := by
    obtain ⟨vma, -, -, -, hk, -⟩ := newProcess_course hp
    exact valid_of_handled hk h
  refine ⟨hvalid, fun ph hph htype => ?_⟩
  have hsize : ph.pFilesz ≤ ph.pMemsz := Nat.le_of_not_lt fun hlt =>
    hvalid (Or.inr ⟨ph, hph, htype, hlt⟩)
  refine (Phdr.confined_iff (hbound ph hph).1 (hbound ph hph).2 hsize).1 fun a ha => ?_
  obtain ⟨i, hget⟩ := List.getElem?_of_mem hph
  have hstore := store_mem_segments (k := 0) hload hget htype ha
  have hmap := h.confined _ a ((mem_elfParse (by trivial)).2 ⟨vm, t, u, hp, hstore⟩)
  obtain ⟨vm₂, t₂, u₂, hp₂, hmap⟩ := (mem_elfParse (by trivial)).1 hmap
  obtain ⟨j, ph', hget', hj, hpage⟩ := of_map_mem_segments hmap
  obtain rfl : i = j := by omega
  obtain rfl := Option.some.inj (hget.symm.trans hget')
  exact hpage

/-- A file is handled as it should be if it is sound.  If it is not sound, it is not handled so
whenever the call returns; and a file that had to be turned away is not whenever there is a page of
memory. -/
theorem parse_handled (s : System) (PID addr : ℕ) (image : ℕ → ℕ) :
    let f := Elf.ofImage addr image
    (f.Sound → Handled f (s.elfParse PID f).log) ∧
      (∀ r, (s.elfParse PID f).result = .ok r → (Handled f (s.elfParse PID f).log ↔ f.Sound)) ∧
      ∀ r, s.vm.kmalloc sizeofPage = .ok r → Handled f (s.elfParse PID f).log → ¬ f.Invalid := by
  intro f
  have hbound : ∀ ph ∈ f.phdrs, ph.pVaddr < 2 ^ 64 ∧ ph.pMemsz < 2 ^ 64 :=
    fun ph hph => Elf.ofImage_bounds hph
  refine ⟨fun hf => handled_of_sound hf hbound, fun r hr => ⟨fun h => ?_, fun hf =>
    handled_of_sound hf hbound⟩, fun r hk h => valid_of_handled hk h⟩
  rw [result_elfParse] at hr
  obtain ⟨s', hok, -⟩ := bind_eq_ok.1 hr
  exact sound_of_handled hok hbound h

/-! ## Two files -/

/-- With memory for a file on the small machine. -/
theorem exists_parse (addr PID : ℕ) (image : ℕ → ℕ)
    (hlen : 6 + need (Elf.ofImage addr image).loads ≤ 16)
    (hone : (Elf.ofImage addr image).loads.length ≤ 1)
    (hbelow : ∀ ph ∈ (Elf.ofImage addr image).loads, BelowStack ph) :
    ∃ (s s' : System) (p : Proc),
      (s.elfParse PID (Elf.ofImage addr image)).result = .ok (s', PID + 1) ∧
      s'.procs = s.procs ++ [p] := by
  obtain ⟨s₀, h₀, -, hsmall⟩ := start_small
  have hpages : Supplies s₀ smallPages (Elf.ofImage addr image).loads.length :=
    hsmall.supplies.mono (hone.trans (by decide))
  obtain ⟨lab, hinv⟩ := start_inv h₀ hsmall.clean
  obtain ⟨s, p, mm, img, -, hstep, hprocs, -⟩ := hinv.exists_image hsmall.clean hpages hlen hbelow
    (Or.inl fun x _ k hk => by omega)
  refine ⟨{ s₀ with vm := { s₀.vm with supply := smallPages } }, s, p, ?_, hprocs⟩
  rw [result_elfParse]
  exact bind_eq_ok.2 ⟨s, hstep.2.2, rfl⟩

/-- A program of one byte at `0x400000`. -/
def program : ℕ → ℕ
  | 0 => 0x7F
  | 1 => 69
  | 2 => 76
  | 3 => 70
  | 4 => 2
  | 5 => 1
  | 6 => 1
  -- e_type, e_machine, e_phoff and e_phnum
  | 16 => 2
  | 18 => 0x3E
  | 32 => 64
  | 56 => 1
  -- p_type, p_flags, p_vaddr, p_filesz and p_memsz
  | 64 => 1
  | 68 => 5
  | 82 => 0x40
  | 96 => 1
  | 104 => 1
  | _ => 0

theorem parse_handled_program : ∃ s s' : System,
    (s.elfParse 1 (Elf.ofImage 0x1000 program)).result = .ok (s', 2) ∧
      (Elf.ofImage 0x1000 program).loads.length = 1 ∧
      Handled (Elf.ofImage 0x1000 program) (s.elfParse 1 (Elf.ofImage 0x1000 program)).log := by
  have hphdrs : (Elf.ofImage 0x1000 program).phdrs = [⟨1, 5, 0, 0x400000, 1, 1⟩] := rfl
  have hloads : (Elf.ofImage 0x1000 program).loads = [⟨1, 5, 0, 0x400000, 1, 1⟩] := by
    rw [Elf.loads, hphdrs]
    rfl
  obtain ⟨s, s', p, hok, -⟩ := exists_parse 0x1000 1 program (by rw [hloads]; decide)
    (by rw [hloads]; decide) fun ph hph => by
      obtain rfl := List.mem_singleton.1 (hloads ▸ hph)
      exact ⟨Nat.le_refl 1, Or.inl (by decide)⟩
  refine ⟨s, s', hok, by rw [hloads]; rfl, ?_⟩
  refine ((parse_handled s 1 0x1000 program).2.1 _ hok).2 ⟨?_, fun ph hph _ => ?_⟩
  · rintro (h | ⟨ph, hph, -, hlt⟩)
    · exact absurd h (by decide)
    · obtain rfl := List.mem_singleton.1 (hphdrs ▸ hph)
      exact Nat.lt_irrefl 1 hlt
  · obtain rfl := List.mem_singleton.1 (hphdrs ▸ hph)
    exact Or.inl (by decide)

/-- A file of zeros becomes a task. -/
theorem parse_accepts_zeros : ∃ (s s' : System) (p : Proc),
    (elfCheckSupported (Elf.ofImage 0x1000 fun _ => 0)).1 = false ∧
      (s.elfParse 1 (Elf.ofImage 0x1000 fun _ => 0)).result = .ok (s', 2) ∧
      s'.procs = s.procs ++ [p] := by
  have hloads : (Elf.ofImage 0x1000 fun _ => 0).loads = [] := rfl
  obtain ⟨s, s', p, hok, hprocs⟩ := exists_parse 0x1000 1 (fun _ => 0) (by decide) (by decide)
    fun ph hph => by simp [hloads] at hph
  exact ⟨s, s', p, by decide, hok, hprocs⟩

end System

end Bgox
