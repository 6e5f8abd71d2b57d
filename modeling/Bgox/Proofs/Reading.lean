import Mathlib.Data.List.TakeWhile
import Mathlib.Data.Nat.Find
import Bgox.Proofs.Archive
import Bgox.Proofs.OpenFiles

/-!
# Reading a file piece by piece

`read_file` moves the position by one less than the number of bytes it has delivered, so that every
call but the first begins with the last byte of the one before.  With buffers of sizes `n 0`, `n 1`,
… the call `j` starts at `Pieces.pos` and delivers `Pieces.got` bytes from there (`run_reads`).

So the pieces put together are the file only if the first buffer takes all of it, or if the sizes
add up to its length and its bytes are all the same from the end of the first piece on
(`reads_back_iff`).
-/

namespace Bgox

namespace Files

variable {mem : ℕ → UInt8} {s s' : Files} {f : File} {content : List UInt8} {i : ℕ}

/-- `content` is what the descriptor `f` is for: it lies in memory behind a header that starts with
a name. -/
structure Stored (mem : ℕ → UInt8) (f : File) (content : List UInt8) : Prop where
  size : f.size = content.length
  lt : content.length < 2 ^ 31
  fits : f.addr + 512 + content.length ≤ 2 ^ 64
  data : bytesAt mem content.length (f.addr + 512) = content
  name : mem f.addr ≠ 0

theorem getElem_bytesAt {n addr k : ℕ} (hk : k < (bytesAt mem n addr).length) :
    (bytesAt mem n addr)[k] = mem ((addr + k) % 2 ^ 64) := by
  simp [bytesAt]

/-- A part of what is in memory. -/
theorem bytesAt_of_append {a b c : List UInt8} {addr : ℕ}
    (h : bytesAt mem (a ++ b ++ c).length addr = a ++ b ++ c) :
    bytesAt mem b.length (addr + a.length) = b := by
  refine List.ext_getElem (by simp) fun k hk hk' => ?_
  have hlt : a.length + k < (a ++ b ++ c).length := by
    simp only [List.length_append]
    omega
  have hget := List.getElem_of_eq h (i := a.length + k) (by rwa [length_bytesAt])
  rw [getElem_bytesAt] at hget
  rw [getElem_bytesAt, Nat.add_assoc, hget]
  simp [hk']

/-- A file that is opened in an archive. -/
theorem stored_of_archive {start : ℕ} {before after : List Tarfs.Member} {m : Tarfs.Member}
    (rest : List UInt8)
    (hcount : (before ++ m :: after).length ≤ TARFS_MAX)
    (hnames : ((before ++ m :: after).map Tarfs.Member.name).Nodup)
    (hlt : (Tarfs.archive (before ++ m :: after)).length < 2 ^ 27)
    (hfits : start + (Tarfs.archive (before ++ m :: after)).length ≤ 2 ^ 64)
    (hmem : bytesAt mem (Tarfs.archive (before ++ m :: after)).length start
      = Tarfs.archive (before ++ m :: after)) (hfile : m.dir = false) :
    ∃ fs f, Tarfs.initTarfs start (Tarfs.archive (before ++ m :: after) ++ rest) = .ok fs ∧
      fs.openFile m.name = some f ∧ Stored mem f m.content := by
  refine ⟨_, _, Tarfs.initTarfs_archive start rest hcount hlt,
    Tarfs.openFile_archive start hnames hfile, ?_⟩
  have hsplit : Tarfs.archive (before ++ m :: after)
      = before.flatMap Tarfs.Member.encode ++ m.header ++ m.content
        ++ (List.replicate (Tarfs.Member.padding m.content.length) 0 ++ Tarfs.archive after) := by
    simp only [Tarfs.archive, List.flatMap_append, List.flatMap_cons, Tarfs.Member.encode,
      List.append_assoc]
  have hlen : (before.flatMap Tarfs.Member.encode).length + 512 + m.content.length
      ≤ (Tarfs.archive (before ++ m :: after)).length := by
    rw [hsplit]
    simp only [List.length_append, m.length_header]
    omega
  have haddr : (start + (before.flatMap Tarfs.Member.encode).length) % 2 ^ 64
      = start + (before.flatMap Tarfs.Member.encode).length := Nat.mod_eq_of_lt (by omega)
  rw [hsplit] at hmem
  have hdata := bytesAt_of_append hmem
  rw [List.length_append, m.length_header, ← Nat.add_assoc] at hdata
  rw [List.append_assoc _ m.content] at hmem
  have hheader := bytesAt_of_append hmem
  rw [m.length_header, bytesAt_succ] at hheader
  refine ⟨rfl, by omega, ?_, ?_, ?_⟩
  · dsimp only
    omega
  · dsimp only
    rw [haddr]
    exact hdata
  · dsimp only
    obtain ⟨t, ht⟩ := m.header_name []
    rw [List.append_nil] at ht
    obtain ⟨c, name, hname⟩ := List.exists_cons_of_length_pos m.name_pos
    rw [ht, hname, List.cons_append, List.cons.injEq] at hheader
    rw [hheader.1]
    rintro rfl
    exact m.name_ne (hname ▸ List.mem_cons_self)

/-! ## One call -/

theorem Stored.getElem (h : Stored mem f content) {k : ℕ} (hk : k < content.length) :
    content[k] = mem ((f.addr + 512 + k) % 2 ^ 64) := by
  have hk' : k < (bytesAt mem content.length (f.addr + 512)).length := by simpa using hk
  rw [← getElem_bytesAt hk']
  exact List.getElem_of_eq h.data.symm hk

theorem Stored.bytesAt_eq (h : Stored mem f content) {P r : ℕ} (hle : P + r ≤ content.length) :
    bytesAt mem r (f.addr + 512 + P) = (content.drop P).take r := by
  refine List.ext_getElem (by simp; omega) fun k hk hk' => ?_
  have hk : k < r := by simpa using hk
  rw [getElem_bytesAt, List.getElem_take, List.getElem_drop, h.getElem (by omega), Nat.add_assoc]

/-- In the middle of a file, `n` bytes are asked for and there are enough or not. -/
theorem Stored.bytestoRead (h : Stored mem f content) {P : ℕ} (hP : s.bytesdone = P)
    (hle : P ≤ content.length) (n : ℕ) :
    s.bytestoRead f n = (min n (content.length - P) : ℕ) := by
  have hlt := h.lt
  have hleft : toU64 (int (f.size - s.bytesdone)) = content.length - P := by
    rw [h.size, hP, int_of_lt (by omega) (by omega), toU64]
    omega
  rw [bytestoRead_eq, hleft, int_of_lt (by omega) (by omega)]

theorem Stored.fileaddr (h : Stored mem f content) {P : ℕ} (hP : s.bytesdone = P)
    (hle : P < content.length) : s.fileaddr f = f.addr + 512 + P := by
  have hfits := h.fits
  rw [Files.fileaddr, hP, toU64, Tarfs.skipSize]
  omega

theorem readFile_stored (h : Stored mem (s.fd i) content) (hnul : 0 ∉ content) {P n : ℕ}
    (hP : s.bytesdone = P) (hlt : P < content.length) (hn : 1 ≤ n) :
    s.readFile mem i n =
      .ok (⟨(P + min n (content.length - P) - 1 : ℕ), s.fd⟩,
        (content.drop P).take (min n (content.length - P)) ++ [0],
        min n (content.length - P)) := by
  have hL := h.lt
  have hsize : (s.fd i).size ≠ 0 := by
    rw [h.size]
    omega
  have hbytes := h.bytesAt_eq (P := P) (r := min n (content.length - P)) (by omega)
  have hlen : s.len mem (s.fd i) n = min n (content.length - P) := by
    rw [len, h.bytestoRead hP (Nat.le_of_lt hlt), h.fileaddr hP hlt, Int.toNat_natCast, hbytes,
      List.takeWhile_eq_self_iff.2]
    · simp
    · intro c hc
      have hmem := List.mem_of_mem_drop (List.mem_of_mem_take hc)
      simpa using fun h0 : c = 0 => hnul (h0 ▸ hmem)
  rw [readFile_eq, if_neg hsize, hlen, h.bytestoRead hP (Nat.le_of_lt hlt), h.fileaddr hP hlt,
    Int.toNat_natCast, hbytes, hP, int_of_lt (by omega) (by omega)]
  have hret : toU64 (min n (content.length - P) : ℕ) = min n (content.length - P) := by
    rw [toU64]
    omega
  have hpos : (P + ((min n (content.length - P) : ℕ) - 1) : ℤ)
      = (P + min n (content.length - P) - 1 : ℕ) := by omega
  rw [hret, hpos]

/-! ## The pieces -/

namespace Pieces

variable {L k : ℕ} {n : ℕ → ℕ}

/-- Where the call `j` starts to read in a file of `L` bytes. -/
def pos (L : ℕ) (n : ℕ → ℕ) : ℕ → ℕ
  | 0 => 0
  | j + 1 => pos L n j + min (n j) (L - pos L n j) - 1

/-- How many bytes it delivers. -/
def got (L : ℕ) (n : ℕ → ℕ) (j : ℕ) : ℕ := min (n j) (L - pos L n j)

def total (L : ℕ) (n : ℕ → ℕ) (k : ℕ) : ℕ := ((List.range k).map (got L n)).sum

def piece (content : List UInt8) (n : ℕ → ℕ) (j : ℕ) : List UInt8 :=
  (content.drop (pos content.length n j)).take (got content.length n j)

def delivered (content : List UInt8) (n : ℕ → ℕ) (k : ℕ) : List UInt8 :=
  (List.range k).flatMap (piece content n)

theorem pos_succ (L : ℕ) (n : ℕ → ℕ) (j : ℕ) : pos L n (j + 1) = pos L n j + got L n j - 1 := rfl

@[simp] theorem total_zero (L : ℕ) (n : ℕ → ℕ) : total L n 0 = 0 := rfl

theorem total_succ (L : ℕ) (n : ℕ → ℕ) (k : ℕ) : total L n (k + 1) = total L n k + got L n k := by
  simp [total, List.range_succ]

theorem total_one (L : ℕ) (n : ℕ → ℕ) : total L n 1 = min (n 0) L := by
  simp [total, got, pos]

theorem pos_lt (hL : 0 < L) : ∀ j, pos L n j < L
  | 0 => hL
  | j + 1 => by
    have := pos_lt hL j
    rw [pos]
    omega

section

variable (hL : 0 < L) (hn : ∀ j, 1 ≤ n j)
include hL hn

theorem got_pos (j : ℕ) : 1 ≤ got L n j := by
  have := pos_lt (n := n) hL j
  have := hn j
  rw [got]
  omega

/-- Every call falls back by one. -/
theorem total_eq : ∀ k, total L n k = pos L n k + k
  | 0 => rfl
  | k + 1 => by
    have := got_pos hL hn k
    rw [total_succ, pos_succ, total_eq k]
    omega

theorem pos_mono {j k : ℕ} (h : j ≤ k) : pos L n j ≤ pos L n k := by
  induction h with
  | refl => exact Nat.le_refl _
  | step _ ih =>
    have := got_pos hL hn
    refine Nat.le_trans ih ?_
    rw [pos_succ]
    exact Nat.le_sub_one_of_lt (Nat.lt_add_of_pos_right (this _))

theorem total_mono {j k : ℕ} (h : j ≤ k) : total L n j ≤ total L n k := by
  have := pos_mono hL hn h
  rw [total_eq hL hn, total_eq hL hn]
  omega

/-- The calls come to an end. -/
theorem exists_first : ∃ k, L ≤ total L n k ∧ ∀ j < k, total L n j < L := by
  have hex : ∃ k, L ≤ total L n k := ⟨L, by rw [total_eq hL hn]; omega⟩
  exact ⟨Nat.find hex, Nat.find_spec hex, fun j hj => Nat.lt_of_not_le (Nat.find_min hex hj)⟩

omit hL hn in
/-- The call that delivers the byte at `m`. -/
theorem exists_call {m : ℕ} : ∀ {k : ℕ}, m < total L n k →
    ∃ j < k, total L n j ≤ m ∧ m < total L n j + got L n j
  | 0, h => by simp at h
  | k + 1, h => by
    rw [total_succ] at h
    by_cases hm : m < total L n k
    · obtain ⟨j, hj, hle, hlt⟩ := exists_call hm
      exact ⟨j, by omega, hle, hlt⟩
    · exact ⟨k, by omega, by omega, h⟩

end

theorem length_piece (content : List UInt8) (n : ℕ → ℕ) (j : ℕ) :
    (piece content n j).length = got content.length n j := by
  simp only [piece, List.length_take, List.length_drop, got]
  omega

theorem length_delivered (content : List UInt8) (n : ℕ → ℕ) (k : ℕ) :
    (delivered content n k).length = total content.length n k := by
  simp only [delivered, List.length_flatMap, length_piece, total]

section

variable {content : List UInt8} (hL : 0 < content.length) (hn : ∀ j, 1 ≤ n j)
include hL hn


/-- What comes to stand at a place of the result. -/
theorem getElem?_delivered {j k t : ℕ} (hj : j < k) (ht : t < got content.length n j) :
    (delivered content n k)[total content.length n j + t]? =
      content[pos content.length n j + t]? := by
  induction k with
  | zero => omega
  | succ k ih =>
    have hsplit : delivered content n (k + 1) = delivered content n k ++ piece content n k := by
      simp [delivered, List.range_succ]
    have hlen := length_delivered content n k
    rw [hsplit]
    rcases Nat.lt_succ_iff_lt_or_eq.1 hj with hj | rfl
    · have hmono := total_mono hL hn (Nat.succ_le_of_lt hj)
      rw [total_succ] at hmono
      rw [List.getElem?_append_left (by omega), ih hj]
    · rw [List.getElem?_append_right (by omega), hlen, Nat.add_sub_cancel_left, piece,
        List.getElem?_take_of_lt ht, List.getElem?_drop]

/-- The byte at `m` of the result is the one at `m` in the first piece, and after it one from before
`m`, from the last byte of the first piece on. -/
theorem exists_source (h0 : n 0 ≤ content.length) {m : ℕ} (hm : m < total content.length n k) :
    ∃ m', (delivered content n k)[m]? = content[m']? ∧
      (m' = m ∧ m < n 0 ∨ m' < m ∧ n 0 ≤ m' + 1 ∧ n 0 ≤ m) := by
  obtain ⟨j, hj, hle, hlt⟩ := exists_call hm
  have hget := getElem?_delivered hL hn hj (t := m - total content.length n j) (by omega)
  rw [Nat.add_sub_of_le hle] at hget
  refine ⟨_, hget, ?_⟩
  have hone := total_one content.length n
  rcases j with _ | j
  · rw [total_succ] at hone
    exact Or.inl ⟨by simp [pos], by omega⟩
  · have hpos := pos_mono hL hn (show 1 ≤ j + 1 by omega)
    have htotal := total_eq hL hn (j + 1)
    have htotal₁ := total_eq hL hn 1
    exact Or.inr (by omega)

/-- From the last byte of the first piece on the file has one byte only. -/
def Uniform (content : List UInt8) (n : ℕ → ℕ) : Prop :=
  ∀ m, n 0 ≤ m → m < content.length → content[m]? = content[n 0 - 1]?

/-- If the first piece is not all of the file and nothing is delivered beyond its length, no call
delivers less than it was asked for. -/
theorem sum_eq_total (h0 : n 0 < content.length) (hk : total content.length n k ≤ content.length) :
    ((List.range k).map n).sum = total content.length n k := by
  refine congrArg List.sum (List.map_congr_left fun j hj => ?_)
  have hmono := total_mono hL hn (Nat.succ_le_of_lt (List.mem_range.1 hj))
  have heq := total_eq hL hn j
  rw [total_succ] at hmono
  rw [got] at hmono ⊢
  rcases j with _ | j
  · rw [pos]
    omega
  · omega

/-- If the sizes add up to the length, so do the lengths of the pieces. -/
theorem total_eq_sum (h : ((List.range k).map n).sum ≤ content.length) :
    total content.length n k = ((List.range k).map n).sum := by
  induction k with
  | zero => rfl
  | succ k ih =>
    rw [List.range_succ, List.map_append, List.sum_append, List.map_singleton,
      List.sum_singleton] at h ⊢
    have heq := total_eq hL hn k
    rw [total_succ, got, ih (by omega)]
    omega

theorem uniform_of_delivered_eq (h0 : n 0 < content.length)
    (h : delivered content n k = content) : Uniform content n := by
  have hlen : total content.length n k = content.length := by
    rw [← length_delivered, h]
  intro m hm hlt
  -- the byte at `m` comes from a place before `m`
  induction m using Nat.strongRecOn with
  | ind m ih =>
    obtain ⟨m', hsource, ⟨-, hfirst⟩ | ⟨hlt', hge, -⟩⟩ :=
      exists_source hL hn (Nat.le_of_lt h0) (hlen ▸ hlt)
    · omega
    · rw [h] at hsource
      rw [hsource]
      by_cases hm' : n 0 ≤ m'
      · exact ih m' hlt' hm' (by omega)
      · rw [show m' = n 0 - 1 by omega]

theorem delivered_eq_of_uniform (h0 : n 0 < content.length)
    (hk : total content.length n k = content.length) (hu : Uniform content n) :
    delivered content n k = content := by
  refine List.ext_getElem? fun m => ?_
  by_cases hm : m < content.length
  · obtain ⟨m', hsource, ⟨rfl, -⟩ | ⟨hlt', hge, hle⟩⟩ :=
      exists_source hL hn (Nat.le_of_lt h0) (hk ▸ hm)
    · exact hsource
    · rw [hsource, hu m hle hm]
      by_cases hm' : n 0 ≤ m'
      · exact hu m' hm' (by omega)
      · rw [show m' = n 0 - 1 by omega]
  · have hlen := length_delivered content n k
    rw [List.getElem?_eq_none (by omega), List.getElem?_eq_none (by omega)]

/-- The pieces up to the first that reaches the length of the file. -/
theorem delivered_eq_iff (hk : content.length ≤ total content.length n k)
    (hfirst : ∀ j < k, total content.length n j < content.length) :
    delivered content n k = content ↔
      content.length ≤ n 0 ∨
        (∃ k', ((List.range k').map n).sum = content.length) ∧ Uniform content n := by
  by_cases h0 : content.length ≤ n 0
  · have hone := total_one content.length n
    have hk1 : k = 1 := by
      rcases k with _ | _ | k
      · rw [total_zero] at hk
        omega
      · rfl
      · have := hfirst 1 (by omega)
        omega
    subst hk1
    refine iff_of_true ?_ (Or.inl h0)
    simp [delivered, piece, pos, got, h0]
  · rw [or_iff_right h0]
    have h0 : n 0 < content.length := by omega
    constructor
    · intro h
      have hlen : total content.length n k = content.length := by
        rw [← length_delivered, h]
      exact ⟨⟨k, (sum_eq_total hL hn h0 (by omega)).trans hlen⟩,
        uniform_of_delivered_eq hL hn h0 h⟩
    · rintro ⟨⟨k', hsum⟩, hu⟩
      have htotal := total_eq_sum hL hn (Nat.le_of_eq hsum)
      have hle : k ≤ k' := by
        by_contra hlt
        have := hfirst k' (by omega)
        omega
      have hmono := total_mono hL hn hle
      exact delivered_eq_of_uniform hL hn h0 (by omega) hu

end

end Pieces

/-! ## Successive calls -/

/-- The first `k` calls. -/
def reads (i : ℕ) (n : ℕ → ℕ) (k : ℕ) : List Call := (List.range k).map fun j => .read i (n j)

/-- What they return. -/
def outputs (content : List UInt8) (i : ℕ) (n : ℕ → ℕ) (k : ℕ) : List Output :=
  (List.range k).map fun j => ⟨i, Pieces.piece content n j ++ [0], Pieces.got content.length n j⟩

theorem run_append {cs' : List Call} {s'' : Files} {outs' : List Output}
    (hrun' : s'.run mem cs' = .ok (s'', outs')) : ∀ {cs : List Call} {s : Files}
    {outs : List Output}, s.run mem cs = .ok (s', outs) →
      s.run mem (cs ++ cs') = .ok (s'', outs ++ outs')
  | [], s, outs, hrun => by
    obtain ⟨rfl, rfl⟩ := Prod.mk.inj (Except.ok.inj hrun)
    exact hrun'
  | c :: cs, s, outs, hrun => by
    obtain ⟨⟨s₁, outs₁⟩, hstep, hrun⟩ := Run.bind_eq_ok.1 hrun
    obtain ⟨⟨s₂, outs₂⟩, hrest, hok⟩ := Run.bind_eq_ok.1 hrun
    obtain ⟨rfl, rfl⟩ := Prod.mk.inj (Except.ok.inj hok.symm)
    rw [List.cons_append, List.append_assoc]
    exact run_cons hstep (run_append hrun' hrest)

theorem run_reads (h : Stored mem (s.fd i) content) (hnul : 0 ∉ content) (h0 : s.bytesdone = 0)
    {n : ℕ → ℕ} (hL : 0 < content.length) (hn : ∀ j, 1 ≤ n j) : ∀ k,
    s.run mem (reads i n k) =
      .ok (⟨Pieces.pos content.length n k, s.fd⟩, outputs content i n k)
  | 0 => by
    rw [show (⟨Pieces.pos content.length n 0, s.fd⟩ : Files) = s from by
      rw [Pieces.pos, Int.ofNat_zero, ← h0]]
    rfl
  | k + 1 => by
    have hread := readFile_stored (s := ⟨Pieces.pos content.length n k, s.fd⟩) (n := n k) h hnul
      rfl (Pieces.pos_lt hL k) (hn k)
    have hstep : step mem ⟨Pieces.pos content.length n k, s.fd⟩ (.read i (n k)) =
        .ok (⟨Pieces.pos content.length n (k + 1), s.fd⟩,
          [⟨i, Pieces.piece content n k ++ [0], Pieces.got content.length n k⟩]) :=
      Run.bind_eq_ok.2 ⟨_, hread, rfl⟩
    have hrun := run_append (run_cons hstep (run_nil mem _)) (run_reads h hnul h0 hL hn k)
    simpa [reads, outputs, List.range_succ] using hrun

theorem take_outputs {n : ℕ → ℕ} {j k : ℕ} (h : j ≤ k) :
    (outputs content i n k).take j = outputs content i n j := by
  rw [outputs, ← List.map_take, List.take_range, Nat.min_eq_left h]
  rfl

theorem sum_ret_outputs (content : List UInt8) (i : ℕ) (n : ℕ → ℕ) (k : ℕ) :
    ((outputs content i n k).map Output.ret).sum = Pieces.total content.length n k := by
  rw [outputs, List.map_map]
  rfl

theorem flatMap_outputs (content : List UInt8) (i : ℕ) (n : ℕ → ℕ) (k : ℕ) :
    (outputs content i n k).flatMap (fun o => o.buf.take o.ret) = Pieces.delivered content n k := by
  have hpiece : ∀ j, (Pieces.piece content n j ++ [0]).take (Pieces.got content.length n j)
      = Pieces.piece content n j := fun j => List.take_left' (Pieces.length_piece content n j)
  rw [outputs, List.flatMap_map]
  simp only [hpiece]
  rfl

/-- Reads with buffers of sizes `n 0`, `n 1`, … until as many bytes have been delivered as the file
has: no call delivers more than it was asked for or reads outside of the file.  What they have
delivered is the file exactly if the first buffer takes all of it, or if the sizes add up to its
length and from the last byte of the first piece on it has one byte only. -/
theorem reads_back_iff (h : Stored mem (s.fd i) content) (hnul : 0 ∉ content)
    (h0 : s.bytesdone = 0) (n : ℕ → ℕ) (hn : ∀ j, 1 ≤ n j) :
    ∃ k s' outs, s.run mem (reads i n k) = .ok (s', outs) ∧
      content.length ≤ (outs.map Output.ret).sum ∧
      (∀ j < k, ((outs.take j).map Output.ret).sum < content.length) ∧
      (∀ j o, outs[j]? = some o → o.ret ≤ n j) ∧
      (∀ j < k, ∃ t outs', s.run mem (reads i n j) = .ok (t, outs') ∧
        (s.fd i).addr + 512 ≤ t.fileaddr (s.fd i) ∧
        t.fileaddr (s.fd i) + (t.bytestoRead (s.fd i) (n j)).toNat ≤
          (s.fd i).addr + 512 + content.length) ∧
      (outs.flatMap (fun o => o.buf.take o.ret) = content ↔
        content.length ≤ n 0 ∨
          (∃ k', ((List.range k').map n).sum = content.length) ∧
            ∀ m, n 0 ≤ m → m < content.length → content[m]? = content[n 0 - 1]?) := by
  rcases Nat.eq_zero_or_pos content.length with hL | hL
  · refine ⟨0, s, [], rfl, by simp [hL], by simp, by simp, by simp, ?_⟩
    rw [List.length_eq_zero_iff.1 hL]
    simp
  · obtain ⟨k, hk, hfirst⟩ := Pieces.exists_first hL hn
    refine ⟨k, _, _, run_reads h hnul h0 hL hn k, ?_, fun j hj => ?_, fun j o ho => ?_,
      fun j hj => ⟨_, _, run_reads h hnul h0 hL hn j, ?_⟩, ?_⟩
    · rw [sum_ret_outputs]
      exact hk
    · rw [take_outputs (Nat.le_of_lt hj), sum_ret_outputs]
      exact hfirst j hj
    · obtain ⟨hj, rfl⟩ := List.getElem?_eq_some_iff.1 ho
      simp only [outputs, List.getElem_map, List.getElem_range]
      exact Nat.min_le_left _ _
    · have hpos := Pieces.pos_lt (n := n) hL j
      rw [h.fileaddr rfl hpos, h.bytestoRead rfl (Nat.le_of_lt hpos)]
      omega
    · rw [flatMap_outputs]
      exact Pieces.delivered_eq_iff hL hn hk hfirst

/-- Memory with the alphabet in it, over and over. -/
def letters (x : ℕ) : UInt8 := .ofNat (65 + x % 26)

/-- A file of ten letters. -/
def tenLetters : File := ⟨[97], 10, 0x200000⟩

theorem tenLetters_stored :
    Stored letters tenLetters [75, 76, 77, 78, 79, 80, 81, 82, 83, 84] where
  size := rfl
  lt := by decide
  fits := by decide
  data := by decide
  name := by decide

/-- It is read with buffers of 16 bytes. -/
theorem reads_back_letters : ∃ k s' outs,
    run letters ⟨0, fun _ => tenLetters⟩ (reads 0 (fun _ => 16) k) = .ok (s', outs) ∧
      outs.flatMap (fun o => o.buf.take o.ret) = [75, 76, 77, 78, 79, 80, 81, 82, 83, 84] := by
  obtain ⟨k, s', outs, hrun, -, -, -, -, hiff⟩ := reads_back_iff (s := ⟨0, fun _ => tenLetters⟩)
    (i := 0) tenLetters_stored (by decide) rfl (fun _ => 16) (fun _ => by decide)
  exact ⟨k, s', outs, hrun, hiff.2 (Or.inl (by decide))⟩

/-- With buffers of 5 bytes, two calls deliver ten bytes, with the fifth letter twice and without
the tenth. -/
theorem reads_repeat_byte : ∃ s' outs,
    run letters ⟨0, fun _ => tenLetters⟩ (reads 0 (fun _ => 5) 2) = .ok (s', outs) ∧
      (outs.map Output.ret).sum = 10 ∧
      outs.flatMap (fun o => o.buf.take o.ret) = [75, 76, 77, 78, 79, 79, 80, 81, 82, 83] :=
  ⟨_, _, rfl, by decide, by decide⟩

end Files

end Bgox
