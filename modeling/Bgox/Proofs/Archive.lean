import Bgox.Lib.Run
import Bgox.Tarfs
import Bgox.Proofs.Strings

/-!
# Archives

`Member.encode` writes a member as `ustar` does, and `init_tarfs` reads back what was written
(`initTarfs_archive`).  It is at a header at the start of every turn of its loop
(`readEntries_archive`): `atoi` and `octTodec` give the size of the member, and `skip` the length of
its data with the zeros after it.
-/

namespace Bgox

open Run (bind_eq_ok)

namespace Tarfs

/-- A member of an archive, with the fields of its header that are not read. -/
structure Member where
  name : List UInt8
  content : List UInt8
  dir : Bool
  /-- `mode`, `uid` and `gid`. -/
  ids : List UInt8
  /-- `mtime` and `checksum`. -/
  times : List UInt8
  /-- What comes after the first byte of `linkname`. -/
  rest : List UInt8
  name_pos : 0 < name.length
  name_lt : name.length < 100
  name_ne : 0 ∉ name
  length_ids : ids.length = 24
  length_times : times.length = 20
  length_rest : rest.length = 354

namespace Member

def typeflag (m : Member) : UInt8 := if m.dir then 53 else 48

def header (m : Member) : List UInt8 :=
  m.name ++ List.replicate (100 - m.name.length) 0 ++ m.ids ++ octDigits 11 m.content.length ++ [0]
    ++ m.times ++ [m.typeflag] ++ [0] ++ m.rest

/-- The number of zeros up to the next multiple of 512. -/
def padding (n : ℕ) : ℕ := (512 - n % 512) % 512

def encode (m : Member) : List UInt8 :=
  m.header ++ m.content ++ List.replicate (padding m.content.length) 0

/-- What is kept of a member with its header at `off`. -/
def entry (start off : ℕ) (m : Member) : TarfsE :=
  ⟨m.name, m.content.length, (start + off) % 2 ^ 64, if m.dir then TYPE_DIRECTORY else TYPE_FILE⟩

end Member

def archive (ms : List Member) : List UInt8 := ms.flatMap Member.encode ++ List.replicate 512 0

/-- The entries of members that are stored one after the other from `off` on. -/
def entries (start : ℕ) : ℕ → List Member → List TarfsE
  | _, [] => []
  | off, m :: ms => m.entry start off :: entries start (off + m.encode.length) ms

namespace Member

variable (m : Member) (t : List UInt8)

theorem length_header : m.header.length = 512 := by
  have := m.name_lt
  simp only [header, List.length_append, List.length_replicate, List.length_cons, List.length_nil,
    length_octDigits, m.length_ids, m.length_times, m.length_rest]
  omega

theorem length_encode :
    m.encode.length = 512 + m.content.length + padding m.content.length := by
  rw [encode, List.length_append, List.length_append, length_header, List.length_replicate]

theorem header_name : ∃ t', m.header ++ t = m.name ++ 0 :: t' := by
  have hlt := m.name_lt
  obtain ⟨k, hk⟩ : ∃ k, 100 - m.name.length = k + 1 := ⟨99 - m.name.length, by omega⟩
  simp only [header, hk, List.replicate_succ, List.append_assoc, List.cons_append]
  exact ⟨_, rfl⟩

theorem header_size :
    ∃ t', (m.header ++ t).drop 124 = octDigits 11 m.content.length ++ 0 :: t' := by
  have hlen : (m.name ++ List.replicate (100 - m.name.length) 0 ++ m.ids).length = 124 := by
    have := m.name_lt
    simp only [List.length_append, List.length_replicate, m.length_ids]
    omega
  refine ⟨m.times ++ m.typeflag :: 0 :: (m.rest ++ t), ?_⟩
  refine Eq.trans (congrArg (List.drop 124) ?_) (List.drop_left' hlen)
  simp only [header, List.append_assoc, List.cons_append, List.nil_append]

theorem header_typeflag : ∃ t', (m.header ++ t).drop 156 = m.typeflag :: 0 :: t' := by
  have hlen : (m.name ++ List.replicate (100 - m.name.length) 0 ++ m.ids
      ++ octDigits 11 m.content.length ++ [0] ++ m.times).length = 156 := by
    have := m.name_lt
    simp only [List.length_append, List.length_replicate, List.length_cons, List.length_nil,
      length_octDigits, m.length_ids, m.length_times]
    omega
  refine ⟨m.rest ++ t, Eq.trans (congrArg (List.drop 156) ?_) (List.drop_left' hlen)⟩
  simp only [header, List.append_assoc, List.cons_append, List.nil_append]

theorem atoi_typeflag :
    atoi (m.typeflag :: 0 :: t) = .ok (if m.dir then TYPE_DIRECTORY else TYPE_FILE) := by
  have hdigit : ∀ c : UInt8, c ≠ 45 → c ≠ 0 →
      atoi (c :: 0 :: t) = .ok (int (0 * 10 + char c - 48)) := fun c hminus hzero => by
    rw [atoi_of_ne hminus, atoiFrom, if_neg hzero, atoiFrom, if_pos rfl]
  unfold typeflag
  cases m.dir
  · rw [if_neg (by decide), hdigit 48 (by decide) (by decide)]
    decide
  · rw [if_pos rfl, hdigit 53 (by decide) (by decide)]
    decide

theorem readEntry_header (start off : ℕ) (hlt : m.content.length < 8 ^ 9) :
    readEntry start off ⟨m.header ++ t⟩ = .ok (m.entry start off) := by
  obtain ⟨t₁, hname⟩ := m.header_name t
  obtain ⟨t₂, hsize⟩ := m.header_size t
  obtain ⟨t₃, htype⟩ := m.header_typeflag t
  have hdec := readAsDecimal_lt hlt
  obtain ⟨x, hatoi, hx⟩ := octTodec_atoi (k := 10) (show m.content.length < 8 ^ 11 by omega)
    (by omega) t₂
  have hcpy : strCpyTo 100 (m.header ++ t) = .ok m.name := by
    rw [strCpyTo, hname, strCpy_append m.name_ne]
    exact if_pos m.name_lt
  refine bind_eq_ok.2 ⟨x, ?_, bind_eq_ok.2 ⟨m.name, hcpy, bind_eq_ok.2
    ⟨if m.dir then TYPE_DIRECTORY else TYPE_FILE, ?_, ?_⟩⟩⟩
  · exact (congrArg atoi hsize).trans hatoi
  · exact (congrArg atoi htype).trans (m.atoi_typeflag t₃)
  · have haddr : ((start + off : ℤ) % 2 ^ 64).toNat = (start + off) % 2 ^ 64 := by omega
    rw [hx, int_of_lt (by omega) (by omega), haddr]
    rfl

/-- The next header is where the encoding ends. -/
theorem skip_eq : skip m.content.length = m.encode.length := by
  have htmod : (m.content.length : ℤ).tmod 512 = (m.content.length % 512 : ℕ) :=
    (Int.ofNat_tmod _ 512).symm
  rw [length_encode, skip, skipSize, padding, htmod]
  split_ifs <;> omega

end Member

/-! ## The loop of `init_tarfs` -/

theorem headerAt_append (before t : List UInt8) :
    headerAt (before ++ t) before.length = .ok ⟨t⟩ := by
  rw [headerAt, if_neg (by omega), Int.toNat_natCast, List.drop_left]

/-- It is at the header of the first of `ms`, with `before` behind it. -/
theorem readEntries_archive (start : ℕ) (rest : List UInt8) : ∀ (ms : List Member) {left : ℕ}
    (before : List UInt8) (list : List TarfsE), ms.length ≤ left →
    (before ++ archive ms).length < 2 ^ 27 →
    readEntries start (before ++ (archive ms ++ rest)) left before.length list
      = .ok (list ++ entries start before.length ms)
  | [], left, before, list, _, _ => by
    have hhead := headerAt_append before (archive [] ++ rest)
    have hlen : strLen (archive [] ++ rest) = .ok 0 := rfl
    rw [entries, List.append_nil]
    cases left <;>
      exact bind_eq_ok.2 ⟨_, hhead, bind_eq_ok.2 ⟨0, hlen, rfl⟩⟩
  | m :: ms, 0, before, list, hleft, _ => by simp at hleft
  | m :: ms, left + 1, before, list, hleft, hlt => by
    -- what is left of the archive after this member
    obtain ⟨t, ht⟩ : ∃ t, archive (m :: ms) ++ rest = m.header ++ t := by
      simp only [archive, List.flatMap_cons, Member.encode, List.append_assoc]
      exact ⟨_, rfl⟩
    have hsplit : before ++ (archive (m :: ms) ++ rest)
        = (before ++ m.encode) ++ (archive ms ++ rest) := by
      simp only [archive, List.flatMap_cons, List.append_assoc]
    have hlen : (before ++ archive (m :: ms)).length
        = before.length + m.encode.length + (archive ms).length := by
      simp only [archive, List.flatMap_cons, List.length_append]
      omega
    have hsize := m.length_encode
    obtain ⟨t₁, hname⟩ := m.header_name t
    have hstr : strLen (m.header ++ t) = .ok m.name.length := by
      rw [hname, strLen_append m.name_ne]
    have hentry := m.readEntry_header t start before.length (by omega)
    have hnext : int (before.length + skip (m.entry start before.length).size)
        = (before ++ m.encode).length := by
      rw [Member.entry, m.skip_eq, int_of_lt (by omega) (by omega), List.length_append]
      rfl
    have hhead : headerAt (before ++ (archive (m :: ms) ++ rest)) before.length
        = .ok ⟨m.header ++ t⟩ := by
      rw [ht]
      exact headerAt_append before _
    refine bind_eq_ok.2 ⟨_, hhead, bind_eq_ok.2 ⟨_, hstr, ?_⟩⟩
    rw [if_pos m.name_pos]
    refine bind_eq_ok.2 ⟨_, hentry, ?_⟩
    have hrest := readEntries_archive start rest ms (before ++ m.encode)
      (list ++ [m.entry start before.length]) (Nat.le_of_succ_le_succ hleft)
      (by rw [List.length_append, List.length_append]; omega)
    rw [hnext, hsplit, hrest, List.length_append, List.append_assoc]
    rfl

/-! ## `open` -/

variable {start off : ℕ} {ms : List Member} {name : List UInt8}

/-- A name that no file has, and it may be that of a directory. -/
theorem lookup_none : ∀ {ms : List Member} {off : ℕ},
    (∀ m ∈ ms, m.dir = false → m.name ≠ name) → lookup name (entries start off ms) = none
  | [], _, _ => rfl
  | m :: ms, off, h => by
    rw [entries, lookup, openLoop]
    by_cases hname : strCmp name (m.entry start off).name = 1
    · have hdir : m.dir = true := by
        by_contra hfile
        exact h m (List.mem_cons_self ..) (by simpa using hfile) (strCmp_eq_one.1 hname).symm
      rw [if_neg, if_pos]
      · rfl
      · exact ⟨hname, if_pos hdir⟩
      · rintro ⟨-, htype⟩
        simp [Member.entry, hdir, TYPE_DIRECTORY, TYPE_FILE] at htype
    · rw [if_neg fun hc => hname hc.1, if_neg fun hc => hname hc.1]
      exact lookup_none fun m' hm' => h m' (List.mem_cons_of_mem _ hm')

theorem lookup_some {m : Member} {after : List Member} (hfile : m.dir = false) :
    ∀ {before : List Member} {off : ℕ}, m.name ∉ before.map Member.name →
    lookup m.name (entries start off (before ++ m :: after))
      = some ⟨m.name, m.content.length,
          (start + (off + (before.flatMap Member.encode).length)) % 2 ^ 64⟩
  | [], off, _ => by
    rw [List.nil_append, entries, lookup, openLoop,
      if_pos ⟨strCmp_eq_one.2 rfl, by simp [Member.entry, hfile]⟩]
    rfl
  | b :: before, off, hnew => by
    obtain ⟨hb, hnew⟩ := not_or.1 (mt List.mem_cons.2 hnew)
    have hne : strCmp m.name (b.entry start off).name ≠ 1 := fun hc => hb (strCmp_eq_one.1 hc)
    rw [List.cons_append, entries, lookup, openLoop, if_neg fun hc => hne hc.1,
      if_neg fun hc => hne hc.1, ← lookup, lookup_some hfile hnew, List.flatMap_cons,
      List.length_append, Nat.add_assoc]

/-- The loop comes to its end for a name that no member has. -/
theorem openLoop_eq_none : ∀ {ms : List Member} {off : ℕ},
    openLoop name (entries start off ms) = none ↔ ∀ m ∈ ms, m.name ≠ name
  | [], _ => by simp [entries, openLoop]
  | m :: ms, off => by
    rw [entries, openLoop, List.forall_mem_cons]
    by_cases hname : m.name = name
    · have hcmp : strCmp name name = 1 := strCmp_eq_one.2 rfl
      cases hdir : m.dir <;> simp [hcmp, hname, Member.entry, hdir, TYPE_FILE, TYPE_DIRECTORY]
    · have hcmp : strCmp name (m.entry start off).name ≠ 1 := fun hc =>
        hname (strCmp_eq_one.1 hc).symm
      rw [if_neg fun hc => hcmp hc.1, if_neg fun hc => hcmp hc.1, openLoop_eq_none]
      exact (and_iff_right hname).symm

theorem length_entries : ∀ {ms : List Member} {off : ℕ}, (entries start off ms).length = ms.length
  | [], _ => rfl
  | m :: ms, off => by rw [entries, List.length_cons, length_entries, List.length_cons]

theorem drop_content {before after : List Member} {m : Member} (rest : List UInt8) :
    ((archive (before ++ m :: after) ++ rest).drop
      ((before.flatMap Member.encode).length + 512)).take m.content.length = m.content := by
  have hlen : (before.flatMap Member.encode ++ m.header).length
      = (before.flatMap Member.encode).length + 512 := by
    rw [List.length_append, m.length_header]
  have hsplit : archive (before ++ m :: after) ++ rest
      = (before.flatMap Member.encode ++ m.header) ++ (m.content
        ++ (List.replicate (Member.padding m.content.length) 0 ++ (archive after ++ rest))) := by
    simp only [archive, List.flatMap_append, List.flatMap_cons, Member.encode, List.append_assoc]
  rw [hsplit, ← hlen, List.drop_left, List.take_left]

theorem initTarfs_archive (start : ℕ) (rest : List UInt8) (hcount : ms.length ≤ TARFS_MAX)
    (hlt : (archive ms).length < 2 ^ 27) :
    initTarfs start (archive ms ++ rest) = .ok ⟨entries start 0 ms, ms.length⟩ := by
  refine bind_eq_ok.2 ⟨_, readEntries_archive start rest ms [] [] hcount hlt, ?_⟩
  rw [List.nil_append, List.length_nil, length_entries]
  rfl

theorem openFile_entries (start : ℕ) (ms : List Member) (name : List UInt8) :
    openFile ⟨entries start 0 ms, ms.length⟩ name = lookup name (entries start 0 ms) := by
  rw [openFile, List.take_of_length_le (Nat.le_of_eq length_entries)]

theorem openFile_archive {before after : List Member} {m : Member} (start : ℕ)
    (hnames : ((before ++ m :: after).map Member.name).Nodup) (hfile : m.dir = false) :
    openFile ⟨entries start 0 (before ++ m :: after), (before ++ m :: after).length⟩ m.name
      = some ⟨m.name, m.content.length,
          (start + (before.flatMap Member.encode).length) % 2 ^ 64⟩ := by
  have hnew : m.name ∉ before.map Member.name := by
    rw [List.map_append, List.nodup_append] at hnames
    exact fun hm => hnames.2.2 _ hm _ (List.mem_cons_self ..) rfl
  rw [openFile_entries, lookup_some hfile hnew, Nat.zero_add]

/-- The directory `bin/`. -/
def binDir : Member :=
  ⟨[98, 105, 110, 47], [], true, List.replicate 24 0, List.replicate 20 0, List.replicate 354 0,
    by decide, by decide, by decide, List.length_replicate, List.length_replicate,
    List.length_replicate⟩

/-- The file `bin/ls`, of two bytes. -/
def binLs : Member :=
  ⟨[98, 105, 110, 47, 108, 115], [104, 105], false, List.replicate 24 0, List.replicate 20 0,
    List.replicate 354 0, by decide, by decide, by decide, List.length_replicate,
    List.length_replicate, List.length_replicate⟩

end Tarfs

end Bgox
