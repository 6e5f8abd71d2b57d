import Bgox.Dir
import Bgox.Proofs.Archive
import Bgox.Proofs.Format

/-!
# What is listed

Over the members of an archive: `open` finds every file, and nothing else, but has no room for its
message about a name of 85 bytes (`tar_round_trip`); `read_dir` lists those that come after the
header of the directory and start with its name, at whatever depth (`readDir_lists`), and `list_dir`
every member, if their names leave room in the array of `kprintf` for what is printed behind them
(`listDir_eq`).
-/

namespace Bgox

open Keyboard (chars)
open Run (bind_eq_ok)

/-! ## `strn_cmp` -/

theorem strnCmp_eq_zero : ∀ {t : List UInt8} (s : List UInt8), 0 ∉ t →
    (strnCmp s t t.length = 0 ↔ t <+: s)
  | [], s, _ => by simp [strnCmp]
  | d :: t, [], h => by
    have hd : d.toNat ≠ 0 := fun h0 => h (List.mem_cons.2 (Or.inl (UInt8.toNat_inj.1 h0.symm)))
    simp [strnCmp, hd]
  | d :: t, c :: s, h => by
    rw [List.mem_cons, not_or] at h
    rw [List.length_cons, strnCmp, List.cons_prefix_cons]
    by_cases hcd : c = d
    · rw [if_pos hcd, strnCmp_eq_zero s h.2]
      simp [hcd]
    · have hne : c.toNat ≠ d.toNat := fun heq => hcd (UInt8.toNat_inj.1 heq)
      rw [if_neg hcd]
      constructor
      · intro hzero
        omega
      · intro hpre
        exact absurd hpre.1.symm hcd

/-! ## A string and the text after it -/

/-- A directive for a string, with text before and after it. -/
def strFormat (lead text s : List UInt8) (hlead : Plain lead) (htext : Plain text) (hs : 0 ∉ s) :
    Format :=
  ⟨lead, [(.str s [], text)], hlead, by simpa using ⟨hs, htext⟩⟩

theorem kprintf_strFormat (f : Frame) {lead text s : List UInt8} (hlead : Plain lead)
    (htext : Plain text) (hs : 0 ∉ s) (hlen : lead.length < FMT_LEN)
    (hroom : text.length + 2 < FMT_LEN) :
    kprintf f (lead ++ 37 :: 115 :: text ++ [0]) [.ptr (s ++ [0])] =
      if s.length + text.length < FMT_LEN then .ok [lead, s ++ text] else .error .wild := by
  have hsource : lead ++ 37 :: 115 :: text ++ [0]
      = (strFormat lead text s hlead htext hs).source ++ 0 :: [] := by
    simp [strFormat, Format.source, row, Directive.letter]
  have hrow : ∀ p ∈ (strFormat lead text s hlead htext hs).parts, (row p).length < FMT_LEN := by
    simp only [strFormat, List.mem_singleton, forall_eq, row, List.length_cons]
    omega
  have hfit : (strFormat lead text s hlead htext hs).RowsFit := fun i p hi =>
    Or.inl (hrow p (List.mem_of_getElem? hi))
  have hone : (strFormat lead text s hlead htext hs).parts.length ≤ 9 := Nat.le_add_left 1 8
  rw [hsource]
  by_cases hshown : s.length + text.length < FMT_LEN
  · rw [if_pos hshown]
    refine Format.kprintf_format hone hlen ?_ hfit
    simpa [strFormat, shown, Directive.expansion] using hshown
  · rw [if_neg hshown]
    obtain ⟨cells, hcells, heq⟩ := Format.kprintf_rows f [] hone hlen
      (fun p hp => Nat.le_succ_of_le (Nat.le_of_lt (hrow p hp))) hfit
    obtain ⟨t, ht⟩ := hcells 0 _ rfl
    have hpiece := kprintfPiece_str_error f [] t [] hs htext.zero_notMem (by omega)
      (Nat.not_lt.1 hshown)
    have hloop : kprintfLoop f cells 1 1 [.ptr (s ++ [0])] = .error .wild := by
      rw [Nat.add_zero] at ht
      rw [kprintfLoop, ht]
      exact congrArg (· >>= _) hpiece
    exact heq.trans (congrArg (· >>= _) hloop)

namespace Tarfs

variable {f : ℕ → Frame} {start : ℕ} {ms before after : List Member} {m d : Member}

/-! ## `open` -/

/-- The part of the message after the name. -/
def noSuchText : List UInt8 :=
  chars [':', ' ', 'N', 'o', ' ', 's', 'u', 'c', 'h', ' ', 'f', 'i', 'l', 'e', '\n']

theorem kprintf_noSuchFile (f : Frame) {name : List UInt8} (h : 0 ∉ name) :
    kprintf f (noSuchFile ++ [0]) [.ptr (name ++ [0])] =
      if name.length < 85 then .ok [[], name ++ noSuchText] else .error .wild := by
  have hplain : Plain noSuchText := by simp [Plain, noSuchText, chars, Char.toUInt8]
  have hroom : name.length + noSuchText.length < FMT_LEN ↔ name.length < 85 := by
    rw [show noSuchText.length = 15 from rfl, FMT_LEN]
    omega
  rw [show noSuchFile = [] ++ 37 :: 115 :: noSuchText from rfl,
    kprintf_strFormat f (by simp [Plain]) hplain h (by decide) (by decide), if_congr hroom rfl rfl]

theorem openPrints_entries (f : ℕ → Frame) (start : ℕ) (ms : List Member) (name : List UInt8) :
    openPrints f ⟨entries start 0 ms, ms.length⟩ name =
      match openLoop name (entries start 0 ms) with
      | some fd => .ok (fd, [])
      | none => do
        let out ← kprintf (f 0) (noSuchFile ++ [0]) [.ptr (name ++ [0])]
        return (none, out) := by
  have htake : (entries start 0 ms).take ms.length = entries start 0 ms :=
    List.take_of_length_le (Nat.le_of_eq length_entries)
  cases hfound : openLoop name (entries start 0 ms) <;> simp only [openPrints, htake, hfound]

/-- What `open` returns is what the loop has found. -/
theorem openPrints_fst {fs : Tarfs} {name : List UInt8} {fd : Option File}
    {out : List (List UInt8)} (h : openPrints f fs name = .ok (fd, out)) :
    fs.openFile name = fd := by
  unfold openPrints at h
  rw [openFile, lookup]
  split at h
  · rename_i hloop
    obtain ⟨rfl, -⟩ := Prod.mk.inj (Except.ok.inj h)
    rw [hloop]
    rfl
  · rename_i hloop
    obtain ⟨out', -, h⟩ := bind_eq_ok.1 h
    rw [hloop, ← (Prod.mk.inj (Except.ok.inj h)).1]
    rfl

theorem openPrints_some (f : ℕ → Frame) {ms : List Member} {name : List UInt8} {fd : File}
    (h : lookup name (entries start 0 ms) = some fd) :
    openPrints f ⟨entries start 0 ms, ms.length⟩ name = .ok (some fd, []) := by
  rw [openPrints_entries, Option.join_eq_some_iff.1 h]

/-- A name that no file has: the call returns if it is that of a directory, or if there is room for
the message. -/
theorem openPrints_none (f : ℕ → Frame) {ms : List Member} {name : List UInt8} (hnul : 0 ∉ name)
    (hfile : ∀ m ∈ ms, m.dir = false → m.name ≠ name) :
    (∃ out, openPrints f ⟨entries start 0 ms, ms.length⟩ name = .ok (none, out)) ↔
      (∃ m ∈ ms, m.name = name) ∨ name.length < 85 := by
  rw [openPrints_entries]
  rcases hloop : openLoop name (entries start 0 ms) with _ | fd
  · have hmissing := openLoop_eq_none.1 hloop
    have hnone : ¬ ∃ m ∈ ms, m.name = name := fun ⟨m, hm, hname⟩ => hmissing m hm hname
    rw [or_iff_right hnone]
    simp only [kprintf_noSuchFile _ hnul]
    split_ifs with hlen
    · exact ⟨fun _ => hlen, fun _ => ⟨_, rfl⟩⟩
    · exact ⟨fun ⟨_, h⟩ => (nomatch h), fun h => absurd h hlen⟩
  · have hmember : ∃ m ∈ ms, m.name = name := by
      by_contra hnone
      rw [openLoop_eq_none.2 fun m hm hname => hnone ⟨m, hm, hname⟩] at hloop
      cases hloop
    obtain rfl : fd = none := by
      have hjoin : lookup name (entries start 0 ms) = none := lookup_none hfile
      rw [lookup, hloop] at hjoin
      exact hjoin
    exact ⟨fun _ => Or.inl hmember, fun _ => ⟨_, rfl⟩⟩

/-- The entries are those of the members, and the files among them can be opened.  Any other name
gives a null pointer, if the name is short enough or that of a directory; else the message about it
is stored outside of an array. -/
theorem tar_round_trip (f : ℕ → Frame) (start : ℕ) (ms : List Member) (rest : List UInt8)
    (hcount : ms.length ≤ TARFS_MAX) (hnames : (ms.map Member.name).Nodup)
    (hlt : (archive ms).length < 2 ^ 27) :
    ∃ fs, initTarfs start (archive ms ++ rest) = .ok fs ∧ fs.list = entries start 0 ms ∧
      fs.idx = ms.length ∧
      (∀ before m after, ms = before ++ m :: after → m.dir = false →
        let off := (before.flatMap Member.encode).length
        openPrints f fs m.name
            = .ok (some ⟨m.name, m.content.length, (start + off) % 2 ^ 64⟩, []) ∧
          ((archive ms ++ rest).drop (off + 512)).take m.content.length = m.content) ∧
      ∀ name, 0 ∉ name → (∀ m ∈ ms, m.dir = false → m.name ≠ name) →
        ((∃ out, openPrints f fs name = .ok (none, out)) ↔
          (∃ m ∈ ms, m.name = name) ∨ name.length < 85) := by
  refine ⟨_, initTarfs_archive start rest hcount hlt, rfl, rfl, ?_,
    fun name hnul hfile => openPrints_none f hnul hfile⟩
  rintro before m after rfl hfile
  have hopen := openFile_archive start hnames hfile
  rw [openFile_entries] at hopen
  exact ⟨openPrints_some f hopen, drop_content rest⟩

theorem length_bin : (archive [binDir, binLs]).length = 2048 := by
  simp only [archive, List.flatMap_cons, List.flatMap_nil, List.length_append,
    Member.length_encode, List.length_replicate, List.length_nil]
  decide

/-- A directory with one file: both can be looked up, and so can a name there is no file for. -/
theorem tar_round_trip_bin : ∃ fs, initTarfs 0x400000 (archive [binDir, binLs] ++ []) = .ok fs ∧
    fs.idx = 2 ∧
    openPrints (fun _ => Frame.zeros) fs binLs.name
      = .ok (some ⟨binLs.name, 2, 0x400200⟩, []) ∧
    (∃ out, openPrints (fun _ => Frame.zeros) fs binDir.name = .ok (none, out)) ∧
    ∃ out, openPrints (fun _ => Frame.zeros) fs (chars ['p', 's']) = .ok (none, out) := by
  obtain ⟨fs, hinit, -, hidx, hfile, hother⟩ := tar_round_trip (fun _ => Frame.zeros) 0x400000
    [binDir, binLs] [] (by decide) (by decide) (by rw [length_bin]; decide)
  have hopen := (hfile [binDir] binLs [] rfl rfl).1
  rw [List.flatMap_cons, List.flatMap_nil, List.append_nil, Member.length_encode] at hopen
  exact ⟨fs, hinit, hidx, hopen, (hother binDir.name (by decide) (by decide)).2 (by decide),
    (hother _ (by decide) (by decide)).2 (Or.inr (by decide))⟩

/-- For a name of 85 bytes there is one byte too many. -/
theorem open_overruns : ∃ fs, initTarfs 0x400000 (archive [binDir, binLs] ++ []) = .ok fs ∧
    (∀ m ∈ [binDir, binLs], m.name ≠ List.replicate 85 97) ∧
    ∀ f, openPrints f fs (List.replicate 85 97) = .error .wild := by
  have hmissing : ∀ m ∈ [binDir, binLs], m.name ≠ List.replicate 85 97 := by decide
  refine ⟨_, initTarfs_archive 0x400000 [] (by decide) (by rw [length_bin]; decide), hmissing,
    fun f => ?_⟩
  rw [openPrints_entries, openLoop_eq_none.2 hmissing]
  simp only [kprintf_noSuchFile (f 0) (by decide : (0 : UInt8) ∉ List.replicate 85 97)]
  rfl

/-! ## `list_dir` -/

/-- What is printed behind the name. -/
def Member.kind (m : Member) : List UInt8 :=
  chars ([' ', ' ', ' ', ' ', '\t', '\t'] ++
    if m.dir then ['D', 'I', 'R', '\n'] else ['F', 'I', 'L', 'E', '\n'])

theorem kprintf_kind (f : Frame) (m : Member) :
    kprintf f ((if m.dir then dirFormat else fileFormat) ++ [0]) [.ptr (m.name ++ [0])] =
      if m.name.length + m.kind.length < FMT_LEN then .ok [[], m.name ++ m.kind]
      else .error .wild := by
  have hplain : Plain m.kind := by
    cases hm : m.dir <;> simp [Plain, Member.kind, chars, Char.toUInt8, hm]
  have hlen : m.kind.length + 2 < FMT_LEN := by
    unfold Member.kind
    cases m.dir <;> decide
  have hformat : (if m.dir then dirFormat else fileFormat) = [] ++ 37 :: 115 :: m.kind := by
    unfold Member.kind
    cases m.dir <;> rfl
  rw [hformat]
  exact kprintf_strFormat f (by simp [Plain]) hplain m.name_ne (by decide) hlen

theorem listDirLoop_eq (f : ℕ → Frame) : ∀ (ms : List Member) (i off : ℕ),
    listDirLoop f i (entries start off ms) =
      if ∀ m ∈ ms, m.name.length + m.kind.length < FMT_LEN then
        .ok (ms.flatMap fun m => [[], m.name ++ m.kind])
      else .error .wild
  | [], _, _ => by simp [entries, listDirLoop]
  | m :: ms, i, off => by
    have hentry : listDirLoop f i (entries start off (m :: ms)) = (do
        let out ← kprintf (f i) ((if m.dir then dirFormat else fileFormat) ++ [0])
          [.ptr (m.name ++ [0])]
        return out ++ (← listDirLoop f (i + 1) (entries start (off + m.encode.length) ms))) := by
      simp only [entries, listDirLoop, Member.entry]
      cases m.dir <;> rfl
    rw [hentry, kprintf_kind, listDirLoop_eq f ms]
    simp only [List.forall_mem_cons]
    by_cases hm : m.name.length + m.kind.length < FMT_LEN
    · simp only [hm, true_and, if_true]
      split_ifs
      · rfl
      · rfl
    · simp only [hm, false_and, if_false]
      rfl

/-- `list_dir` prints every member of the archive, in order, if each name leaves room for what is
printed behind it; else it stores outside of an array. -/
theorem listDir_eq (f : ℕ → Frame) (rest : List UInt8) (hcount : ms.length ≤ TARFS_MAX)
    (hlt : (archive ms).length < 2 ^ 27) :
    ∃ fs, initTarfs start (archive ms ++ rest) = .ok fs ∧ listDir f fs =
      if ∀ m ∈ ms, m.name.length + m.kind.length < FMT_LEN then
        .ok (ms.flatMap fun m => [[], m.name ++ m.kind])
      else .error .wild := by
  refine ⟨_, initTarfs_archive start rest hcount hlt, ?_⟩
  rw [listDir, List.take_of_length_le (Nat.le_of_eq length_entries)]
  exact listDirLoop_eq f ms 0 0

theorem listDir_eq_bin : ∃ fs, initTarfs 0x400000 (archive [binDir, binLs] ++ []) = .ok fs ∧
    ∃ out, listDir (fun _ => Frame.zeros) fs = .ok out ∧ out.length = 4 := by
  obtain ⟨fs, hinit, hlist⟩ := @listDir_eq 0x400000 [binDir, binLs] (fun _ => Frame.zeros) []
    (by decide) (by rw [length_bin]; decide)
  rw [if_pos (by decide)] at hlist
  exact ⟨fs, hinit, _, hlist, rfl⟩

/-! ## `read_dir` -/

theorem entries_append (off : ℕ) (ms ms' : List Member) : entries start off (ms ++ ms') =
    entries start off ms ++ entries start (off + (ms.flatMap Member.encode).length) ms' := by
  induction ms generalizing off with
  | nil => simp [entries]
  | cons m ms ih => simp [entries, ih, Nat.add_assoc]

/-- Headers are at different addresses, as long as the archive does not go round. -/
theorem addr_bounds {e : TarfsE} : ∀ {ms : List Member} {off : ℕ},
    start + (off + (ms.flatMap Member.encode).length) < 2 ^ 64 → e ∈ entries start off ms →
    start + off ≤ e.addr ∧ e.addr < start + (off + (ms.flatMap Member.encode).length)
  | [], _, _, h => absurd h (by simp [entries])
  | m :: ms, off, hlt, h => by
    have hpos := m.length_encode
    rw [List.flatMap_cons, List.length_append] at hlt ⊢
    rcases List.mem_cons.1 h with rfl | h
    · simp only [Member.entry]
      omega
    · have hrest := addr_bounds (by omega) h
      omega

theorem name_ne_nil {e : TarfsE} : ∀ {ms : List Member} {off : ℕ}, e ∈ entries start off ms →
    e.name ≠ []
  | [], _, h => absurd h (by simp [entries])
  | m :: ms, off, h => by
    rcases List.mem_cons.1 h with rfl | h
    · exact List.ne_nil_of_length_pos m.name_pos
    · exact name_ne_nil h

/-- The members before the directory are passed over. -/
theorem readDirLoop_before {addr : ℕ} (l' : List TarfsE) : ∀ (l : List TarfsE) {i : ℕ}
    {g : List UInt8}, g ≠ [] → (∀ e ∈ l, e.addr ≠ addr ∧ e.name ≠ []) →
    ∃ g', g' ≠ [] ∧ readDirLoop f addr i g none (l ++ l')
      = readDirLoop f addr (i + l.length) g' none l'
  | [], i, g, hg, _ => ⟨g, hg, rfl⟩
  | e :: l, i, g, hg, h => by
    obtain ⟨haddr, hname⟩ := h e List.mem_cons_self
    obtain ⟨g', hg', heq⟩ := readDirLoop_before l' l (i := i + 1) hname
      fun e' he' => h e' (List.mem_cons_of_mem e he')
    refine ⟨g', hg', ?_⟩
    rw [List.cons_append, readDirLoop, if_neg (by simpa using hg), if_neg haddr, heq,
      List.length_cons, Nat.add_assoc, Nat.add_comm 1]

/-- And those after it are listed if they start with its name. -/
theorem readDirLoop_after {addr : ℕ} (d : Member) : ∀ {ms : List Member} {off i : ℕ}
    {g : List UInt8}, g ≠ [] → (∀ e ∈ entries start off ms, e.addr ≠ addr) →
    readDirLoop f addr i g (some d.name) (entries start off ms)
      = .ok ((ms.filter fun m => d.name.isPrefixOf m.name).flatMap fun m => [[10], m.name])
  | [], _, _, _, _, _ => by simp [entries, readDirLoop]
  | m :: ms, off, i, g, hg, h => by
    have hname : m.name ≠ [] := List.ne_nil_of_length_pos m.name_pos
    have hrest := readDirLoop_after d (i := i + 1) hname fun e he => h e (List.mem_cons_of_mem _ he)
    rw [entries, readDirLoop, if_neg (by simpa using hg), if_neg (h _ List.mem_cons_self)]
    simp only [Member.entry, hrest]
    by_cases hpre : d.name <+: m.name
    · have hline := @kprintf_strFormat (f i) [10] [] m.name (by simp [Plain]) (by simp [Plain])
        m.name_ne (by decide) (by decide)
      rw [if_pos (by simpa [FMT_LEN] using m.name_lt), List.append_nil] at hline
      rw [if_pos ((strnCmp_eq_zero m.name d.name_ne).2 hpre), List.filter_cons_of_pos (by simpa)]
      exact bind_eq_ok.2 ⟨_, hline, rfl⟩
    · rw [if_neg (mt (strnCmp_eq_zero m.name d.name_ne).1 hpre),
        List.filter_cons_of_neg (by simpa)]

theorem readDirLoop_empty {addr i : ℕ} : ∀ {l : List TarfsE},
    readDirLoop f addr i [] none l = .ok []
  | [] => rfl
  | _ :: _ => rfl

theorem findDir_entries (hdir : d.dir = true) : ∀ {before : List Member} {off : ℕ},
    d.name ∉ before.map Member.name → findDir d.name (entries start off (before ++ d :: after))
      = some ((start + (off + (before.flatMap Member.encode).length)) % 2 ^ 64)
  | [], off, _ => by
    rw [List.nil_append, entries, findDir,
      if_pos ⟨by simp [Member.entry, hdir], strCmp_eq_one.2 rfl⟩]
    rfl
  | b :: before, off, hnew => by
    obtain ⟨hb, hnew⟩ := not_or.1 (mt List.mem_cons.2 hnew)
    have hne : strCmp (b.entry start off).name d.name ≠ 1 := fun hc => hb (strCmp_eq_one.1 hc).symm
    rw [List.cons_append, entries, findDir, if_neg fun hc => hne hc.2, findDir_entries hdir hnew,
      List.flatMap_cons, List.length_append, Nat.add_assoc]

/-- The whole loop, when there is a name in `entry` before it. -/
theorem readDirLoop_entries (f : ℕ → Frame) {g : List UInt8} (hg : g ≠ [])
    (haddr : start + (archive (before ++ d :: after)).length < 2 ^ 64) :
    readDirLoop f (start + (before.flatMap Member.encode).length) 0 g none
      (entries start 0 (before ++ d :: after))
      = .ok ((after.filter fun m => d.name.isPrefixOf m.name).flatMap fun m => [[10], m.name]) := by
  have hpos := d.length_encode
  simp only [archive, List.flatMap_append, List.flatMap_cons, List.length_append,
    List.length_replicate] at haddr
  rw [entries_append, entries, Nat.zero_add]
  have hbefore : ∀ e ∈ entries start 0 before,
      e.addr ≠ start + (before.flatMap Member.encode).length ∧ e.name ≠ [] := fun e he => by
    have hbounds := addr_bounds (by omega) he
    exact ⟨by omega, name_ne_nil he⟩
  obtain ⟨g', hg', heq⟩ := readDirLoop_before (f := f) (i := 0) _ (entries start 0 before) hg
    hbefore
  rw [heq, readDirLoop, if_neg (by simpa using hg'), if_pos (by simp only [Member.entry]; omega)]
  refine readDirLoop_after d (List.ne_nil_of_length_pos d.name_pos) fun e he => ?_
  have hbounds := addr_bounds (by omega) he
  omega

theorem kprintf_newline (f : Frame) : kprintf f (chars ['\n'] ++ [0]) [] = .ok [[10]] := by
  exact @Format.kprintf_format ⟨[10], [], by simp [Plain], by simp⟩ f [] (by decide) (by decide)
    (by simp) (fun i p hi => by simp at hi)

/-- What `read_dir` prints when its loop is done. -/
theorem readDir_ok {fs : Tarfs} {addr : ℕ} {name g : List UInt8} {out : List (List UInt8)}
    (hfs : fs.list.take fs.idx ≠ []) (hg : strCpy name = .ok g)
    (hloop : readDirLoop f addr 0 g none (fs.list.take fs.idx) = .ok out) :
    readDir f fs addr name = .ok (out ++ [[10]]) := by
  rw [readDir]
  rcases hlist : fs.list.take fs.idx with _ | ⟨e, l⟩
  · exact absurd hlist hfs
  · rw [hlist] at hloop
    exact bind_eq_ok.2 ⟨g, hg, bind_eq_ok.2 ⟨out, hloop,
      bind_eq_ok.2 ⟨_, kprintf_newline (f fs.idx), rfl⟩⟩⟩

/-- `read_dir` lists the members that come after the header of the directory and start with its
name.  It lists nothing if what happens to be in `entry` before the loop is an empty name. -/
theorem readDir_lists (f : ℕ → Frame) (rest g t : List UInt8) (hg : 0 ∉ g)
    (hdir : d.dir = true) (hnames : ((before ++ d :: after).map Member.name).Nodup)
    (hcount : (before ++ d :: after).length ≤ TARFS_MAX)
    (hlt : (archive (before ++ d :: after)).length < 2 ^ 27)
    (haddr : start + (archive (before ++ d :: after)).length < 2 ^ 64) :
    ∃ fs addr, initTarfs start (archive (before ++ d :: after) ++ rest) = .ok fs ∧
      opendir f fs d.name = .ok (addr, []) ∧
      ∃ out, readDir f fs addr (g ++ 0 :: t) = .ok out ∧ out.flatten =
        (if g = [] then [] else
          (after.filter fun m => d.name.isPrefixOf m.name).flatMap fun m => 10 :: m.name) ++
          [10] := by
  have hnew : d.name ∉ before.map Member.name := by
    rw [List.map_append, List.nodup_append] at hnames
    exact fun hd => hnames.2.2 _ hd _ List.mem_cons_self rfl
  have hoff : (before.flatMap Member.encode).length < (archive (before ++ d :: after)).length := by
    simp only [archive, List.flatMap_append, List.length_append, List.length_replicate]
    omega
  refine ⟨_, start + (before.flatMap Member.encode).length, initTarfs_archive start rest hcount hlt,
    ?_, ?_⟩
  · rw [opendir, List.take_of_length_le (Nat.le_of_eq length_entries), findDir_entries hdir hnew,
      Nat.zero_add, Nat.mod_eq_of_lt (by omega)]
  · have hlist : (entries start 0 (before ++ d :: after)).take (before ++ d :: after).length
        = entries start 0 (before ++ d :: after) :=
      List.take_of_length_le (Nat.le_of_eq length_entries)
    have hne : (entries start 0 (before ++ d :: after)).take (before ++ d :: after).length
        ≠ [] := by
      rw [hlist, entries_append, entries]
      simp
    have hcpy := strCpy_append hg t
    by_cases hempty : g = []
    · rw [hempty] at hcpy ⊢
      exact ⟨_, readDir_ok hne hcpy readDirLoop_empty, rfl⟩
    · have hloop := readDirLoop_entries f hempty haddr
      rw [← hlist] at hloop
      refine ⟨_, readDir_ok hne hcpy hloop, ?_⟩
      simp [hempty, List.flatten_eq_flatMap, List.flatMap_assoc]

theorem readDir_lists_bin :
    ∃ fs addr out, initTarfs 0x400000 (archive [binDir, binLs] ++ []) = .ok fs ∧
      readDir (fun _ => Frame.zeros) fs addr [65, 0] = .ok out ∧
      out.flatten = 10 :: binLs.name ++ [10] := by
  obtain ⟨fs, addr, hinit, -, out, hout, hflat⟩ := @readDir_lists 0x400000 [] [binLs] binDir
    (fun _ => Frame.zeros) [] [65] [] (by decide) rfl (by decide) (by decide)
    (by rw [List.nil_append, length_bin]; decide) (by rw [List.nil_append, length_bin]; decide)
  exact ⟨fs, addr, out, hinit, hout, hflat⟩

end Tarfs

end Bgox
