import Bgox.Proofs.Printf
import Bgox.Proofs.Rows

/-!
# The two formatters

A format is text with directives in it (`Format`), and every format string whose directives have
their arguments is one (`exists_format`).  `printf` writes the text with every directive expanded.
`kprintf` cuts the format into rows of 100 bytes first, a directive with the text after it in one:
it prints the same if every row ends before the next one begins (`RowsFit`), and otherwise it stores
outside of its arrays (`formats_agree`).  A number with a sign is beyond both (`signed_decimal`).
-/

namespace Bgox

open Keyboard (chars)
open Run (bind_eq_ok)

/-- Text, and directives with the text after each. -/
structure Format where
  lead : List UInt8
  parts : List (Directive × List UInt8)
  lead_plain : Plain lead
  parts_plain : ∀ p ∈ parts, p.1.Clean ∧ Plain p.2

/-- What a directive and the text after it are in the format string. -/
def row (p : Directive × List UInt8) : List UInt8 := 37 :: p.1.letter :: p.2

/-- And what they stand for. -/
def shown (p : Directive × List UInt8) : List UInt8 := p.1.expansion ++ p.2

namespace Format

variable {F : Format} {f : Frame} {rest : List UInt8}

def source (F : Format) : List UInt8 := F.lead ++ F.parts.flatMap row

def args (F : Format) : List Arg := F.parts.map (·.1.arg)

def expand (F : Format) : List UInt8 := F.lead ++ F.parts.flatMap shown

/-- What `printf` writes. -/
def written (F : Format) : List UInt8 := F.lead ++ F.parts.flatMap fun p => p.1.written ++ p.2

end Format

theorem Plain.zero_notMem {s : List UInt8} (h : Plain s) : 0 ∉ s := fun h0 => (h 0 h0).1 rfl

/-! ## Format strings -/

/-- The bytes that follow a `%`. -/
def letters : List UInt8 → List UInt8
  | [] => []
  | [c] => if c = 37 then [0] else []
  | c :: l :: s => if c = 37 then l :: letters s else letters (l :: s)

/-- A directive with its argument. -/
def Takes (l : UInt8) (a : Arg) : Prop := ∃ d : Directive, d.Clean ∧ d.letter = l ∧ d.arg = a

theorem exists_format (s : List UInt8) : ∀ {al : List Arg}, 0 ∉ s →
    List.Forall₂ Takes (letters s) al → ∃ F : Format, F.source = s ∧ F.args = al := by
  -- the directive that begins the string is in front of what is left, a byte of text as well
  fun_induction letters s with
  | case1 =>
    intro al _ h
    cases h
    exact ⟨⟨[], [], by simp [Plain], by simp⟩, rfl, rfl⟩
  | case2 =>
    intro al _ h
    rcases h with _ | ⟨⟨d, -, hd, -⟩, -⟩
    exact absurd hd d.letter_ne.1
  | case3 c hc =>
    intro al h0 h
    cases h
    exact ⟨⟨[c], [], by simpa [Plain] using ⟨Ne.symm (by simpa using h0), hc⟩, by simp⟩, rfl, rfl⟩
  | case4 l s ih =>
    intro al h0 h
    simp only [List.mem_cons, not_or] at h0
    rcases h with _ | ⟨⟨d, hclean, rfl, rfl⟩, hrest⟩
    obtain ⟨F, rfl, rfl⟩ := ih h0.2.2 hrest
    refine ⟨⟨[], (d, F.lead) :: F.parts, by simp [Plain], ?_⟩, by simp [Format.source, row],
      by simp [Format.args]⟩
    exact List.forall_mem_cons.2 ⟨⟨hclean, F.lead_plain⟩, F.parts_plain⟩
  | case5 c l s hc ih =>
    intro al h0 h
    rw [List.mem_cons, not_or] at h0
    obtain ⟨F, hsource, rfl⟩ := ih h0.2 h
    refine ⟨⟨c :: F.lead, F.parts, ?_, F.parts_plain⟩, ?_, rfl⟩
    · exact List.forall_mem_cons.2 ⟨⟨Ne.symm h0.1, hc⟩, F.lead_plain⟩
    · simp [Format.source, ← hsource]

/-- The rows are the directives, each with the text after it. -/
theorem pieces_parts : ∀ {parts : List (Directive × List UInt8)} (lead : List UInt8), Plain lead →
    (∀ p ∈ parts, Plain p.2) → pieces 37 (lead ++ parts.flatMap row) = lead :: parts.map row
  | [], lead, hlead, _ => by
    simpa using pieces_of_notMem fun h => (hlead 37 h).2 rfl
  | (d, text) :: parts, lead, hlead, h => by
    obtain ⟨htext, hparts⟩ := List.forall_mem_cons.1 h
    have hnext := pieces_parts (d.letter :: text) (List.forall_mem_cons.2
      ⟨d.letter_ne, htext⟩) hparts
    rw [List.flatMap_cons, row, List.cons_append, pieces_append fun h => (hlead 37 h).2 rfl, hnext]
    rfl

namespace Format

variable {F : Format} {f : Frame} {rest : List UInt8}

theorem pieces_source (F : Format) : pieces 37 F.source = F.lead :: F.parts.map row :=
  pieces_parts F.lead F.lead_plain fun p hp => (F.parts_plain p hp).2

theorem zero_notMem_row {p : Directive × List UInt8} (hp : p ∈ F.parts) : 0 ∉ row p := by
  simpa [row] using ⟨p.1.letter_ne.1.symm, (F.parts_plain p hp).2.zero_notMem⟩

theorem zero_notMem_source (F : Format) : 0 ∉ F.source := by
  simp only [source, List.mem_append, List.mem_flatMap, not_or, not_exists, not_and]
  exact ⟨F.lead_plain.zero_notMem, fun p hp => zero_notMem_row hp⟩

theorem zero_notMem_written (F : Format) : 0 ∉ F.written := by
  simp only [written, List.mem_append, List.mem_flatMap, not_or, not_exists, not_and]
  refine ⟨F.lead_plain.zero_notMem, fun p hp => ?_⟩
  obtain ⟨hd, htext⟩ := F.parts_plain p hp
  exact ⟨Directive.zero_notMem_written hd, htext.zero_notMem⟩

/-! ## `printf` -/

theorem printfLoop_parts (rest : List UInt8) :
    ∀ {parts : List (Directive × List UInt8)} {w : List UInt8} {o : Out},
    (∀ p ∈ parts, p.1.Clean ∧ Plain p.2) → o.Holds w →
    w.length + (parts.flatMap fun p => p.1.written ++ p.2).length ≤ 1024 →
    ∃ o', printfLoop (parts.flatMap row ++ 0 :: rest) (parts.map (·.1.arg)) o = .ok o' ∧
      o'.Holds (w ++ parts.flatMap fun p => p.1.written ++ p.2)
  | [], w, o, _, h, _ => ⟨o, by simp, by simpa using h⟩
  | (d, text) :: parts, w, o, hparts, h, hlen => by
    obtain ⟨⟨hd, htext⟩, hrest⟩ := List.forall_mem_cons.1 hparts
    simp only [List.flatMap_cons, List.length_append] at hlen
    obtain ⟨o₁, hloop₁, ho₁⟩ := printfLoop_directive (d := d)
      (text ++ (parts.flatMap row ++ 0 :: rest)) (parts.map (·.1.arg)) hd h (by omega)
    obtain ⟨o₂, hloop₂, ho₂⟩ := printfLoop_text (parts.flatMap row ++ 0 :: rest)
      (parts.map (·.1.arg)) htext ho₁ (by simp only [List.length_append]; omega)
    obtain ⟨o', hloop, ho'⟩ := printfLoop_parts rest hrest ho₂
      (by simp only [List.length_append]; omega)
    refine ⟨o', ?_, by simpa using ho'⟩
    rw [← hloop, ← hloop₂, ← hloop₁]
    simp [row]

theorem printfBuf_format (hlen : F.written.length < 1024) (writeBuf : Buffer UInt8 1024)
    (istr : Buffer UInt8 100) (rest : List UInt8) :
    ∃ b, printfBuf (F.source ++ 0 :: rest) F.args writeBuf istr = .ok b ∧
      strCpy b.cells = .ok F.written := by
  have h0 : Out.Holds ⟨writeBuf, 0, istr⟩ [] := ⟨rfl, Buffer.has_nil _ _⟩
  have hsplit : F.written.length
      = F.lead.length + (F.parts.flatMap fun p => p.1.written ++ p.2).length := by simp [written]
  obtain ⟨o₁, hloop₁, ho₁⟩ := printfLoop_text (F.parts.flatMap row ++ 0 :: rest) F.args
    F.lead_plain h0 (by simp; omega)
  obtain ⟨o, hloop, ho⟩ := printfLoop_parts rest F.parts_plain ho₁
    (by simp only [List.nil_append]; omega)
  have hlast : o.len = F.written.length := ho.len
  obtain ⟨b, hstore, hhas⟩ := Buffer.store_append Trap.wild (w := F.written) ho.has
    (by omega) 0
  refine ⟨b, ?_, strCpy_cells hhas F.zero_notMem_written⟩
  rw [Nat.zero_add, ← hlast] at hstore
  rw [source, List.append_assoc, printfBuf]
  exact bind_eq_ok.2 ⟨o, hloop₁.trans hloop, hstore⟩

theorem written_eq_expand (h : ∀ p ∈ F.parts, p.1.Small) : F.written = F.expand := by
  have hall : ∀ parts : List (Directive × List UInt8), (∀ p ∈ parts, p.1.Small) →
      (parts.flatMap fun p => p.1.written ++ p.2) = parts.flatMap shown := by
    intro parts hparts
    refine List.flatMap_congr fun p hp => ?_
    rw [Directive.written_of_small (hparts p hp), shown]
  rw [written, expand, hall _ h]

/-! ## `kprintf` -/

/-- A row without a directive. -/
theorem kprintfPiece_lead {lead t : List UInt8} (hlead : Plain lead) (ht : t ≠ [])
    (al : List Arg) : kprintfPiece f (lead ++ 0 :: t) al = .ok (lead, al) := by
  have hcpy := strCpy_append hlead.zero_notMem t
  rcases lead with _ | ⟨c, _ | ⟨d, lead⟩⟩
  · obtain ⟨d, t, rfl⟩ := List.exists_cons_of_ne_nil ht
    rw [List.nil_append, kprintfPiece_plain (by decide) t al]
    exact bind_eq_ok.2 ⟨_, hcpy, rfl⟩
  · rw [List.singleton_append, kprintfPiece_plain (hlead c (by simp)).2 t al]
    exact bind_eq_ok.2 ⟨_, hcpy, rfl⟩
  · rw [List.cons_append, List.cons_append, kprintfPiece_plain (hlead c (by simp)).2]
    exact bind_eq_ok.2 ⟨_, hcpy, rfl⟩

theorem kprintfLoop_parts {cells : List UInt8} : ∀ {parts : List (Directive × List UInt8)} {k : ℕ},
    (∀ p ∈ parts, p.1.Clean ∧ Plain p.2) → (∀ p ∈ parts, (shown p).length < FMT_LEN) →
    (∀ i p, parts[i]? = some p → ∃ t, cells.drop ((k + i) * FMT_LEN) = row p ++ 0 :: t) →
    kprintfLoop f cells parts.length k (parts.map (·.1.arg)) = .ok (parts.map shown)
  | [], _, _, _, _ => rfl
  | (d, text) :: parts, k, hparts, hshown, hcells => by
    obtain ⟨⟨hd, htext⟩, hrest⟩ := List.forall_mem_cons.1 hparts
    obtain ⟨hlen, hshown⟩ := List.forall_mem_cons.1 hshown
    obtain ⟨t, ht⟩ := hcells 0 _ rfl
    rw [Nat.add_zero] at ht
    have hpiece := kprintfPiece_directive f (parts.map (·.1.arg)) t hd
      htext.zero_notMem (by simpa [shown] using hlen)
    have hloop := kprintfLoop_parts (k := k + 1) hrest hshown fun i p hi => by
      rw [Nat.add_assoc, Nat.add_comm 1]
      exact hcells (i + 1) p hi
    rw [List.length_cons, kprintfLoop, ht]
    exact bind_eq_ok.2 ⟨_, hpiece, bind_eq_ok.2 ⟨_, hloop, rfl⟩⟩

/-- Every row ends before the next one begins, but for the last one, if there is one more behind
it. -/
def RowsFit (F : Format) : Prop := ∀ i p, F.parts[i]? = some p →
  (row p).length < FMT_LEN ∨ i + 1 = F.parts.length ∧ F.parts.length < 9

theorem kprintf_eq (F : Format) (f : Frame) (rest : List UInt8) :
    kprintf f (F.source ++ 0 :: rest) F.args = (do
      let fmtSplit ← writeRows 0 (F.lead :: F.parts.map row) f.fmtSplit
      kprintfLoop f fmtSplit.cells (F.parts.length + 1) 0 F.args) := by
  rw [kprintf, strSplitDelim_eq F.zero_notMem_source, F.pieces_source]
  simp

/-- What is in the row of a directive. -/
theorem row_get {i : ℕ} {p : Directive × List UInt8} (h : F.parts[i]? = some p) :
    (F.lead :: F.parts.map row)[i + 1]? = some (row p) := by
  rw [List.getElem?_cons_succ, List.getElem?_map, h]
  rfl

theorem length_row_le {p : Directive × List UInt8} (h : (shown p).length < FMT_LEN) :
    (row p).length ≤ FMT_LEN + 1 := by
  simp only [row, shown, List.length_append, List.length_cons] at h ⊢
  omega

/-- Every row is found in the table. -/
theorem exists_rows (h9 : F.parts.length ≤ 9) (hlead : F.lead.length < FMT_LEN)
    (hrow : ∀ p ∈ F.parts, (row p).length ≤ FMT_LEN + 1) (hfit : F.RowsFit) :
    ∃ split, writeRows 0 (F.lead :: F.parts.map row) f.fmtSplit = .ok split ∧
      (∃ t, t ≠ [] ∧ split.cells = F.lead ++ 0 :: t) ∧
      ∀ i p, F.parts[i]? = some p →
        ∃ t, split.cells.drop ((1 + i) * FMT_LEN) = row p ++ 0 :: t := by
  have hroom : ∀ i q, (F.lead :: F.parts.map row)[i]? = some q →
      (0 + i) * FMT_LEN + q.length < 10 * FMT_LEN := by
    intro i q hq
    rcases i with _ | i
    · obtain rfl := Option.some.inj hq
      omega
    · rw [List.getElem?_cons_succ, List.getElem?_map] at hq
      obtain ⟨p, hp, rfl⟩ := Option.map_eq_some_iff.1 hq
      have hi := (List.getElem?_eq_some_iff.1 hp).1
      have hle := hrow p (List.mem_of_getElem? hp)
      simp only [FMT_LEN] at hle ⊢
      rcases hfit i p hp with hlt | ⟨hlast, hless⟩
      · simp only [FMT_LEN] at hlt
        omega
      · omega
  obtain ⟨split, hrows⟩ := writeRows_ok f.fmtSplit hroom
  refine ⟨split, hrows, ?_, fun i p hi => ?_⟩
  · obtain ⟨t, ht⟩ := exists_drop (row_has_of_lt hrows (i := 0) rfl (Or.inl hlead))
    refine ⟨t, ?_, by simpa using ht⟩
    rintro rfl
    have hcells := congrArg List.length ht
    simp only [List.length_drop, split.length_cells, List.length_append, FMT_LEN] at hcells hlead
    simp at hcells
    omega
  · have hhas := row_has_of_lt hrows (row_get hi) ((hfit i p hi).imp_right (by simp; omega))
    obtain ⟨t, ht⟩ := exists_drop hhas
    rw [Nat.zero_add, Nat.add_comm i] at ht
    exact ⟨t, ht⟩

/-- The first row is printed as it is, and the rows of the directives are left. -/
theorem kprintf_rows (f : Frame) (rest : List UInt8) (h9 : F.parts.length ≤ 9)
    (hlead : F.lead.length < FMT_LEN) (hrow : ∀ p ∈ F.parts, (row p).length ≤ FMT_LEN + 1)
    (hfit : F.RowsFit) : ∃ cells : List UInt8,
      (∀ i p, F.parts[i]? = some p → ∃ t, cells.drop ((1 + i) * FMT_LEN) = row p ++ 0 :: t) ∧
      kprintf f (F.source ++ 0 :: rest) F.args = (do
        let out ← kprintfLoop f cells F.parts.length 1 F.args
        return F.lead :: out) := by
  obtain ⟨split, hrows, ⟨t, ht0, ht⟩, hcells⟩ := exists_rows (f := f) h9 hlead hrow hfit
  refine ⟨split.cells, hcells, ?_⟩
  have hfirst := kprintfPiece_lead (f := f) F.lead_plain ht0 F.args
  rw [← ht] at hfirst
  simp only [kprintf_eq, hrows, kprintfLoop, Nat.zero_mul, List.drop_zero, hfirst, bind,
    Except.bind]

theorem kprintf_format (h9 : F.parts.length ≤ 9) (hlead : F.lead.length < FMT_LEN)
    (hshown : ∀ p ∈ F.parts, (shown p).length < FMT_LEN) (hfit : F.RowsFit) :
    kprintf f (F.source ++ 0 :: rest) F.args = .ok (F.lead :: F.parts.map shown) := by
  obtain ⟨cells, hcells, heq⟩ := kprintf_rows f rest h9 hlead
    (fun p hp => length_row_le (hshown p hp)) hfit
  rw [heq]
  exact bind_eq_ok.2 ⟨_, kprintfLoop_parts F.parts_plain hshown hcells, rfl⟩

/-- A row on which the loop stops. -/
theorem kprintfLoop_ne {cells : List UInt8} {out : List (List UInt8)} : ∀ {left j k : ℕ}
    {al : List Arg}, (∀ al, kprintfPiece f (cells.drop ((k + j) * FMT_LEN)) al = .error .wild) →
    j < left → kprintfLoop f cells left k al ≠ .ok out
  | 0, _, _, _, _, hj => by omega
  | left + 1, j, k, al, h, hj => by
    intro hloop
    obtain ⟨⟨seq, al⟩, hpiece, hrest⟩ := bind_eq_ok.1 hloop
    rcases j with _ | j
    · rw [← Nat.add_zero k, h] at hpiece
      cases hpiece
    · obtain ⟨out', hout', -⟩ := bind_eq_ok.1 hrest
      refine kprintfLoop_ne (j := j) (fun al => ?_) (by omega) hout'
      rw [Nat.add_assoc, Nat.add_comm 1]
      exact h al

/-- A row that does not end before the next one. -/
theorem kprintf_ne {i : ℕ} {p : Directive × List UInt8}
    (hi : F.parts[i]? = some p) (hp : FMT_LEN ≤ (row p).length)
    (hlast : i + 1 = F.parts.length → 9 ≤ F.parts.length) (out : List (List UInt8)) :
    kprintf f (F.source ++ 0 :: rest) F.args ≠ .ok out := by
  intro h
  rw [kprintf_eq] at h
  obtain ⟨split, hrows, hloop⟩ := bind_eq_ok.1 h
  by_cases hend : i + 1 = F.parts.length
  · -- the tenth row leaves the table
    have hnine := hlast hend
    rw [writeRows_error (row_get hi) (by simp only [FMT_LEN] at hp ⊢; omega)] at hrows
    cases hrows
  · -- the next row is written over the end of this one
    have hi1 := (List.getElem?_eq_some_iff.1 hi).1
    obtain ⟨q, hq⟩ : ∃ q, F.parts[i + 1]? = some q := ⟨_, List.getElem?_eq_getElem (by omega)⟩
    have hhere := (row_has hrows (row_get hi)).1
    rw [List.take_append_of_le_length hp] at hhere
    have hnext : split.Has ((0 + (i + 1)) * FMT_LEN + ((row p).take FMT_LEN).length)
        [37, q.1.letter] := by
      have := ((row_has hrows (row_get hq)).1).take 2
      rw [List.length_take, Nat.min_eq_left hp, ← Nat.succ_mul]
      exact this
    obtain ⟨t, ht⟩ := (Buffer.has_append.2 ⟨hhere, hnext⟩).drop
    refine kprintfLoop_ne (j := i + 1) (fun al => ?_) (by omega) hloop
    have hrow := kprintfPiece_error (f := f) (w := p.2.take 98 ++ [37, q.1.letter]) p.1 ?_ ?_ t
      al
    · rw [ht]
      simpa [row, FMT_LEN] using hrow
    · have htext := (F.parts_plain p (List.mem_of_getElem? hi)).2.zero_notMem
      simpa using ⟨fun h => htext (List.mem_of_mem_take h), q.1.letter_ne.1.symm⟩
    · simp only [row, List.length_cons, FMT_LEN] at hp
      simp [FMT_LEN]
      omega

/-- `kprintf` prints what the format stands for. -/
def KernelPrints (F : Format) (f : Frame) (rest : List UInt8) : Prop :=
  ∃ out, kprintf f (F.source ++ 0 :: rest) F.args = .ok out ∧ out.flatten = F.expand

/-- `printf` leaves it in `write_buf`. -/
def LibraryWrites (F : Format) (writeBuf : Buffer UInt8 1024) (istr : Buffer UInt8 100)
    (rest : List UInt8) : Prop :=
  ∃ b, printfBuf (F.source ++ 0 :: rest) F.args writeBuf istr = .ok b ∧
    strCpy b.cells = .ok F.expand

/-- What is in the arrays before does not matter, nor what is behind the format string. -/
theorem formats_agree (F : Format) (f : Frame) (writeBuf : Buffer UInt8 1024)
    (istr : Buffer UInt8 100) (rest : List UInt8) (h9 : F.parts.length ≤ 9)
    (hlead : F.lead.length ≤ 99) (hshown : ∀ p ∈ F.parts, (shown p).length ≤ 99)
    (hsmall : ∀ p ∈ F.parts, p.1.Small) (hlen : F.expand.length < 1024) :
    (F.KernelPrints f rest ∧ F.LibraryWrites writeBuf istr rest ↔ F.RowsFit) ∧
      F.LibraryWrites writeBuf istr rest := by
  have hlib : F.LibraryWrites writeBuf istr rest := by
    rw [← written_eq_expand hsmall] at hlen
    rw [LibraryWrites, ← written_eq_expand hsmall]
    exact printfBuf_format hlen writeBuf istr rest
  refine ⟨⟨?_, fun hfit => ⟨?_, hlib⟩⟩, hlib⟩
  · rintro ⟨⟨out, hout, -⟩, -⟩ i p hi
    by_contra hrow
    simp only [not_or, not_and, Nat.not_lt] at hrow
    exact kprintf_ne hi hrow.1 hrow.2 out hout
  · refine ⟨_, kprintf_format h9 (Nat.lt_succ_of_le hlead)
      (fun p hp => Nat.lt_succ_of_le (hshown p hp)) hfit, ?_⟩
    simp [expand, List.flatMap_def]

end Format

/-- Arrays of zeros. -/
def Frame.zeros : Frame :=
  ⟨.replicate _ 0, .replicate _ 0, .replicate _ 0, .replicate _ 0, .replicate _ 0, .replicate _ 0,
    .replicate _ 0⟩

/-- The format `n=%d;`. -/
def Format.short : Format :=
  ⟨chars ['n', '='], [(.dec 5, chars [';'])], by simp [Plain, chars, Char.toUInt8],
    by simp [Plain, Directive.Clean, chars, Char.toUInt8]⟩

theorem formats_agree_short :
    Format.short.KernelPrints .zeros [] ∧
      Format.short.LibraryWrites (.replicate _ 0) (.replicate _ 0) [] := by
  have h5 : Directive.expansion (.dec 5) = [53] := rfl
  refine (Format.formats_agree Format.short .zeros (.replicate _ 0) (.replicate _ 0) [] ?_ ?_ ?_ ?_
    ?_).1.2 ?_
  · simp [Format.short]
  · simp [Format.short, chars]
  · simp [Format.short, chars, shown, h5]
  · simp [Format.short, Directive.Small]
  · simp [Format.short, Format.expand, chars, shown, h5]
  · simp [Format.short, Format.RowsFit, row, chars, FMT_LEN, List.getElem?_cons]

/-- The format `%d`, 98 letters, and `%d`. -/
def Format.long : Format :=
  ⟨[], [(.dec 5, List.replicate 98 97), (.dec 7, [])], by simp [Plain],
    by simp [Plain, Directive.Clean]⟩

/-- The two numbers have one digit, so that no piece is longer than 99 bytes.  But the first row has
100 bytes, and the second one is written over its end. -/
theorem kprintf_long_fails :
    Format.long.lead.length ≤ 99 ∧ (∀ p ∈ Format.long.parts, (shown p).length ≤ 99) ∧
      Format.long.expand.length = 100 ∧ ¬ Format.long.KernelPrints .zeros [] := by
  have h5 : Directive.expansion (.dec 5) = [53] := rfl
  have h7 : Directive.expansion (.dec 7) = [55] := rfl
  refine ⟨by simp [Format.long], ?_, ?_, ?_⟩
  · simp [Format.long, shown, h5, h7]
  · simp only [Format.long, Format.expand, shown, h5, h7, List.flatMap_cons, List.flatMap_nil,
      List.length_append, List.length_replicate, List.length_singleton, List.length_nil]
  · rintro ⟨out, hout, -⟩
    exact Format.kprintf_ne (i := 0) rfl (by simp [row, FMT_LEN]) (by simp [Format.long]) out hout

/-! ## One directive -/

/-- A directive and nothing else. -/
def Format.single (d : Directive) (hd : d.Clean) : Format :=
  ⟨[], [(d, [])], by simp [Plain], by simpa [Plain] using hd⟩

theorem Format.written_single (d : Directive) (hd : d.Clean) :
    (Format.single d hd).written = d.written := by
  simp [Format.single, Format.written]

variable {d : Directive}

/-- The row of the directive is all that is left to print. -/
theorem kprintf_single_eq (f : Frame) (hd : d.Clean) (rest : List UInt8) :
    ∃ t, kprintf f (37 :: d.letter :: 0 :: rest) [d.arg] = (do
      let r ← kprintfPiece f (37 :: d.letter :: ([] ++ 0 :: t)) [d.arg]
      return [[], r.1]) := by
  obtain ⟨cells, hcells, heq⟩ := Format.kprintf_rows (F := .single d hd) f rest
    (by simp [Format.single]) (by simp [Format.single, FMT_LEN])
    (by simp [Format.single, row, FMT_LEN])
    (by simp [Format.single, Format.RowsFit, row, FMT_LEN, List.getElem?_cons])
  obtain ⟨t, ht⟩ := hcells 0 (d, []) rfl
  rw [Nat.add_zero, row, List.cons_append, List.cons_append] at ht
  refine ⟨t, heq.trans ?_⟩
  simp only [Format.single, Format.args, List.map_cons, List.map_nil, List.length_singleton,
    kprintfLoop, ht, bind, Except.bind]
  rcases kprintfPiece f (37 :: d.letter :: ([] ++ 0 :: t)) [d.arg] with _ | _ <;> rfl

theorem kprintf_single (f : Frame) (rest : List UInt8) (hd : d.Clean)
    (hlen : d.expansion.length < FMT_LEN) :
    kprintf f (37 :: d.letter :: 0 :: rest) [d.arg] = .ok [[], d.expansion] := by
  obtain ⟨t, ht⟩ := kprintf_single_eq f hd rest
  rw [ht, kprintfPiece_directive f [] t hd (by simp) (by simpa using hlen), List.append_nil]
  rfl

/-- A string of 100 bytes or more. -/
theorem kprintf_str_error {s : List UInt8} (f : Frame) (rest more : List UInt8) (hs : 0 ∉ s)
    (hlen : FMT_LEN ≤ s.length) :
    kprintf f (37 :: 115 :: 0 :: rest) [.ptr (s ++ 0 :: more)] = .error .wild := by
  obtain ⟨t, ht⟩ := kprintf_single_eq (d := .str s more) f hs rest
  have herror := kprintfPiece_str_error f [] t more hs List.not_mem_nil
    (by simp [FMT_LEN]) (by simpa using hlen)
  exact ht.trans (by rw [Directive.letter, Directive.arg, herror]; rfl)

theorem printf_single (hd : d.Clean) (hlen : d.written.length < 1024)
    (writeBuf : Buffer UInt8 1024) (istr : Buffer UInt8 100) (rest : List UInt8) :
    ∃ b, printfBuf (37 :: d.letter :: 0 :: rest) [d.arg] writeBuf istr = .ok b ∧
      strCpy b.cells = .ok d.written := by
  have hbuf := Format.printfBuf_format (F := .single d hd)
    (by rwa [Format.written_single]) writeBuf istr rest
  rw [Format.written_single] at hbuf
  simpa [Format.single, Format.source, Format.args, row] using hbuf

/-! ## Numbers with a sign -/

/-- The numeral of a number, with a `-` if it is negative. -/
def signed (n : ℤ) : List UInt8 :=
  if n < 0 then 45 :: numeral .dec n.natAbs else numeral .dec n.natAbs

theorem kprintf_decimal (f : Frame) (v : UInt64) (rest : List UInt8) :
    kprintf f (chars ['%', 'd'] ++ 0 :: rest) [.word v] = .ok [[], numeral .dec v.toNat] :=
  kprintf_single (d := .dec v) f rest trivial
    (Nat.lt_of_le_of_lt (length_numeral_le .dec v) (by decide))

theorem printf_decimal (v : UInt64) (writeBuf : Buffer UInt8 1024) (istr : Buffer UInt8 100)
    (rest : List UInt8) : ∃ b, printfBuf (chars ['%', 'd'] ++ 0 :: rest) [.word v] writeBuf istr
        = .ok b ∧ strCpy b.cells = .ok (Out.intText v) := by
  have hlen : (Out.intText v).length < 1024 := by
    by_cases hneg : int v.toNat < 0
    · have := length_numeral_le .dec (.ofInt (int (-int v.toNat)))
      rw [Out.intText_neg hneg, List.length_cons]
      omega
    · have := length_numeral_le .dec (.ofInt (int v.toNat))
      rw [Out.intText_nonneg hneg]
      omega
  exact printf_single (d := .dec v) trivial hlen writeBuf istr rest

/-- `int` takes the sign from the low half of a number that was extended. -/
theorem int_ofInt {n : ℤ} (hlo : -2 ^ 31 ≤ n) (hhi : n < 2 ^ 31) :
    int (UInt64.ofInt n).toNat = n := by
  rw [toNat_ofInt, int, Int.bmod_def]
  split_ifs <;> omega

theorem signed_ne_numeral {n : ℤ} (hn : n < 0) (num : ℕ) : numeral .dec num ≠ signed n := by
  intro h
  rw [signed, if_pos hn] at h
  exact notMem_numeral .dec num (c := 45) (by decide) (h ▸ List.mem_cons_self)

/-- The least number stays negative when it is negated, and has 20 digits then. -/
theorem intText_least :
    Out.intText (.ofInt (-2 ^ 31)) = 45 :: numeral .dec 18446744071562067968 := by
  have hint := int_ofInt (n := -2 ^ 31) (by omega) (by omega)
  have hnat : (UInt64.ofInt (-2 ^ 31)).toNat = 18446744071562067968 := by
    have := toNat_ofInt (-2 ^ 31)
    omega
  rw [Out.intText_neg (by omega), hint, show int (-(-2 ^ 31)) = -2 ^ 31 by decide, hnat]

theorem intText_ofInt {n : ℤ} (hlo : -2 ^ 31 ≤ n) (hhi : n < 2 ^ 31) :
    Out.intText (.ofInt n) = signed n ↔ n ≠ -2 ^ 31 := by
  have hint := int_ofInt hlo hhi
  constructor
  · rintro h rfl
    have hten := (length_numeral_le_iff .dec (-2 ^ 31 : ℤ).natAbs (k := 10) (by decide)).2
      (by decide)
    rw [intText_least, signed, if_pos (by decide), List.cons.injEq] at h
    rw [← h.2, length_numeral_le_iff _ _ (by decide)] at hten
    exact absurd hten (by decide)
  · intro hmin
    have hnat : (UInt64.ofInt n.natAbs).toNat = n.natAbs := by
      have := toNat_ofInt n.natAbs
      omega
    by_cases hneg : n < 0
    · rw [Out.intText_neg (by rwa [hint]), hint, int_of_lt (by omega) (by omega), signed,
        if_pos hneg, show -n = n.natAbs by omega, hnat]
    · rw [Out.intText_nonneg (by rwa [hint]), hint, signed, if_neg hneg]
      nth_rewrite 1 [show n = n.natAbs by omega]
      rw [hnat]

section Signed

variable (n : Int32) (f : Frame) (writeBuf : Buffer UInt8 1024) (istr : Buffer UInt8 100)
  (rest : List UInt8)

/-- `kprintf` prints a number as a signed one. -/
def KernelSigned : Prop :=
  ∃ out, kprintf f (chars ['%', 'd'] ++ 0 :: rest) [.word (.ofInt n.toInt)] = .ok out ∧
    out.flatten = signed n.toInt

/-- And `printf`. -/
def LibrarySigned : Prop :=
  ∃ b, printfBuf (chars ['%', 'd'] ++ 0 :: rest) [.word (.ofInt n.toInt)] writeBuf istr = .ok b ∧
    strCpy b.cells = .ok (signed n.toInt)

theorem kernelSigned_iff : KernelSigned n f rest ↔ 0 ≤ n.toInt := by
  constructor
  · rintro ⟨out, hout, hflat⟩
    rw [kprintf_decimal] at hout
    obtain rfl := Except.ok.inj hout
    by_contra hn
    exact signed_ne_numeral (Int.not_le.1 hn) _ (by simpa using hflat)
  · intro hn
    refine ⟨_, kprintf_decimal f _ rest, ?_⟩
    have hnat : (UInt64.ofInt n.toInt).toNat = n.toInt.natAbs := by
      have := toNat_ofInt n.toInt
      have := n.toInt_lt
      omega
    simp [hnat, signed, Int.not_lt.2 hn]

theorem librarySigned_iff : LibrarySigned n writeBuf istr rest ↔ n.toInt ≠ -2 ^ 31 := by
  rw [← intText_ofInt n.le_toInt n.toInt_lt]
  obtain ⟨b, hbuf, hb⟩ := printf_decimal (.ofInt n.toInt) writeBuf istr rest
  constructor
  · rintro ⟨b', hbuf', hb'⟩
    obtain rfl := Except.ok.inj (hbuf.symm.trans hbuf')
    exact Except.ok.inj (hb.symm.trans hb')
  · intro h
    exact ⟨b, hbuf, h ▸ hb⟩

theorem signed_decimal :
    (KernelSigned n f rest ∧ LibrarySigned n writeBuf istr rest ↔ 0 ≤ n.toInt) ∧
      (LibrarySigned n writeBuf istr rest ↔ n.toInt ≠ -2 ^ 31) := by
  refine ⟨?_, librarySigned_iff n writeBuf istr rest⟩
  rw [kernelSigned_iff, librarySigned_iff]
  omega

end Signed

/-- For -1 the kernel prints 20 digits and no sign, and for the least number the library writes 20
digits behind the sign. -/
theorem signed_decimal_fails :
    kprintf .zeros (chars ['%', 'd'] ++ [0]) [.word (.ofInt (-1))]
      = .ok [[], numeral .dec 18446744073709551615] ∧
    ¬ KernelSigned (-1) .zeros [] ∧
    Out.intText (.ofInt (-2 ^ 31)) = 45 :: numeral .dec 18446744071562067968 ∧
    ¬ LibrarySigned Int32.minValue (.replicate _ 0) (.replicate _ 0) [] := by
  have hnat : (UInt64.ofInt (-1)).toNat = 18446744073709551615 := by
    have := toNat_ofInt (-1)
    omega
  refine ⟨?_, ?_, intText_least, ?_⟩
  · rw [kprintf_decimal, hnat]
  · rw [kernelSigned_iff]
    decide
  · rw [librarySigned_iff]
    decide

end Bgox
